import CycleCollector.Collector.Basic
import CycleCollector.HostHeap.Trace
/-!
# The collector between its heaps

A `World` is a collector with the two heaps it works on. The steps of a pass are functions from
worlds to worlds; what the program does to either heap between two steps changes the world too.
-/

namespace CycleCollector

structure World (ρ : Type) where
  collector : Collector := {}
  foreign : ρ
  host : HostHeap := {}
deriving DecidableEq, Repr

namespace World

variable {ρ σ : Type}

def count (w : World ρ) (f : Stats → Stats) : World ρ :=
  { w with collector := { w.collector with stats := f w.collector.stats } }

def withSets (w : World ρ) (sets : TrackedSets) : World ρ :=
  { w with collector := { w.collector with sets } }

def mapForeign (f : ρ → σ) (w : World ρ) : World σ :=
  { collector := w.collector, foreign := f w.foreign, host := w.host }

def drain (w : World ρ) : Except Fault (World ρ) := do
  return { w with host := ← w.host.drain }

end World

end CycleCollector
