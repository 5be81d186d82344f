import CycleCollector.Snapshot.Basic
/-!
# The collector

The state that the collector keeps between two steps: its options, the phase it is in, the tracked
sets, the snapshot of the pass in progress, and its statistics. A *pass* goes from `idle` through
`marking` and `marked` back to `idle`; a *sweep* does without a snapshot.

## Main definitions

* `Collector`: the state.
* `Collector.track`, `untrack`, `finalizersDone`: what the program tells it about objects.
* `Collector.requestSweep`, `setCycleDetection`: what the program tells it about passes.
-/

namespace CycleCollector

structure Options where
  /-- Look for cycles at all. -/
  cycleDetection : Bool := true
  /-- Scans in one marking step, as many as it takes if absent. -/
  scansPerStep : Option Nat := none
  /-- Let the host heap trace each bridge as soon as it is handed over. -/
  eagerHostTrace : Bool := true
  /-- Stop tracking immutable containers that hold no tracked object. -/
  untrackAtomicContainers : Bool := true
deriving DecidableEq, Repr, Inhabited

inductive Phase where
  /-- No pass is in progress. -/
  | idle
  /-- A snapshot was taken and is being marked. -/
  | marking
  /-- Marking has ended, the verdict is due. -/
  | marked
  /-- No pass is in progress, and the next step is a sweep. -/
  | sweepDue
deriving DecidableEq, Repr, Inhabited

def Phase.inPass : Phase → Bool
  | .marking | .marked => true
  | .idle | .sweepDue => false

inductive Outcome where
  /-- No cycle was looked for. -/
  | swept
  /-- The graph was as in the snapshot. Dead objects were released, or isolated for finalizers;
  `legacy` of them have legacy finalizers and were kept. -/
  | collected (released isolated legacy : Nat)
  /-- The graph had changed, and everything was kept. -/
  | resurrected
deriving DecidableEq, Repr

structure Stats where
  passes : Nat := 0
  sweeps : Nat := 0
  snapshotsTaken : Nat := 0
  snapshotsDiscarded : Nat := 0
  lastSnapshotObjects : Nat := 0
  lastSnapshotEdges : Nat := 0
  scans : Nat := 0
  /-- Bridges handed to the host heap while marking. -/
  promotions : Nat := 0
  /-- Bridges handed to the host heap by border marking. -/
  borderMarked : Nat := 0
  released : Nat := 0
  isolated : Nat := 0
  legacyGarbage : Nat := 0
  /-- Passes that kept everything because the graph had changed. -/
  resurrectedPasses : Nat := 0
  untrackedContainers : Nat := 0
deriving DecidableEq, Repr, Inhabited

def Stats.snapshotsBalanced (s : Stats) : Bool := s.snapshotsTaken = s.snapshotsDiscarded

structure Collector where
  options : Options := {}
  phase : Phase := .idle
  sets : TrackedSets := {}
  snapshot? : Option Snapshot := none
  /-- An object of the snapshot is tracked no longer. -/
  invalidated : Bool := false
  stats : Stats := {}
  /-- How the last pass or sweep ended. -/
  lastOutcome : Option Outcome := none
deriving DecidableEq, Repr

namespace Collector

instance : Inhabited Collector := ⟨{}⟩

/-! ## Tracking -/

def track (c : Collector) (o : ObjectId) : Except TrackError Collector :=
  match c.sets.insert? o .new with
  | some sets => .ok { c with sets }
  | none => .error (.alreadyTracked o)

/-- Stops to track an object. If it is part of the snapshot of a pass in progress, that pass will
keep everything. -/
def untrack (c : Collector) (o : ObjectId) : Except TrackError Collector :=
  if c.sets.contains o then
    .ok { c with
      sets := c.sets.erase o
      invalidated := c.invalidated || c.snapshot?.any (·.contains o) }
  else .error (.notTracked o)

/-- Learns that the finalizer of an isolated object has run: the object is new again. -/
def finalizersDone (c : Collector) (o : ObjectId) : Except TrackError Collector :=
  match c.sets.roleOf o with
  | some .isolated => .ok { c with sets := (c.sets.moved o .new).withGcRefs o 1 }
  | some _ => .error (.notIsolated o)
  | none => .error (.notTracked o)

/-! ## Passes -/

def setCycleDetection (c : Collector) (on : Bool) : Collector :=
  { c with options := { c.options with cycleDetection := on } }

/-- Makes the next step a sweep. A pass in progress goes on unimpressed. -/
def requestSweep (c : Collector) : Collector :=
  match c.phase with
  | .idle => { c with phase := .sweepDue }
  | _ => c

end Collector

end CycleCollector
