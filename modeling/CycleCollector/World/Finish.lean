import CycleCollector.World.Basic
import CycleCollector.ForeignHeap.Reach
import CycleCollector.Consistency
/-!
# The end of a pass

When marking has ended the snapshot is judged and given up. The dead objects are staged then, and
go three ways: those with legacy finalizers, and what they reach, stay alive; if any other has a
modern finalizer, all others are isolated; if none has, all others are released. Before that,
*border marking* hands the host heap every bridge of an object that stays.

A sweep is border marking alone, by raw counts.

## Main definitions

* `World.keepLegacy`, `isolateFinalizable`, `releaseStaged`: the three ways.
* `World.markBorder`: border marking.
* `World.finishPass`, `World.sweep`: the steps that end a pass or do without one.
-/

namespace CycleCollector

def TrackedSets.keepAll (s : TrackedSets) (os : List ObjectId) : TrackedSets :=
  os.foldl (fun s o => (s.moved o .inCollection).withGcRefs o 1) s

/-- What tells whether an object is held from the foreign side. -/
inductive Evidence where
  /-- The verdict of the pass: its cyclic count. -/
  | cyclicCount
  /-- Its raw count without bias. -/
  | rawCount
deriving DecidableEq, Repr

namespace World

variable {ρ : Type} [ForeignHeap ρ]

/-! ## Legacy finalizers -/

/-- Keeps the staged objects with legacy finalizers and the staged objects that they reach, and
reports the former. Gives their number. -/
def keepLegacy (w : World ρ) : Except Fault (Nat × World ρ) := do
  let staged := w.collector.sets.members .staged
  let legacy ← ForeignHeap.withFinalizer w.foreign .legacy staged
  let others := staged.filter (· ∉ legacy)
  let reached ← ForeignHeap.reach w.foreign others legacy.reverse
  let w := w.withSets (w.collector.sets.keepAll (legacy ++ reached))
  let w := w.count fun s => { s with legacyGarbage := s.legacyGarbage + legacy.length }
  return (legacy.length,
    { w with foreign := legacy.foldl ForeignHeap.noteLegacyGarbage w.foreign })

/-! ## Modern finalizers -/

/-- Isolates all staged objects if one of them has a modern finalizer, as a finalizer may reach any
of them. Gives the number of isolated objects. -/
def isolateFinalizable (w : World ρ) : Except Fault (Nat × World ρ) := do
  let staged := w.collector.sets.members .staged
  let finalizable ← ForeignHeap.withFinalizer w.foreign .modern staged
  if finalizable.isEmpty then return (0, w)
  else
    let w := w.withSets (w.collector.sets.merged .staged .isolated)
    let w := w.count fun s => { s with isolated := s.isolated + staged.length }
    return (staged.length,
      { w with foreign := ForeignHeap.scheduleFinalizers w.foreign finalizable })

/-! ## Border marking -/

def isHeld (w : World ρ) (o : ObjectId) : Evidence → Except Fault Bool
  | .cyclicCount => .ok ((w.collector.sets.gcRefs o).any (0 < ·))
  | .rawCount => do return 0 < Refcount.stripBias (← ForeignHeap.refcount w.foreign o)

def heldBridges (w : World ρ) (evidence : Evidence) :
    List ObjectId → Except Fault (List HostRef)
  | [] => .ok []
  | o :: os => do
    match ← ForeignHeap.bridge w.foreign o with
    | none => heldBridges w evidence os
    | some h =>
      let held ← w.isHeld o evidence
      let others ← heldBridges w evidence os
      return if held then h :: others else others

/-- Hands the host heap the bridge of every tracked object that is held. The verdict knows nothing
of isolated objects, so these always count by their raw count. -/
def markBorder (w : World ρ) (evidence : Evidence) : Except Fault (World ρ) := do
  let sets := w.collector.sets
  let fresh ← w.heldBridges evidence (sets.members .new)
  let collected ← w.heldBridges evidence (sets.members .inCollection)
  let isolated ← w.heldBridges .rawCount (sets.members .isolated)
  let bridges := fresh ++ collected ++ isolated
  let w := w.count fun s => { s with borderMarked := s.borderMarked + bridges.length }
  return { w with host := w.host.promoteAll bridges }

/-! ## Release -/

/-- Forgets all staged objects, then releases them in order. Gives their number. -/
def releaseStaged (w : World ρ) : Except Fault (Nat × World ρ) := do
  let dead := w.collector.sets.members .staged
  let w := w.withSets (w.collector.sets.cleared .staged)
  let w := w.count fun s => { s with released := s.released + dead.length }
  return (dead.length, { w with foreign := ← ForeignHeap.releaseAll w.foreign dead })

/-! ## Steps -/

omit [ForeignHeap ρ] in
def endPass (w : World ρ) (outcome : Outcome) : World ρ :=
  let stats := w.collector.stats
  { w with
    collector := { w.collector with
      phase := .idle
      lastOutcome := some outcome
      stats := { stats with
        passes := stats.passes + 1
        resurrectedPasses :=
          stats.resurrectedPasses + (if outcome = .resurrected then 1 else 0) } } }

omit [ForeignHeap ρ] in
def discardSnapshot (w : World ρ) (sets : TrackedSets) : World ρ :=
  let stats := w.collector.stats
  { w with
    collector := { w.collector with
      sets
      snapshot? := none
      invalidated := false
      stats := { stats with snapshotsDiscarded := stats.snapshotsDiscarded + 1 } } }

/-- Disposes of the staged objects, and gives the outcome of a consistent pass. If some were
isolated, border marking goes by raw counts. -/
def disposeStaged (w : World ρ) : Except Fault (Outcome × World ρ) := do
  let (legacy, w) ← w.keepLegacy
  let (isolated, w) ← w.isolateFinalizable
  let w ← w.markBorder (if isolated = 0 then .cyclicCount else .rawCount)
  let (released, w) ← w.releaseStaged
  return (.collected released isolated legacy, w)

def finishPass (w : World ρ) : Except Fault (World ρ) :=
  match w.collector.snapshot? with
  | none => .error .snapshotDiscardedTwice
  | some snapshot => do
    let (verdict, sets) ←
      snapshot.judge w.collector.sets w.foreign w.host w.collector.invalidated
    let (outcome, w) ← (w.discardSnapshot sets).disposeStaged
    return w.endPass (if verdict = .consistent then outcome else .resurrected)

/-- Marks the border by raw counts and looks for no cycle. -/
def sweep (w : World ρ) : Except Fault (World ρ) := do
  let w ← w.markBorder .rawCount
  return { w with
    collector := { w.collector with
      phase := .idle
      lastOutcome := some .swept
      stats := { w.collector.stats with sweeps := w.collector.stats.sweeps + 1 } } }

end World

end CycleCollector
