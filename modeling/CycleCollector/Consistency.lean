import CycleCollector.Snapshot.Basic
/-!
# Consistency with the snapshot

The program runs on between the steps of a pass. So before anything is given up, each object that
the snapshot found dead is compared with its record: its raw count, the reach of its bridge and its
references to objects that take part. One difference, and everything stays alive until the next
pass.

## Main definitions

* `Snapshot.isUnchanged`: the comparison for one record.
* `TrackedSets.revived`: everything alive again.
* `Snapshot.judge`: the verdict of the pass, entered into the tracked sets.
-/

namespace CycleCollector

def TrackedSets.takesPart (s : TrackedSets) (o : ObjectId) : Bool :=
  (s.roleOf o).any (· ≠ .isolated)

/-- Makes everything in collection alive: the dead get the cyclic count 1, and the staged come
back, behind those that never left. -/
def TrackedSets.revived (s : TrackedSets) : TrackedSets :=
  let counted := s.mapGcRefs fun e =>
    if e.role = .staged ∨ e.role = .inCollection ∧ e.gcRefs = 0 then 1 else e.gcRefs
  counted.merged .staged .inCollection

/-- Whether the graph is still what the snapshot saw. -/
inductive Verdict where
  /-- It is, as far as dead objects go; they are staged. -/
  | consistent
  /-- It is not; nothing is dead. -/
  | inconsistent
deriving DecidableEq, Repr

namespace Snapshot

variable {ρ : Type} [ForeignHeap ρ]

def isUnchanged (s : Snapshot) (r : Record) (sets : TrackedSets) (foreign : ρ) (host : HostHeap) :
    Except Fault Bool := do
  if (← ForeignHeap.refcount foreign r.object) ≠ r.refcount then return false
  else if ← host.reaches r.bridge then return false
  else
    let references ← ForeignHeap.references foreign r.object
    return references.filter sets.takesPart = s.objectsAt r.edges

/-- Gives each object its external count as cyclic count, an object without a record the count 1,
and stages the dead, up to the first that has changed. -/
def examine (s : Snapshot) (foreign : ρ) (host : HostHeap) :
    TrackedSets → List ObjectId → Except Fault (Verdict × TrackedSets)
  | sets, [] => .ok (.consistent, sets)
  | sets, o :: os =>
    match s.recordOf o with
    | none => examine s foreign host (sets.withGcRefs o 1) os
    | some r =>
      let counted := sets.withGcRefs o r.external
      if r.external = 0 then do
        if ← s.isUnchanged r counted foreign host then
          examine s foreign host (counted.moved o .staged) os
        else return (.inconsistent, counted)
      else examine s foreign host counted os

/-- The verdict of the pass. A snapshot that lost an object is inconsistent without a look. -/
def judge (s : Snapshot) (sets : TrackedSets) (foreign : ρ) (host : HostHeap) (invalidated : Bool) :
    Except Fault (Verdict × TrackedSets) :=
  if invalidated then .ok (.inconsistent, sets.revived)
  else do
    match ← s.examine foreign host sets (sets.members .inCollection) with
    | (.consistent, sets) => return (.consistent, sets)
    | (.inconsistent, sets) => return (.inconsistent, sets.revived)

end Snapshot

end CycleCollector
