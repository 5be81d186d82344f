import CycleCollector.World.Basic
import CycleCollector.Snapshot.Roots
import CycleCollector.Marking.Basic
/-!
# From the start of a pass to its verdict

A pass starts by letting go of immutable containers that hold no tracked object, takes the new
objects into collection and takes a snapshot. Marking steps follow until a step ends at the fixed
point while the host heap has nothing left to trace: only then can no further bridge come alive.

## Main definitions

* `World.untrackContainers`: lets go of the containers.
* `World.startPass`: up to the snapshot and its roots.
* `World.markStep`: one step of marking.
-/

namespace CycleCollector.World

variable {ρ : Type} [ForeignHeap ρ]

/-- Stops to track a container unless it holds an object that is still tracked. -/
def untrackContainer (w : World ρ) (o : ObjectId) : Except Fault (World ρ) := do
  let references ← ForeignHeap.references w.foreign o
  if references.any w.collector.sets.contains then return w
  else
    let w := w.withSets (w.collector.sets.erase o)
    let w := w.count fun s => { s with untrackedContainers := s.untrackedContainers + 1 }
    return { w with foreign := ForeignHeap.noteUntracked w.foreign o }

/-- Stops to track each new container in turn that holds no tracked object. A container with a
bridge stays, since border marking sees only tracked objects. -/
def untrackContainers (w : World ρ) : Except Fault (World ρ) := do
  let candidates ← ForeignHeap.select
    (fun o => do
      if ← ForeignHeap.mayUntrack w.foreign o then
        return (← ForeignHeap.bridge w.foreign o).isNone
      else return false)
    (w.collector.sets.members .new)
  candidates.foldlM untrackContainer w

def prepareSets (w : World ρ) : Except Fault (World ρ) :=
  if w.collector.options.untrackAtomicContainers then w.untrackContainers else .ok w

/-- Starts a pass: prepares the tracked sets, takes a snapshot and collects its roots. -/
def startPass (w : World ρ) : Except Fault (World ρ) :=
  if w.collector.snapshot?.isSome then .error .snapshotAllocatedTwice
  else do
    let w ← w.prepareSets
    let sets := w.collector.sets.merged .new .inCollection
    let taken ← Snapshot.take sets w.foreign w.host
    let snapshot ← taken.collectRoots
    return { w with
      collector := { w.collector with
        sets
        snapshot? := some snapshot
        invalidated := false
        phase := .marking
        stats := { w.collector.stats with
          snapshotsTaken := w.collector.stats.snapshotsTaken + 1
          lastSnapshotObjects := snapshot.size
          lastSnapshotEdges := snapshot.edgeCount } } }

omit [ForeignHeap ρ] in
/-- Marks on, for as many scans as the options allow. -/
def markStep (w : World ρ) : Except Fault (World ρ) :=
  match w.collector.snapshot? with
  | none => .error .markingWithoutSnapshot
  | some snapshot => do
    let options := w.collector.options
    let (progress, m) ← Marking.run options.eagerHostTrace options.scansPerStep
      { snapshot, host := w.host }
    return { w with
      host := m.host
      collector := { w.collector with
        snapshot? := some m.snapshot
        phase := if progress = .fixedPoint ∧ m.host.isDrained then .marked else .marking
        stats := { w.collector.stats with
          scans := w.collector.stats.scans + m.scans
          promotions := w.collector.stats.promotions + m.promotions } } }

end CycleCollector.World
