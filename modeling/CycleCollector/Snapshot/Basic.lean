import CycleCollector.Refcount
import CycleCollector.TrackedSets.Basic
import CycleCollector.HostHeap.Basic
import CycleCollector.ForeignHeap.Basic
/-!
# Snapshots

A pass looks at the foreign heap once and works on what it saw. A *snapshot* has one record for
each object in collection, in their order. A reference from one of them to another is an *edge*; it
is recorded by the position of its target, so the records alone hold the whole graph. References to
any other object can belong to no cycle of candidates and are left out.

The *external* count of a record starts as its count without bias, and one more if the host heap
already reaches its bridge.

## Main definitions

* `Snapshot.Record`, `Snapshot`: the graph.
* `Snapshot.take`: the snapshot of the objects in collection.
* `Snapshot.indexOf`, `recordOf`, `targetsOf`: look-ups by object.
* `Snapshot.edgeTable`, `incomingCounts`: the edges as one list, and counted by target.
-/

namespace CycleCollector

/-- An object as it was when the pass started. -/
structure Snapshot.Record where
  object : ObjectId
  /-- Raw count, with bias. -/
  refcount : Nat
  /-- References that no edge explains, as far as the pass knows. -/
  external : Nat
  bridge : Option HostRef
  /-- The host counterpart was already known to be alive. -/
  bridgeRooted : Bool
  /-- Found alive, and has passed that on. -/
  processed : Bool := false
  /-- Positions of the targets of the outgoing edges, in order. -/
  edges : List Nat
deriving DecidableEq, Repr, Inhabited

namespace Snapshot.Record

/-- Nothing outside holds the record, as far as the pass knows. -/
def isDead (r : Record) : Bool := r.external = 0

/-- All references that the record has to account for: those counted by the foreign side, and one
for a bridge that was reached. -/
def intrinsic (r : Record) : Nat := Refcount.stripBias r.refcount + r.bridgeRooted.toNat

end Snapshot.Record

structure Snapshot where
  records : Array Snapshot.Record := #[]
deriving DecidableEq, Repr, Inhabited

namespace Snapshot

def size (s : Snapshot) : Nat := s.records.size

/-! ## Taking -/

section Take

variable {ρ : Type} [ForeignHeap ρ]

/-- The record of one object, where `candidates` are the objects in collection. -/
def describe (candidates : List ObjectId) (foreign : ρ) (host : HostHeap) (o : ObjectId) :
    Except Fault Record := do
  let refcount ← ForeignHeap.refcount foreign o
  let bridge ← ForeignHeap.bridge foreign o
  let bridgeRooted ← host.reaches bridge
  let references ← ForeignHeap.references foreign o
  return {
    object := o
    refcount
    external := Refcount.stripBias refcount + bridgeRooted.toNat
    bridge
    bridgeRooted
    edges := references.filterMap fun target => candidates.idxOf? target }

def describeAll (candidates : List ObjectId) (foreign : ρ) (host : HostHeap) :
    List ObjectId → Except Fault (List Record)
  | [] => .ok []
  | o :: os => do
    let r ← describe candidates foreign host o
    let rs ← describeAll candidates foreign host os
    return r :: rs

def take (sets : TrackedSets) (foreign : ρ) (host : HostHeap) : Except Fault Snapshot := do
  let candidates := sets.members .inCollection
  let records ← describeAll candidates foreign host candidates
  return ⟨records.toArray⟩

theorem length_describeAll {candidates : List ObjectId} {foreign : ρ} {host : HostHeap}
    {os : List ObjectId} {rs : List Record}
    (h : describeAll candidates foreign host os = .ok rs) : rs.length = os.length := by
  induction os generalizing rs with
  | nil =>
    obtain rfl : [] = rs := by simpa [describeAll] using h
    rfl
  | cons o os ih =>
    simp only [describeAll, bind_eq_ok, pure_eq_ok] at h
    obtain ⟨_, -, rest, hrest, rfl⟩ := h
    simp [ih hrest]

/-- A snapshot has as many records as there are objects in collection. -/
theorem size_take {sets : TrackedSets} {foreign : ρ} {host : HostHeap} {s : Snapshot}
    (h : take sets foreign host = .ok s) : s.size = sets.size .inCollection := by
  simp only [take, bind_eq_ok, pure_eq_ok] at h
  obtain ⟨rs, hrs, rfl⟩ := h
  simp [size, length_describeAll hrs, TrackedSets.length_members]

end Take

/-! ## Look-ups -/

def indexOf (s : Snapshot) (o : ObjectId) : Option Nat := s.records.findIdx? (·.object = o)

def recordOf (s : Snapshot) (o : ObjectId) : Option Record := s.records.find? (·.object = o)

def contains (s : Snapshot) (o : ObjectId) : Bool := (s.recordOf o).isSome

def objectsAt (s : Snapshot) (positions : List Nat) : List ObjectId :=
  positions.filterMap fun j => s.records[j]?.map Record.object

def targetsOf (s : Snapshot) (o : ObjectId) : List ObjectId :=
  match s.recordOf o with
  | some r => s.objectsAt r.edges
  | none => []

/-! ## Edges -/

/-- The targets of all edges: those of the first record, then those of the second, and so on. -/
def edgeTable (s : Snapshot) : List Nat := s.records.toList.flatMap Record.edges

def edgeCount (s : Snapshot) : Nat := s.edgeTable.length

def incomingCounts (s : Snapshot) : List Nat :=
  (List.range s.size).map fun j => s.edgeTable.count j

end Snapshot

end CycleCollector
