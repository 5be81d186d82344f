import Std.Data.HashMap
import CycleCollector.Snapshot.Roots
import CycleCollector.TrackedSets.Linked
/-!
# Snapshots in flat tables

How a snapshot is kept: one table of records, one table with the targets of all edges, and an
*index* of the positions of the objects. A record does not hold its edges; it says where in the edge
table they begin and how many there are. All objects are numbered before the first edge is entered,
as an edge may lead to a record that comes later. Positions are words of 32 bits. Nothing in these
types says that ranges, positions and index agree with each other, so a look-up may leave its table.

## Main definitions

* `FlatSnapshot`: the three tables.
* `FlatSnapshot.number`, `FlatSnapshot.enter`, `FlatSnapshot.take`: the index, the entry of one
  object, and the snapshot of the objects in collection.
* `FlatSnapshot.indexOf`, `recordOf`, `edges`, `targetsOf`, `incomingCounts`: look-ups.
* `FlatSnapshot.collectRoots`: takes every edge off its target, in place.
-/

namespace CycleCollector

structure FlatSnapshot.Record where
  object : ObjectId
  /-- Raw count, with bias. -/
  refcount : Nat
  /-- References that no edge explains, as far as the pass knows. -/
  external : Nat
  bridge : Option HostRef
  /-- The host counterpart was already known to be alive. -/
  bridgeRooted : Bool
  /-- Found alive, and has passed that on. -/
  processed : Bool := false
  /-- Where its edges begin in the edge table. -/
  first : Nat
  count : Nat
deriving DecidableEq, Repr

def FlatSnapshot.Record.intrinsic (r : FlatSnapshot.Record) : Nat :=
  Refcount.stripBias r.refcount + r.bridgeRooted.toNat

structure FlatSnapshot where
  records : Array FlatSnapshot.Record := #[]
  /-- The position of the target of each edge. -/
  refs : Array UInt32 := #[]
  index : Std.HashMap ObjectId UInt32 := {}

namespace FlatSnapshot

def size (s : FlatSnapshot) : Nat := s.records.size

def edgeCount (s : FlatSnapshot) : Nat := s.refs.size

def edgeTable (s : FlatSnapshot) : List Nat := s.refs.toList.map UInt32.toNat

/-! ## Taking -/

def number (os : List ObjectId) : Std.HashMap ObjectId UInt32 :=
  os.zipIdx.foldl (fun index (o, i) => index.insert o (UInt32.ofNat i)) {}

/-- The edge table with the references behind it that lead to numbered objects. -/
def enterRefs (index : Std.HashMap ObjectId UInt32) (refs : Array UInt32)
    (targets : List ObjectId) : Array UInt32 :=
  targets.foldl (fun refs target =>
    match index[target]? with
    | some j => refs.push j
    | none => refs) refs

section Take

variable {ρ : Type} [ForeignHeap ρ]

def enter (foreign : ρ) (host : HostHeap) (s : FlatSnapshot) (o : ObjectId) :
    Except Fault FlatSnapshot := do
  let refcount ← ForeignHeap.refcount foreign o
  let bridge ← ForeignHeap.bridge foreign o
  let bridgeRooted ← host.reaches bridge
  let targets ← ForeignHeap.references foreign o
  let refs := enterRefs s.index s.refs targets
  let record := {
    object := o
    refcount
    external := Refcount.stripBias refcount + bridgeRooted.toNat
    bridge
    bridgeRooted
    first := s.refs.size
    count := refs.size - s.refs.size }
  return { s with records := s.records.push record, refs }

def take (sets : TrackedSets) (foreign : ρ) (host : HostHeap) : Except Fault FlatSnapshot :=
  let candidates := sets.members .inCollection
  candidates.foldlM (enter foreign host) { index := number candidates }

end Take

/-! ## Look-ups -/

def indexOf (s : FlatSnapshot) (o : ObjectId) : Option Nat := s.index[o]?.map UInt32.toNat

/-- The record of an object, if it is part of the snapshot. Without a result if the position of the
object lies outside the table of records. -/
def recordOf (s : FlatSnapshot) (o : ObjectId) : Option (Option Record) :=
  match s.indexOf o with
  | some i => s.records[i]?.map some
  | none => some none

/-- The targets of the edges that leave a record, in order. Without a result if there is no such
record, or if its edges do not lie in the edge table. -/
def edges (s : FlatSnapshot) (i : Nat) : Option (List Nat) := do
  let r ← s.records[i]?
  if r.first + r.count ≤ s.refs.size then
    some ((s.refs.extract r.first (r.first + r.count)).toList.map UInt32.toNat)
  else
    none

/-- The targets of the edges that leave an object, in order. Without a result if one of the tables
is left. -/
def targetsOf (s : FlatSnapshot) (o : ObjectId) : Option (List ObjectId) :=
  match s.indexOf o with
  | some i => do (← s.edges i).mapM fun j => s.records[j]?.map Record.object
  | none => some []

def countEdge (counts : Array Nat) (j : Nat) : Option (Array Nat) :=
  if j < counts.size then some (counts.modify j (· + 1)) else none

/-- How many edges lead to each record. Without a result if an edge leads elsewhere. -/
def incomingCounts (s : FlatSnapshot) : Option (Array Nat) :=
  s.edgeTable.foldlM countEdge (Array.replicate s.size 0)

/-- The first record whose references are not its external count and its incoming edges. Without a
result if an edge leads to no record. -/
def unbalanced? (s : FlatSnapshot) : Option (Option ObjectId) := do
  let counts ← s.incomingCounts
  return ((s.records.toList.zip counts.toList).find? fun (r, incoming) =>
    r.intrinsic ≠ r.external + incoming).map fun (r, _) => r.object

/-! ## Collecting roots -/

def discount (records : Array Record) (j : Nat) : Except Fault (Array Record) :=
  match records[j]? with
  | none => .error (.outOfBounds records.size j)
  | some r =>
    if r.external = 0 then .error (.negativeExternal r.object)
    else .ok (records.setIfInBounds j { r with external := r.external - 1 })

def collectRoots (s : FlatSnapshot) : Except Fault FlatSnapshot := do
  return { s with records := ← s.edgeTable.foldlM discount s.records }

end FlatSnapshot

end CycleCollector
