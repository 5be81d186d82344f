import CycleCollector.Snapshot.Basic
import CycleCollector.HostHeap.Trace
/-!
# Marking

A record is alive if something outside the snapshot holds it, or if its bridge leads to a host
object that is known to be alive. An alive record raises the external count of the targets of its
edges, so that they are alive too, and hands its bridge to the host heap, whose trace may reach
further bridges. A *scan* visits all records in order; scans go on until one finds nothing new, or
until a bound on their number is met.

## Main definitions

* `Marking`: a snapshot being marked, together with the host heap.
* `Marking.visit`, `scan`, `run`: one record, all records once, and scans up to a bound.
* `Snapshot.unprocessed`: the records not found alive, which every finding makes one fewer.
-/

namespace CycleCollector

/-- The external count with which a record is alive: its own if that is positive, one if only its
bridge keeps it alive, zero if nothing does. -/
def Snapshot.Record.support (r : Snapshot.Record) (host : HostHeap) : Except Fault Nat :=
  if 0 < r.external then .ok r.external
  else return (← host.reaches r.bridge).toNat

namespace Snapshot

def raise (s : Snapshot) (positions : List Nat) : Snapshot where
  records := positions.foldl
    (fun rs j => rs.modify j fun r => { r with external := r.external + 1 }) s.records

/-- Records that position `i` is alive with the given external count, and passes that on along its
edges. -/
def settle (s : Snapshot) (i : Nat) (r : Record) (external : Nat) : Snapshot :=
  raise ⟨s.records.setIfInBounds i { r with external, processed := true }⟩ r.edges

def unprocessed (s : Snapshot) : Nat := s.records.toList.countP fun r => !r.processed

end Snapshot

/-- Hands a bridge to the host heap, which traces it at once if it is eager. -/
def HostHeap.receive (g : HostHeap) (eager : Bool) : Option HostRef → Except Fault HostHeap
  | none => .ok g
  | some h => if eager then (g.promote h).drain else .ok (g.promote h)

structure Marking where
  snapshot : Snapshot
  host : HostHeap
  scans : Nat := 0
  /-- Bridges handed to the host heap so far. -/
  promotions : Nat := 0
  /-- Records found alive by the last scan. -/
  found : Nat := 0
deriving DecidableEq, Repr

namespace Marking

inductive Progress where
  /-- The last scan found nothing new. -/
  | fixedPoint
  /-- The bound was met while scans still found something. -/
  | pending
deriving DecidableEq, Repr

def visit (eager : Bool) (m : Marking) (i : Nat) : Except Fault Marking :=
  match m.snapshot.records[i]? with
  | none => .ok m
  | some r =>
    if r.processed then .ok m
    else do
      let external ← r.support m.host
      if external = 0 then return m
      else
        let host ← m.host.receive eager r.bridge
        return { m with
          snapshot := m.snapshot.settle i r external
          host
          promotions := m.promotions + r.bridge.isSome.toNat
          found := m.found + 1 }

def scan (eager : Bool) (m : Marking) : Except Fault Marking :=
  (List.range m.snapshot.size).foldlM (visit eager) { m with scans := m.scans + 1, found := 0 }

/-- Scans until nothing new is found, `bound` times at most. -/
def scanUpTo (eager : Bool) : Nat → Marking → Except Fault (Progress × Marking)
  | 0, m => .ok (.pending, m)
  | bound + 1, m => do
    let m ← m.scan eager
    if m.found = 0 then return (.fixedPoint, m) else scanUpTo eager bound m

/-- How often a run may scan. Without a limit this is one scan more than there are records, and as
each scan but the last one finds a record, it is never met. -/
def scanBound (s : Snapshot) : Option Nat → Nat
  | some limit => max limit 1
  | none => s.size + 1

/-- Scans until nothing new is found or the limit is met. A limit of zero counts as one. -/
def run (eager : Bool) (limit : Option Nat) (m : Marking) : Except Fault (Progress × Marking) :=
  m.scanUpTo eager (scanBound m.snapshot limit)

end Marking

end CycleCollector
