import CycleCollector.Fault
/-!
# The host heap

A tracing heap, as far as the collector has to do with it: objects with two flags and outgoing
edges, roots, and a worklist of objects still to be traced. Only the marking half of a collection
is here; nothing is ever freed on this side.

## Main definitions

* `HostHeap`: the heap.
* `HostHeap.beginCollection`, `writeBarrier`, `promote`: what feeds the worklist.
* `HostHeap.isReachable`: whether an object is known to be alive.
-/

namespace CycleCollector

structure HostFlags where
  /-- Marked in the current collection. -/
  visited : Bool := false
  /-- Prebuilt object without heap pointers, alive for ever. -/
  noHeapPtrs : Bool := false
deriving DecidableEq, Repr, Inhabited

namespace HostFlags

def reachable (f : HostFlags) : Bool := f.visited || f.noHeapPtrs

def bits (f : HostFlags) : Nat := (if f.visited then 1 else 0) + (if f.noHeapPtrs then 2 else 0)

end HostFlags

structure HostObject where
  flags : HostFlags := {}
  edges : List HostRef := []
deriving DecidableEq, Repr, Inhabited

def HostObject.marked (x : HostObject) : HostObject :=
  { x with flags := { x.flags with visited := true } }

def HostObject.unmarked (x : HostObject) : HostObject :=
  { x with flags := { x.flags with visited := false } }

structure HostHeap where
  objects : Array HostObject := #[]
  /-- Where each collection starts. -/
  roots : List HostRef := []
  /-- Objects to be traced, the next one first. -/
  worklist : List HostRef := []
  /-- What the collector handed over since the collection started, in order. -/
  promoted : List HostRef := []
deriving DecidableEq, Repr, Inhabited

namespace HostHeap

def object (g : HostHeap) (h : HostRef) : Except Fault HostObject :=
  match g.objects[h.index]? with
  | some x => .ok x
  | none => .error (.outOfBounds g.objects.size h.index)

def modify (g : HostHeap) (h : HostRef) (f : HostObject → HostObject) :
    Except Fault HostHeap := do
  let x ← g.object h
  return { g with objects := g.objects.setIfInBounds h.index (f x) }

def isVisited (g : HostHeap) (h : HostRef) : Except Fault Bool := do
  return (← g.object h).flags.visited

def isReachable (g : HostHeap) (h : HostRef) : Except Fault Bool := do
  return (← g.object h).flags.reachable

def reaches (g : HostHeap) : Option HostRef → Except Fault Bool
  | none => .ok false
  | some h => g.isReachable h

def isDrained (g : HostHeap) : Bool := g.worklist.isEmpty

/-! ## The program's side -/

def fresh (g : HostHeap) : HostRef := ⟨g.objects.size⟩

def alloc (g : HostHeap) (count : Nat) : List HostRef × HostHeap :=
  (HostRef.range g.objects.size count,
    { g with objects := g.objects ++ Array.replicate count {} })

/-- Makes an object a root. The handle is looked up only when a collection gets there. -/
def addRoot (g : HostHeap) (h : HostRef) : HostHeap := { g with roots := g.roots ++ [h] }

/-- Adds an edge. Its target is looked up only when a collection gets there. -/
def addEdge (g : HostHeap) (source target : HostRef) : Except Fault HostHeap :=
  g.modify source fun x => { x with edges := x.edges ++ [target] }

def setNoHeapPtrs (g : HostHeap) (h : HostRef) : Except Fault HostHeap :=
  g.modify h fun x => { x with flags := { x.flags with noHeapPtrs := true } }

/-- Starts a collection: no object is marked, and the roots wait to be traced, the last one
first. -/
def beginCollection (g : HostHeap) : HostHeap :=
  { g with
    objects := g.objects.map HostObject.unmarked
    worklist := g.roots.reverse
    promoted := [] }

/-- Tells the heap that the program stored `h` into an object that may be marked already. -/
def writeBarrier (g : HostHeap) (h : HostRef) : HostHeap := { g with worklist := h :: g.worklist }

/-! ## The collector's side -/

def promote (g : HostHeap) (h : HostRef) : HostHeap :=
  { g with worklist := h :: g.worklist, promoted := g.promoted ++ [h] }

def promoteAll (g : HostHeap) (hs : List HostRef) : HostHeap := hs.foldl promote g

end HostHeap

end CycleCollector
