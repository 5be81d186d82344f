import CycleCollector.Refcount
import CycleCollector.ForeignHeap.Basic
/-!
# The arena

A small refcounted heap: objects with a raw count, stored references and perhaps a host
counterpart. It frees nothing on its own. An object goes away only when the collector releases it,
and even then its place in the arena remains.

Counts are kept by the operations that say so. `addUncounted`, `forgetRef` and `setRefcount` break
the books on purpose, as a faulty extension module would.

## Main definitions

* `Arena`: the heap and its logs of what the collector told it.
* `addRef`, `removeRef`, `retarget`, `link`, …: the program's side.
* `Arena.release`: the collector's side.
-/

namespace CycleCollector

structure Cell where
  /-- Raw count, with the host bias once the object is linked. -/
  refcount : Nat := 0
  /-- Stored references, in order. -/
  references : List ObjectId := []
  bridge : Option HostRef := none
  finalizer : Finalizer := .none
  /-- An immutable container. -/
  atomic : Bool := false
  released : Bool := false
deriving DecidableEq, Repr, Inhabited

structure Arena where
  cells : Array Cell := #[]
  /-- Released objects, in the order of their release. -/
  released : List ObjectId := []
  /-- Objects reported as garbage that cannot be collected. -/
  legacyGarbage : List ObjectId := []
  /-- Objects whose finalizers should have run. -/
  scheduled : List ObjectId := []
  /-- Containers that are no longer tracked. -/
  untracked : List ObjectId := []
deriving DecidableEq, Repr, Inhabited

namespace Arena

def cell (a : Arena) (o : ObjectId) : Except Fault Cell :=
  match a.cells[o.index]? with
  | some c => .ok c
  | none => .error (.outOfBounds a.cells.size o.index)

def setCell (a : Arena) (o : ObjectId) (c : Cell) : Arena :=
  { a with cells := a.cells.setIfInBounds o.index c }

def modify (a : Arena) (o : ObjectId) (f : Cell → Cell) : Except Fault Arena := do
  return a.setCell o (f (← a.cell o))

/-! ## Reading -/

/-- How many objects were ever allocated. -/
def size (a : Arena) : Nat := a.cells.size

def refcount (a : Arena) (o : ObjectId) : Except Fault Nat := Cell.refcount <$> a.cell o

def references (a : Arena) (o : ObjectId) : Except Fault (List ObjectId) :=
  Cell.references <$> a.cell o

def bridge (a : Arena) (o : ObjectId) : Except Fault (Option HostRef) := Cell.bridge <$> a.cell o

def finalizer (a : Arena) (o : ObjectId) : Except Fault Finalizer := Cell.finalizer <$> a.cell o

def isAtomic (a : Arena) (o : ObjectId) : Except Fault Bool := Cell.atomic <$> a.cell o

def isReleased (a : Arena) (o : ObjectId) : Except Fault Bool := Cell.released <$> a.cell o

def objects (a : Arena) : List ObjectId := ObjectId.range 0 a.size

def liveObjects (a : Arena) : List ObjectId :=
  a.objects.filter fun o => a.cells[o.index]?.any fun c => !c.released

/-! ## Counting -/

def raise (a : Arena) (o : ObjectId) (n : Nat) : Except Fault Arena := do
  let c ← a.cell o
  if c.refcount + n < Refcount.limit then
    return a.setCell o { c with refcount := c.refcount + n }
  else
    throw .countOverflow

def incref (a : Arena) (o : ObjectId) : Except Fault Arena := a.raise o 1

/-- Counts one reference less; a count of zero stays as it is. -/
def decref (a : Arena) (o : ObjectId) : Except Fault Arena :=
  a.modify o fun c => { c with refcount := c.refcount - 1 }

def decrefAll (a : Arena) (os : List ObjectId) : Except Fault Arena := os.foldlM decref a

def setRefcount (a : Arena) (o : ObjectId) (n : Nat) : Except Fault Arena :=
  a.modify o fun c => { c with refcount := n }

/-! ## The program's side -/

/-- Adds `count` objects to which nothing refers, and names them. -/
def alloc (a : Arena) (count : Nat) : List ObjectId × Arena :=
  (ObjectId.range a.size count, { a with cells := a.cells ++ Array.replicate count {} })

def addUncounted (a : Arena) (source target : ObjectId) : Except Fault Arena :=
  a.modify source fun c => { c with references := c.references ++ [target] }

def addRef (a : Arena) (source target : ObjectId) : Except Fault Arena := do
  let a ← a.addUncounted source target
  a.incref target

/-- Adds `count` objects, each of which refers to the next and the last one to the first. -/
def allocRing (a : Arena) (count : Nat) : Except Fault (List ObjectId × Arena) := do
  let (ring, a) := a.alloc count
  return (ring, ← (ring.zip (ring.rotateLeft 1)).foldlM (fun a (o, next) => a.addRef o next) a)

/-- Drops the first reference to `target` that `source` stores without uncounting it. Says whether
there was one. -/
def forgetRef (a : Arena) (source target : ObjectId) : Except Fault (Bool × Arena) := do
  let c ← a.cell source
  if target ∈ c.references then
    return (true, a.setCell source { c with references := c.references.erase target })
  else
    return (false, a)

/-- Drops the first reference to `target` that `source` stores and uncounts it. Says whether there
was one. -/
def removeRef (a : Arena) (source target : ObjectId) : Except Fault (Bool × Arena) := do
  let (found, a) ← a.forgetRef source target
  if found then return (true, ← a.decref target) else return (false, a)

/-- Points reference number `slot` of an object elsewhere. The new target is counted before the old
one is uncounted. -/
def retarget (a : Arena) (o : ObjectId) (slot : Nat) (target : ObjectId) : Except Fault Arena := do
  let c ← a.cell o
  match c.references[slot]? with
  | none => throw (.outOfBounds c.references.length slot)
  | some old =>
    let a := a.setCell o { c with references := c.references.set slot target }
    let a ← a.incref target
    a.decref old

/-- Links an object to a host counterpart, which then holds on to it. -/
def link (a : Arena) (o : ObjectId) (h : HostRef) : Except Fault Arena := do
  let a ← a.modify o fun c => { c with bridge := some h }
  a.raise o Refcount.hostBias

def setFinalizer (a : Arena) (o : ObjectId) (kind : Finalizer) : Except Fault Arena :=
  a.modify o fun c => { c with finalizer := kind }

def setAtomic (a : Arena) (o : ObjectId) : Except Fault Arena :=
  a.modify o fun c => { c with atomic := true }

/-! ## The collector's side -/

/-- Takes back a dead object: its references are dropped and uncounted in order. -/
def release (a : Arena) (o : ObjectId) : Except Fault Arena := do
  let c ← a.cell o
  if c.released then throw (.releasedTwice o)
  else
    let a := a.setCell o { c with released := true, bridge := none, references := [] }
    let a ← a.decrefAll c.references
    return { a with released := a.released ++ [o] }

instance : ForeignHeap Arena where
  refcount := refcount
  bridge := bridge
  references := references
  release := release
  finalizer := finalizer
  mayUntrack := isAtomic
  noteUntracked a o := { a with untracked := a.untracked ++ [o] }
  noteLegacyGarbage a o := { a with legacyGarbage := a.legacyGarbage ++ [o] }
  scheduleFinalizers a os := { a with scheduled := a.scheduled ++ os }

end Arena

end CycleCollector
