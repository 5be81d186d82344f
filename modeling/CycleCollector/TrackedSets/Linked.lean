import Std.Data.HashMap
import CycleCollector.TrackedSets.Basic
/-!
# Tracked sets as linked lists

How the tracked sets are kept: one table with a *link* for each tracked object, and for each role
the two *ends* of its list and its length. A link names the neighbours of its object, so an object
changes its role without a search. Nothing in these types says that the neighbours agree with each
other; that is what the operations have to keep up, and a walk along a list ends only if they do.

## Main definitions

* `LinkedSets`: the table and the ends.
* `LinkedSets.unlink`, `pushBack`, `relabel`: taking an object out of its list, appending it to a
  list, and walking along a list.
* `insert`, `remove`, `moveTo`, `merge`, `setGcRefs`: the requests.
* `LinkedSets.members`: a walk from the head of a list.
-/

namespace CycleCollector

instance : Hashable ObjectId := ⟨fun o => hash o.index⟩

def Role.slot : Role → Fin 4
  | .new => 0
  | .inCollection => 1
  | .isolated => 2
  | .staged => 3

structure Link where
  role : Role
  prev : Option ObjectId := none
  next : Option ObjectId := none
  gcRefs : Nat
deriving DecidableEq, Repr

structure Ends where
  head : Option ObjectId := none
  tail : Option ObjectId := none
  size : Nat := 0
deriving DecidableEq, Repr

structure LinkedSets where
  links : Std.HashMap ObjectId Link := {}
  ends : Vector Ends 4 := .replicate 4 {}

namespace LinkedSets

/-! ## Views -/

def endsOf (t : LinkedSets) (r : Role) : Ends := t.ends[r.slot]

def contains (t : LinkedSets) (o : ObjectId) : Bool := t.links.contains o

def roleOf (t : LinkedSets) (o : ObjectId) : Option Role := t.links[o]?.map Link.role

def gcRefs (t : LinkedSets) (o : ObjectId) : Option Nat := t.links[o]?.map Link.gcRefs

def first (t : LinkedSets) (r : Role) : Option ObjectId := (t.endsOf r).head

def nextOf (t : LinkedSets) (o : ObjectId) : Option ObjectId := t.links[o]?.bind Link.next

def size (t : LinkedSets) (r : Role) : Nat := (t.endsOf r).size

def isEmpty (t : LinkedSets) (r : Role) : Bool := (t.endsOf r).head.isNone

def total (t : LinkedSets) : Nat := t.links.size

/-- The objects met on a walk from `cursor` on. Without a result if the walk does not end. -/
def follow (t : LinkedSets) (cursor : Option ObjectId) : Option (List ObjectId) :=
  match cursor with
  | none => some []
  | some o => do
    let os ← t |>.follow (t.nextOf o)
    return o :: os
partial_fixpoint

def members (t : LinkedSets) (r : Role) : Option (List ObjectId) := t.follow (t.first r)

/-! ## Changing links and ends -/

def setLink (t : LinkedSets) (o : ObjectId) (l : Link) : LinkedSets :=
  { t with links := t.links.insert o l }

def dropLink (t : LinkedSets) (o : ObjectId) : LinkedSets := { t with links := t.links.erase o }

def modifyLink (t : LinkedSets) (o : ObjectId) (f : Link → Link) : Except Fault LinkedSets :=
  match t.links[o]? with
  | some l => .ok (t.setLink o (f l))
  | none => .error (.countUntracked o)

def modifyEnds (t : LinkedSets) (r : Role) (f : Ends → Ends) : LinkedSets :=
  { t with ends := t.ends.set r.slot (f (t.endsOf r)) }

/-- Lets `next` follow `prev` in the list of a role. Without `prev`, it comes first. -/
def setNext (t : LinkedSets) (r : Role) (prev next : Option ObjectId) :
    Except Fault LinkedSets :=
  match prev with
  | some p => t.modifyLink p fun l => { l with next }
  | none => .ok (t.modifyEnds r fun e => { e with head := next })

/-- Lets `prev` precede `next` in the list of a role. Without `next`, it comes last. -/
def setPrev (t : LinkedSets) (r : Role) (next prev : Option ObjectId) :
    Except Fault LinkedSets :=
  match next with
  | some n => t.modifyLink n fun l => { l with prev }
  | none => .ok (t.modifyEnds r fun e => { e with tail := prev })

/-- Takes an object out of its list, and names its role. Its link stays, without neighbours. -/
def unlink (t : LinkedSets) (o : ObjectId) : Except Fault (Option (Role × LinkedSets)) :=
  match t.links[o]? with
  | none => .ok none
  | some l => do
    let t ← t.setNext l.role l.prev l.next
    let t ← t.setPrev l.role l.next l.prev
    let t := t.modifyEnds l.role fun e => { e with size := e.size - 1 }
    let t ← t.modifyLink o fun l => { l with prev := none, next := none }
    return some (l.role, t)

def pushBack (t : LinkedSets) (o : ObjectId) (r : Role) : Except Fault LinkedSets := do
  let tail := (t.endsOf r).tail
  let t ← t.modifyLink o fun l => { l with role := r, prev := tail, next := none }
  let t ← t.setNext r tail (some o)
  return t.modifyEnds r fun e => { e with tail := some o, size := e.size + 1 }

/-- Gives the objects met on a walk from `cursor` on another role. Without a result if the walk
does not end. -/
def relabel (t : LinkedSets) (role : Role) (cursor : Option ObjectId) :
    Option (Except Fault LinkedSets) :=
  match cursor with
  | none => some (.ok t)
  | some o =>
    match t.links[o]? with
    | none => some (.error (.countUntracked o))
    | some l => t.setLink o { l with role } |>.relabel role l.next
partial_fixpoint

/-! ## Requests -/

/-- Starts to track `o`, at the end of role `r` and with cyclic count 1. Says whether it was not
tracked before. -/
def insert (t : LinkedSets) (o : ObjectId) (r : Role) : Except Fault (Bool × LinkedSets) :=
  if t.contains o then .ok (false, t)
  else (true, ·) <$> (t.setLink o { role := r, gcRefs := 1 }).pushBack o r

def remove (t : LinkedSets) (o : ObjectId) : Except Fault (Option Role × LinkedSets) := do
  match ← t.unlink o with
  | none => return (none, t)
  | some (r, t) => return (some r, t.dropLink o)

def moveTo (t : LinkedSets) (o : ObjectId) (r : Role) : Except Fault LinkedSets := do
  match ← t.unlink o with
  | none => throw (.moveUntracked o)
  | some (_, t) => t.pushBack o r

def setGcRefs (t : LinkedSets) (o : ObjectId) (n : Nat) : Except Fault LinkedSets :=
  t.modifyLink o fun l => { l with gcRefs := n }

/-- Links the last object of role `target` with `first`. Without such an object, `first` comes
first. -/
def attach (t : LinkedSets) (target : Role) (first : ObjectId) : Except Fault LinkedSets :=
  match (t.endsOf target).tail with
  | none => t.setNext target none (some first)
  | some tail => do
    let t ← t.setNext target (some tail) (some first)
    t.setPrev target (some first) (some tail)

/-- Gives the objects of role `source` the role `target`, after those that have it, in their
order. Without a result if the walk along them does not end. -/
def merge (t : LinkedSets) (source target : Role) : Option (Except Fault LinkedSets) :=
  if source = target then some (.error .mergeIntoItself)
  else
    let ends := t.endsOf source
    match ends.head with
    | none => some (.ok t)
    | some first => do
      let relabelled ← t.relabel target (some first)
      return do
        let t ← (← relabelled).attach target first
        let t := t.modifyEnds target fun e =>
          { e with tail := ends.tail, size := e.size + ends.size }
        return t.modifyEnds source fun _ => {}

end LinkedSets

end CycleCollector
