import CycleCollector.TrackedSets.Linked
/-!
# Requests to the tracked sets

What can be asked of the tracked sets, as data, so that a statement about all runs is a statement
about all lists of requests; and three structures that answer: the entries, the linked lists, and
four plain lists with a map of counts. The plain lists say what the answers should be. A request
that makes no sense is a fault for the other two; the plain lists are not asked such a thing.

## Main definitions

* `SetRequest`, `SetReply`, `SetViews`: what is asked, answered and seen.
* `RoleLists`: four lists and a map of counts.
* `RoleLists.run`, `TrackedSets.run`, `LinkedSets.run`: requests in order.
-/

namespace CycleCollector

inductive SetRequest where
  | insert (o : ObjectId) (r : Role)
  | remove (o : ObjectId)
  | moveTo (o : ObjectId) (r : Role)
  | merge (source target : Role)
  | setGcRefs (o : ObjectId) (n : Nat)
deriving DecidableEq, Repr

inductive SetReply where
  | done
  /-- Whether the object was not tracked before. -/
  | inserted (isNew : Bool)
  /-- The role that the object had, if it was tracked. -/
  | removed (role : Option Role)
deriving DecidableEq, Repr

@[ext]
structure SetViews where
  /-- The objects of a role as iteration gives them, if it ends. -/
  members : Role → Option (List ObjectId)
  first : Role → Option ObjectId
  nextOf : ObjectId → Option ObjectId
  size : Role → Nat
  isEmpty : Role → Bool
  roleOf : ObjectId → Option Role
  gcRefs : ObjectId → Option Nat
  total : Nat

/-! ## Four plain lists -/

structure Apart (lists : Role → List ObjectId) : Prop where
  nodup : ∀ r, (lists r).Nodup
  disjoint : ∀ {r r' o}, o ∈ lists r → o ∈ lists r' → r = r'

/-- The objects of each role in order, and the cyclic count of each tracked object. -/
structure RoleLists where
  members : Role → List ObjectId := fun _ => []
  gcRefs : ObjectId → Option Nat := fun _ => none

namespace RoleLists

def roleOf (l : RoleLists) (o : ObjectId) : Option Role :=
  [.new, .inCollection, .isolated, .staged].find? fun r => o ∈ l.members r

/-- Whether a request makes sense: an object to be moved or counted is tracked, and a list is
merged into another one. -/
def Admits (l : RoleLists) : SetRequest → Prop
  | .insert _ _ | .remove _ => True
  | .moveTo o _ | .setGcRefs o _ => (l.roleOf o).isSome
  | .merge source target => source ≠ target

def answer (l : RoleLists) : SetRequest → SetReply × RoleLists
  | .insert o r =>
    if (l.roleOf o).isSome then (.inserted false, l)
    else (.inserted true,
      { members := fun r' => l.members r' ++ if r = r' then [o] else []
        gcRefs := fun p => if p = o then some 1 else l.gcRefs p })
  | .remove o =>
    (.removed (l.roleOf o),
      { members := fun r => (l.members r).filter (· ≠ o)
        gcRefs := fun p => if p = o then none else l.gcRefs p })
  | .moveTo o r =>
    (.done, { l with
      members := fun r' => (l.members r').filter (· ≠ o) ++ if r = r' then [o] else [] })
  | .merge source target =>
    (.done, { l with
      members := fun r =>
        if r = target then l.members target ++ l.members source
        else if r = source then [] else l.members r })
  | .setGcRefs o n =>
    (.done, { l with gcRefs := fun p => if p = o then some n else l.gcRefs p })

def run : RoleLists → List SetRequest → List SetReply × RoleLists
  | l, [] => ([], l)
  | l, request :: requests =>
    let (reply, l) := l.answer request
    let (replies, l) := l.run requests
    (reply :: replies, l)

def AdmitsAll : RoleLists → List SetRequest → Prop
  | _, [] => True
  | l, request :: requests => l.Admits request ∧ (l.answer request).2.AdmitsAll requests

/-- Head, successor, length, emptiness, owner, count and sum of the lengths, as read off the
lists. -/
def views (l : RoleLists) : SetViews where
  members r := some (l.members r)
  first r := (l.members r).head?
  nextOf o := (l.roleOf o).bind fun r => ((l.members r).dropWhile (· ≠ o))[1]?
  size r := (l.members r).length
  isEmpty r := (l.members r).isEmpty
  roleOf := l.roleOf
  gcRefs := l.gcRefs
  total := (l.members .new).length + (l.members .inCollection).length +
    (l.members .isolated).length + (l.members .staged).length

instance (l : RoleLists) : (request : SetRequest) → Decidable (l.Admits request)
  | .insert _ _ | .remove _ => .isTrue trivial
  | .moveTo o _ | .setGcRefs o _ => inferInstanceAs (Decidable ((l.roleOf o).isSome = true))
  | .merge source target => inferInstanceAs (Decidable (source ≠ target))

instance decidableAdmitsAll (requests : List SetRequest) :
    (l : RoleLists) → Decidable (l.AdmitsAll requests) :=
  match requests with
  | [] => fun _ => .isTrue trivial
  | request :: requests => fun l =>
    let _ := decidableAdmitsAll requests (l.answer request).2
    inferInstanceAs (Decidable (l.Admits request ∧ _))

/-- No list repeats an object, no two lists share one, and just the objects in the lists have a
count. -/
structure Valid (l : RoleLists) : Prop where
  apart : Apart l.members
  counted : ∀ o, (l.gcRefs o).isSome ↔ ∃ r, o ∈ l.members r

end RoleLists

/-! ## Entries -/

namespace TrackedSets

def answer (s : TrackedSets) : SetRequest → Except Fault (SetReply × TrackedSets)
  | .insert o r =>
    match s.insert? o r with
    | some s => .ok (.inserted true, s)
    | none => .ok (.inserted false, s)
  | .remove o => .ok (.removed (s.roleOf o), s.erase o)
  | .moveTo o r => (.done, ·) <$> s.moveTo o r
  | .merge source target => (.done, ·) <$> s.merge source target
  | .setGcRefs o n => (.done, ·) <$> s.setGcRefs o n

def run : TrackedSets → List SetRequest → Except Fault (List SetReply × TrackedSets)
  | s, [] => .ok ([], s)
  | s, request :: requests => do
    let (reply, s) ← s.answer request
    let (replies, s) ← s.run requests
    return (reply :: replies, s)

def views (s : TrackedSets) : SetViews where
  members r := some (s.members r)
  first := s.first
  nextOf := s.nextOf
  size := s.size
  isEmpty := s.isEmpty
  roleOf := s.roleOf
  gcRefs := s.gcRefs
  total := s.total

end TrackedSets

/-! ## Linked lists -/

namespace LinkedSets

def answer (t : LinkedSets) : SetRequest → Option (Except Fault (SetReply × LinkedSets))
  | .insert o r =>
    some (do
      let (isNew, t) ← t.insert o r
      return (.inserted isNew, t))
  | .remove o =>
    some (do
      let (role, t) ← t.remove o
      return (.removed role, t))
  | .moveTo o r => some ((.done, ·) <$> t.moveTo o r)
  | .merge source target => (t.merge source target).map fun merged => (.done, ·) <$> merged
  | .setGcRefs o n => some ((.done, ·) <$> t.setGcRefs o n)

/-- Requests in order, up to the first fault. Without a result if one of them does not end. -/
def run : LinkedSets → List SetRequest → Option (Except Fault (List SetReply × LinkedSets))
  | t, [] => some (.ok ([], t))
  | t, request :: requests => do
    match ← t.answer request with
    | .error fault => return .error fault
    | .ok (reply, t) =>
      return (← t.run requests).map fun (replies, t) => (reply :: replies, t)

def views (t : LinkedSets) : SetViews where
  members := t.members
  first := t.first
  nextOf := t.nextOf
  size := t.size
  isEmpty := t.isEmpty
  roleOf := t.roleOf
  gcRefs := t.gcRefs
  total := t.total

end LinkedSets

end CycleCollector
