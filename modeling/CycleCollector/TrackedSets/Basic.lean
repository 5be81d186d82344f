import CycleCollector.Fault
/-!
# Tracked sets

Every object that the collector knows plays one of four *roles*. The objects of one role form a
list; the four lists share no object. Beside its role each tracked object has a *cyclic count*, the
verdict of the last pass: positive means alive.

The sets are one list of entries. An entry that changes its role goes to the end, so the entries of
one role, read in order, are the list of that role in the order in which its members joined.

## Main definitions

* `TrackedSets`: the entries, each object at most once.
* `TrackedSets.members`, `roleOf`, `gcRefs`: the views on them.
* `insert?`, `erase`, `moved`, `withGcRefs`, `merged`, `cleared`: the operations.
* `moveTo`, `setGcRefs`, `merge`: the same, with a fault where the request makes no sense.
-/

namespace CycleCollector

/-- What a tracked object is to the collector at the moment. -/
inductive Role where
  /-- Registered since the last pass started. -/
  | new
  /-- Subject of the pass that runs or comes next. -/
  | inCollection
  /-- Found dead, waiting for finalizers. -/
  | isolated
  /-- Found dead by the pass that is being finished. -/
  | staged
deriving DecidableEq, Repr

structure TrackedSets.Entry where
  object : ObjectId
  role : Role
  /-- Cyclic count: positive means alive. -/
  gcRefs : Nat
deriving DecidableEq, Repr

@[ext]
structure TrackedSets where
  /-- All entries; those of one role stand in the order in which they joined it. -/
  entries : List TrackedSets.Entry := []
  /-- No object has two entries. -/
  nodup : (entries.map TrackedSets.Entry.object).Nodup := by exact List.nodup_nil
deriving DecidableEq, Repr

namespace TrackedSets

instance : Inhabited TrackedSets := ⟨{}⟩

/-! ## Views -/

def find? (s : TrackedSets) (o : ObjectId) : Option Entry :=
  s.entries.find? (·.object = o)

def contains (s : TrackedSets) (o : ObjectId) : Bool := (s.find? o).isSome

def roleOf (s : TrackedSets) (o : ObjectId) : Option Role := (s.find? o).map Entry.role

def gcRefs (s : TrackedSets) (o : ObjectId) : Option Nat := (s.find? o).map Entry.gcRefs

def withRole (s : TrackedSets) (r : Role) : List Entry := s.entries.filter (·.role = r)

def members (s : TrackedSets) (r : Role) : List ObjectId := (s.withRole r).map Entry.object

def first (s : TrackedSets) (r : Role) : Option ObjectId := (s.members r).head?

def nextOf (s : TrackedSets) (o : ObjectId) : Option ObjectId :=
  (s.roleOf o).bind fun r => ((s.members r).dropWhile (· ≠ o))[1]?

def size (s : TrackedSets) (r : Role) : Nat := (s.withRole r).length

def isEmpty (s : TrackedSets) (r : Role) : Bool := (s.withRole r).isEmpty

def total (s : TrackedSets) : Nat := s.entries.length

theorem size_le_total (s : TrackedSets) (r : Role) : s.size r ≤ s.total :=
  List.length_filter_le ..

theorem length_members (s : TrackedSets) (r : Role) : (s.members r).length = s.size r :=
  List.length_map ..

/-! ## Operations -/

theorem find?_eq_none {s : TrackedSets} {o : ObjectId} :
    s.find? o = none ↔ o ∉ s.entries.map Entry.object := by
  simp [find?]

/-- Starts to track `o`, at the end of role `r` and with cyclic count 1; nothing when it is
tracked already. -/
def insert? (s : TrackedSets) (o : ObjectId) (r : Role) : Option TrackedSets :=
  match h : s.find? o with
  | some _ => none
  | none => some
    { entries := s.entries ++ [⟨o, r, 1⟩]
      nodup := by
        rw [List.map_append, List.nodup_append]
        refine ⟨s.nodup, List.pairwise_singleton .., fun a ha b hb => ?_⟩
        rintro rfl
        obtain rfl := List.mem_singleton.1 hb
        exact find?_eq_none.1 h ha }

/-- Starts to track each object in turn, leaving out those that are tracked already. -/
def insertAll (s : TrackedSets) (os : List ObjectId) (r : Role) : TrackedSets :=
  os.foldl (fun s o => (s.insert? o r).getD s) s

def filter (s : TrackedSets) (p : Entry → Bool) : TrackedSets where
  entries := s.entries.filter p
  nodup := s.nodup.sublist (List.filter_sublist.map _)

def erase (s : TrackedSets) (o : ObjectId) : TrackedSets := s.filter (·.object ≠ o)

def cleared (s : TrackedSets) (r : Role) : TrackedSets := s.filter (·.role ≠ r)

/-- Gives `o` the role `r`, at its end and with its cyclic count, even if it had that role. -/
def moved (s : TrackedSets) (o : ObjectId) (r : Role) : TrackedSets :=
  match s.find? o with
  | none => s
  | some e =>
    { entries := (s.erase o).entries ++ [⟨o, r, e.gcRefs⟩]
      nodup := by
        rw [List.map_append, List.nodup_append]
        refine ⟨(s.erase o).nodup, List.pairwise_singleton .., fun a ha b hb => ?_⟩
        rintro rfl
        obtain rfl := List.mem_singleton.1 hb
        simp only [erase, filter, List.mem_map, List.mem_filter] at ha
        obtain ⟨e', ⟨-, he⟩, ho⟩ := ha
        simp [ho] at he }

def mapGcRefs (s : TrackedSets) (f : Entry → Nat) : TrackedSets where
  entries := s.entries.map fun e => { e with gcRefs := f e }
  nodup := by simpa [Function.comp_def] using s.nodup

def withGcRefs (s : TrackedSets) (o : ObjectId) (n : Nat) : TrackedSets :=
  s.mapGcRefs fun e => if e.object = o then n else e.gcRefs

/-- Gives the objects of role `source` the role `target`, after those that have it, in their
order and with their cyclic counts. -/
def merged (s : TrackedSets) (source target : Role) : TrackedSets where
  entries := (s.cleared source).entries ++
    (s.withRole source).map fun e => { e with role := target }
  nodup := by
    have perm : s.entries.filter (·.role ≠ source) ++ s.withRole source |>.Perm s.entries := by
      refine List.perm_append_comm.trans ?_
      simpa [withRole] using List.filter_append_perm (·.role = source) s.entries
    have := (perm.map Entry.object).nodup_iff.2 s.nodup
    simpa [cleared, filter, Function.comp_def] using this

theorem total_filter_le (s : TrackedSets) (p : Entry → Bool) : (s.filter p).total ≤ s.total :=
  List.length_filter_le ..

theorem total_erase_le (s : TrackedSets) (o : ObjectId) : (s.erase o).total ≤ s.total :=
  s.total_filter_le _

@[simp] theorem total_merged (s : TrackedSets) (source target : Role) :
    (s.merged source target).total = s.total := by
  have := (List.filter_append_perm (·.role = source) s.entries).length_eq
  simp only [List.length_append] at this
  simp only [total, merged, cleared, filter, withRole, List.length_append, List.length_map,
    ← this, decide_not, ne_eq]
  omega

/-! ## Checked requests -/

def moveTo (s : TrackedSets) (o : ObjectId) (r : Role) : Except Fault TrackedSets :=
  if s.contains o then .ok (s.moved o r) else .error (.moveUntracked o)

def setGcRefs (s : TrackedSets) (o : ObjectId) (n : Nat) : Except Fault TrackedSets :=
  if s.contains o then .ok (s.withGcRefs o n) else .error (.countUntracked o)

def merge (s : TrackedSets) (source target : Role) : Except Fault TrackedSets :=
  if source = target then .error .mergeIntoItself else .ok (s.merged source target)

end TrackedSets

end CycleCollector
