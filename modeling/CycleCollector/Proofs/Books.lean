import Mathlib.Algebra.GroupWithZero.Nat
import CycleCollector.Arena.Lemmas
/-!
# Keeping the books

A program keeps the books when each raw count is the number of references to the object: those
stored in the arena, those that the program holds itself, and the bias if the object was ever
linked. In the middle of an operation a reference may be stored and not yet counted; such references
are *owed*. Every counting operation rewrites one object after the other, and each rewriting moves
references between the books and nothing else.

## Main definitions

* `Ledger`: what the program holds and what it has linked.
* `Arena.stored`, `Arena.storedIn`: the references stored everywhere, and in some objects.
* `Arena.Accurate`: every raw count is right.
* `Arena.Books`: the same with some references owed, and every handle valid.

## Main statements

* `Arena.storedIn_le`: different objects store different references.
* `Arena.Books.setCell`: rewriting one object.
-/

namespace CycleCollector

/-- What a program knows of the references that an arena does not store. -/
structure Ledger where
  /-- The objects it holds, once for each time. -/
  held : List ObjectId := []
  /-- The objects it has linked. -/
  linked : List ObjectId := []
deriving DecidableEq, Repr

def Ledger.bias (l : Ledger) (o : ObjectId) : Nat := if o ∈ l.linked then Refcount.hostBias else 0

namespace Arena

variable {a b : Arena} {l l' : Ledger} {owed owed' os : List ObjectId} {o p : ObjectId}
  {c c' : Cell}

/-! ## Counting references -/

def stored (a : Arena) (o : ObjectId) : Nat :=
  (a.cells.toList.map fun c => c.references.count o).sum

def referencesOf (a : Arena) (p : ObjectId) : List ObjectId :=
  (a.cells[p.index]?.map Cell.references).getD []

def storedIn (a : Arena) (os : List ObjectId) (o : ObjectId) : Nat :=
  (os.map fun p => (a.referencesOf p).count o).sum

theorem referencesOf_eq (hc : a.cell o = .ok c) : a.referencesOf o = c.references := by
  simp [referencesOf, cell_eq_ok.1 hc]

theorem mem_referencesOf : o ∈ a.referencesOf p ↔ ∃ c, a.cell p = .ok c ∧ o ∈ c.references := by
  simp only [referencesOf, cell_eq_ok]
  cases a.cells[p.index]? <;> simp

theorem lt_size_of_cell (hc : a.cell o = .ok c) : o.index < a.size :=
  (Array.getElem?_eq_some_iff.1 (cell_eq_ok.1 hc)).1

theorem cell_of_lt (bound : o.index < a.size) : ∃ c, a.cell o = .ok c :=
  ⟨a.cells[o.index], cell_eq_ok.2 (Array.getElem?_eq_getElem bound)⟩

theorem referencesOf_setCell (hc : a.cell p = .ok c) (c' : Cell) (q : ObjectId) :
    (a.setCell p c').referencesOf q = if q = p then c'.references else a.referencesOf q := by
  split
  · next same =>
    subst q
    exact referencesOf_eq (by rw [cell_setCell (lt_size_of_cell hc), if_pos rfl])
  · next other =>
    have apart : p.index ≠ q.index := fun eq => other (congrArg ObjectId.mk eq).symm
    simp [referencesOf, setCell, apart]

theorem storedIn_mono (fewer : ∀ p, (b.referencesOf p).count o ≤ (a.referencesOf p).count o)
    (os : List ObjectId) : b.storedIn os o ≤ a.storedIn os o := by
  induction os with
  | nil => exact Nat.le_refl _
  | cons p os ih =>
    have here := fewer p
    simp only [storedIn, List.map_cons, List.sum_cons] at ih ⊢
    omega

/-- Rewriting an object exchanges its references for the new ones. -/
theorem stored_setCell (hc : a.cell o = .ok c) (c' : Cell) (p : ObjectId) :
    (a.setCell o c').stored p + c.references.count p = a.stored p + c'.references.count p := by
  have exchange : ∀ (cs : List Cell) (i : Nat), cs[i]? = some c →
      ((cs.set i c').map fun c => c.references.count p).sum + c.references.count p =
        (cs.map fun c => c.references.count p).sum + c'.references.count p := by
    intro cs
    induction cs with
    | nil => simp
    | cons d ds ih =>
      intro i hi
      cases i with
      | zero =>
        obtain rfl : d = c := by simpa using hi
        simp only [List.set_cons_zero, List.map_cons, List.sum_cons]
        omega
      | succ i =>
        have := ih i (by simpa using hi)
        simp only [List.set_cons_succ, List.map_cons, List.sum_cons]
        omega
  simpa [stored, setCell] using exchange a.cells.toList o.index (by simpa using cell_eq_ok.1 hc)

theorem storedIn_le (nodup : os.Nodup) (o : ObjectId) : a.storedIn os o ≤ a.stored o := by
  induction os generalizing a with
  | nil => simp [storedIn]
  | cons p os ih =>
    rw [List.nodup_cons] at nodup
    cases hc : a.cell p with
    | error =>
      have none : a.referencesOf p = [] := by
        unfold cell at hc
        split at hc
        · simp at hc
        · next missing => simp [referencesOf, missing]
      simpa [storedIn, none] using ih nodup.2
    | ok c =>
      -- the others store as much when `p` is emptied
      let emptied := a.setCell p { c with references := [] }
      have exchange := stored_setCell hc { c with references := [] } o
      have same : emptied.storedIn os o = a.storedIn os o := by
        refine congrArg List.sum (List.map_congr_left fun q mem => ?_)
        have other : q ≠ p := fun same => nodup.1 (same ▸ mem)
        rw [referencesOf_setCell hc, if_neg other]
      have rest := ih (a := emptied) nodup.2
      rw [same] at rest
      simp only [storedIn, List.map_cons, List.sum_cons, referencesOf_eq hc] at rest ⊢
      simp only [emptied, List.count_nil, Nat.add_zero] at rest exchange
      omega

/-- If no other object refers to `o`, some objects store all references to it. -/
theorem stored_le_storedIn
    (others : ∀ p c, a.cell p = .ok c → o ∈ c.references → p ∈ os) :
    a.stored o ≤ a.storedIn os o := by
  induction os generalizing a with
  | nil =>
    refine Nat.le_of_eq (List.sum_eq_zero_iff_forall_eq_nat.2 fun n mem => ?_)
    obtain ⟨c, hc, rfl⟩ := List.mem_map.1 mem
    obtain ⟨i, hi⟩ := List.mem_iff_getElem?.1 hc
    refine List.count_eq_zero.2 fun refers => ?_
    simpa using others ⟨i⟩ c (cell_eq_ok.2 (by simpa using hi)) refers
  | cons p os ih =>
    cases hc : a.cell p with
    | error =>
      have rest := ih (a := a) fun q d hd refers => by
        rcases List.mem_cons.1 (others q d hd refers) with rfl | mem
        · simp [hc] at hd
        · exact mem
      exact Nat.le_trans rest (Nat.le_add_left ..)
    | ok c =>
      -- emptying `p` leaves the references that the others store
      let emptied := a.setCell p { c with references := [] }
      have exchange := stored_setCell hc { c with references := [] } o
      have bound := lt_size_of_cell hc
      have rest := ih (a := emptied) fun q d hd refers => by
        rw [cell_setCell bound] at hd
        split at hd
        · obtain rfl := Except.ok.inj hd
          simp at refers
        · next other => exact (List.mem_cons.1 (others q d hd refers)).resolve_left other
      have fewer : emptied.storedIn os o ≤ a.storedIn os o := by
        refine storedIn_mono (fun q => ?_) os
        rw [referencesOf_setCell hc]
        split
        · exact Nat.zero_le _
        · exact Nat.le_refl _
      simp only [storedIn, List.map_cons, List.sum_cons, referencesOf_eq hc] at rest fewer ⊢
      simp only [emptied, List.count_nil, Nat.add_zero] at rest fewer exchange
      omega

/-- If some objects store all references to `o`, no other object refers to it. -/
theorem mem_of_stored_le (nodup : os.Nodup) (all : a.stored o ≤ a.storedIn os o)
    (hc : a.cell p = .ok c) (refers : o ∈ c.references) : p ∈ os := by
  refine Decidable.byContradiction fun apart => ?_
  have more := storedIn_le (a := a) (List.nodup_cons.2 ⟨apart, nodup⟩) o
  have positive := List.count_pos_iff.2 refers
  simp only [storedIn, List.map_cons, List.sum_cons, referencesOf_eq hc] at more all
  omega

/-! ## The books -/

def Accurate (a : Arena) (l : Ledger) : Prop :=
  ∀ o c, a.cell o = .ok c → c.refcount = l.bias o + a.stored o + l.held.count o

/-- No object has as many references as would look like a bias. -/
def Small (a : Arena) (l : Ledger) : Prop :=
  ∀ o, a.stored o + l.held.count o < Refcount.hostBias

theorem small_of_length (few : (a.cells.toList.map fun c => c.references.length).sum +
    l.held.length < Refcount.hostBias) : a.Small l := by
  intro o
  have stored : ∀ cs : List Cell, (cs.map fun c => c.references.count o).sum ≤
      (cs.map fun c => c.references.length).sum := by
    intro cs
    induction cs with
    | nil => simp
    | cons c cs ih =>
      have := List.count_le_length (a := o) (l := c.references)
      simp only [List.map_cons, List.sum_cons]
      omega
  have held := List.count_le_length (a := o) (l := l.held)
  exact Nat.lt_of_le_of_lt (Nat.add_le_add (stored a.cells.toList) held) few

/-- Every raw count is right but for the references that are owed, and every handle is valid. -/
structure Books (a : Arena) (l : Ledger) (owed : List ObjectId) : Prop where
  tally : ∀ o c, a.cell o = .ok c →
    c.refcount + owed.count o = l.bias o + a.stored o + l.held.count o
  stored : ∀ o c, a.cell o = .ok c → ∀ p ∈ c.references, p.index < a.size
  held : ∀ o ∈ l.held, o.index < a.size
  linked : ∀ o ∈ l.linked, o.index < a.size

theorem Books.accurate (books : a.Books l []) : a.Accurate l := fun o c hc => by
  simpa using books.tally o c hc

/-- Rewriting one object keeps the books if it moves references between them: what its count and
the debts gain, its references, the bias and the holds gain too. -/
theorem Books.setCell (books : a.Books l owed) (hc : a.cell o = .ok c)
    (balance : ∀ p, (if p = o then c'.refcount else 0) + owed'.count p +
        (l.bias p + c.references.count p + l.held.count p) =
      (if p = o then c.refcount else 0) + owed.count p +
        (l'.bias p + c'.references.count p + l'.held.count p))
    (stored : ∀ p ∈ c'.references, p.index < a.size)
    (held : ∀ p ∈ l'.held, p.index < a.size) (linked : ∀ p ∈ l'.linked, p.index < a.size) :
    (a.setCell o c').Books l' owed' := by
  have bound := lt_size_of_cell hc
  refine ⟨fun p d hd => ?_, fun p d hd => ?_, by simpa using held, by simpa using linked⟩
  · rw [cell_setCell bound] at hd
    have exchange := stored_setCell hc c' p
    have moved := balance p
    split at hd
    · next same =>
      subst p
      obtain rfl := Except.ok.inj hd
      have before := books.tally o c hc
      simp only [if_true] at moved
      omega
    · next other =>
      have before := books.tally p d hd
      simp only [other, if_false] at moved
      omega
  · rw [cell_setCell bound] at hd
    simp only [size_setCell]
    split at hd
    · obtain rfl := Except.ok.inj hd
      exact stored
    · exact books.stored p d hd

/-! ## Counting operations -/

/-- Counting a reference pays one that is owed. -/
theorem Books.incref (books : a.Books l (o :: owed)) (done : a.incref o = .ok b) :
    b.Books l owed := by
  obtain ⟨c, hc, -, rfl⟩ := raise_eq_ok.1 done
  refine books.setCell hc (fun p => ?_) (books.stored o c hc) books.held books.linked
  grind

/-- Counting a reference that is not owed holds the object. -/
theorem Books.hold (books : a.Books l owed) (done : a.incref o = .ok b) :
    b.Books { l with held := o :: l.held } owed := by
  obtain ⟨c, hc, -, rfl⟩ := raise_eq_ok.1 done
  refine books.setCell hc (fun p => ?_) (books.stored o c hc) ?_ books.linked
  · grind [Ledger.bias]
  · exact List.forall_mem_cons.2 ⟨lt_size_of_cell hc, books.held⟩

theorem Books.decref (books : a.Books { l with held := o :: l.held } [])
    (done : a.decref o = .ok b) : b.Books l [] := by
  obtain ⟨c, hc, rfl⟩ := modify_eq_ok.1 done
  have positive := books.tally o c hc
  refine books.setCell hc (fun p => ?_) (books.stored o c hc)
    (fun p mem => books.held p (List.mem_cons_of_mem _ mem)) books.linked
  grind [Ledger.bias]

theorem Books.decrefAll (books : a.Books { l with held := os ++ l.held } [])
    (done : a.decrefAll os = .ok b) : b.Books l [] := by
  induction os generalizing a with
  | nil => exact pure_eq_ok.1 done ▸ books
  | cons o os ih =>
    rw [Arena.decrefAll, List.foldlM_cons, bind_eq_ok] at done
    obtain ⟨a₁, first, others⟩ := done
    exact ih (Books.decref (l := { l with held := os ++ l.held }) books first) others

/-- Storing a reference owes its count. -/
theorem Books.addUncounted (books : a.Books l owed) (valid : p.index < a.size)
    (done : a.addUncounted o p = .ok b) : b.Books l (p :: owed) := by
  obtain ⟨c, hc, rfl⟩ := modify_eq_ok.1 done
  refine books.setCell hc (fun q => ?_) (fun q mem => ?_) books.held books.linked
  · grind
  · rcases List.mem_append.1 mem with mem | mem
    · exact books.stored o c hc q mem
    · exact List.mem_singleton.1 mem ▸ valid

theorem Books.addRef (books : a.Books l []) (done : a.addRef o p = .ok b) : b.Books l [] := by
  simp only [Arena.addRef, bind_eq_ok] at done
  obtain ⟨a₁, added, counted⟩ := done
  obtain ⟨c, hc, rfl⟩ := modify_eq_ok.1 added
  obtain ⟨d, hd, -⟩ := raise_eq_ok.1 counted
  have valid : p.index < a.size := by simpa using lt_size_of_cell hd
  exact (books.addUncounted valid added).incref counted

theorem Books.forgetRef {found : Bool} (books : a.Books l [])
    (done : a.forgetRef o p = .ok (found, b)) :
    b.Books { l with held := if found then p :: l.held else l.held } [] := by
  simp only [Arena.forgetRef, bind_eq_ok] at done
  obtain ⟨c, hc, done⟩ := done
  split at done
  · next mem =>
    obtain ⟨rfl, rfl⟩ := Prod.mk.inj (pure_eq_ok.1 done)
    have positive := List.count_pos_iff.2 mem
    refine books.setCell hc (fun q => ?_) (fun q mem => ?_) ?_ books.linked
    · grind [Ledger.bias]
    · exact books.stored o c hc q (List.mem_of_mem_erase mem)
    · exact List.forall_mem_cons.2 ⟨books.stored o c hc p mem, books.held⟩
  · obtain ⟨rfl, rfl⟩ := Prod.mk.inj (pure_eq_ok.1 done)
    exact books

theorem Books.removeRef {found : Bool} (books : a.Books l [])
    (done : a.removeRef o p = .ok (found, b)) : b.Books l [] := by
  simp only [Arena.removeRef, bind_eq_ok] at done
  obtain ⟨⟨found', a₁⟩, dropped, done⟩ := done
  have between := books.forgetRef dropped
  cases found' with
  | true =>
    obtain ⟨a₂, uncounted, done⟩ := bind_eq_ok.1 done
    obtain ⟨-, rfl⟩ := Prod.mk.inj (pure_eq_ok.1 done)
    exact between.decref uncounted
  | false =>
    obtain ⟨-, rfl⟩ := Prod.mk.inj (pure_eq_ok.1 done)
    exact between

theorem Books.retarget {slot : Nat} (books : a.Books l [])
    (done : a.retarget o slot p = .ok b) : b.Books l [] := by
  obtain ⟨c, old, a₁, hc, hold, counted, uncounted⟩ := retarget_eq_ok.1 done
  obtain ⟨d, hd, -⟩ := raise_eq_ok.1 counted
  have valid : p.index < a.size := by simpa using lt_size_of_cell hd
  obtain ⟨bound, rfl⟩ := List.getElem?_eq_some_iff.1 hold
  have between : (a.setCell o { c with references := c.references.set slot p }).Books
      { l with held := c.references[slot] :: l.held } [p] := by
    refine books.setCell hc (fun q => ?_) (fun q mem => ?_) ?_ books.linked
    · have exchange := List.count_set (b := q) (a := p) (l := c.references) bound
      have positive : c.references[slot] = q → 0 < c.references.count q :=
        fun same => List.count_pos_iff.2 (same ▸ List.getElem_mem bound)
      grind [Ledger.bias]
    · rcases List.mem_or_eq_of_mem_set mem with mem | rfl
      · exact books.stored o c hc q mem
      · exact valid
    · exact List.forall_mem_cons.2
        ⟨books.stored o c hc _ (List.getElem_mem bound), books.held⟩
  exact (between.incref counted).decref uncounted

/-- Rewriting an object otherwise does not touch the books. -/
theorem Books.modify {f : Cell → Cell} (books : a.Books l owed) (done : a.modify o f = .ok b)
    (count : ∀ c, (f c).refcount = c.refcount) (refs : ∀ c, (f c).references = c.references) :
    b.Books l owed := by
  obtain ⟨c, hc, rfl⟩ := modify_eq_ok.1 done
  exact books.setCell hc (fun p => by simp [count, refs])
    (refs c ▸ books.stored o c hc) books.held books.linked

/-- Linking an object for the first time puts the bias on its count. -/
theorem Books.link {h : HostRef} (books : a.Books l owed) (fresh : o ∉ l.linked)
    (done : a.link o h = .ok b) : b.Books { l with linked := o :: l.linked } owed := by
  simp only [Arena.link, bind_eq_ok] at done
  obtain ⟨a₁, bridged, biased⟩ := done
  have between := books.modify bridged (fun _ => rfl) fun _ => rfl
  obtain ⟨c, hc, -, rfl⟩ := raise_eq_ok.1 biased
  refine between.setCell hc (fun p => ?_) (between.stored o c hc) between.held ?_
  · grind [Ledger.bias]
  · exact List.forall_mem_cons.2 ⟨lt_size_of_cell hc, between.linked⟩

/-- A released object gives up its references. -/
theorem Books.release (books : a.Books l []) (done : a.release o = .ok b) : b.Books l [] := by
  obtain ⟨c, hc, -, a₁, uncounted, rfl⟩ := release_eq_ok.1 done
  have between : (a.setCell o { c with released := true, bridge := none, references := [] }).Books
      { l with held := c.references ++ l.held } [] := by
    refine books.setCell hc (fun p => ?_) (by simp) ?_ books.linked
    · simp only [List.count_append, List.count_nil, Ledger.bias]
      omega
    · exact List.forall_mem_append.2 ⟨books.stored o c hc, books.held⟩
  obtain ⟨tally, stored, held, linked⟩ := between.decrefAll uncounted
  exact ⟨tally, stored, held, linked⟩

theorem Books.releaseAll (books : a.Books l []) (done : ForeignHeap.releaseAll a os = .ok b) :
    b.Books l [] :=
  foldlM_induction (P := fun a => a.Books l []) done books fun _ _ _ _ books => books.release

/-! ## Allocating -/

theorem Books.stored_eq_zero (books : a.Books l owed) (fresh : a.size ≤ o.index) :
    a.stored o = 0 := by
  refine List.sum_eq_zero_iff_forall_eq_nat.2 fun n mem => ?_
  obtain ⟨c, hc, rfl⟩ := List.mem_map.1 mem
  obtain ⟨i, hi⟩ := List.mem_iff_getElem?.1 hc
  refine List.count_eq_zero.2 fun refers => ?_
  have valid := books.stored ⟨i⟩ c (cell_eq_ok.2 (by simpa using hi)) o refers
  omega

theorem stored_alloc (a : Arena) (n : Nat) (o : ObjectId) :
    (a.alloc n).2.stored o = a.stored o := by
  simp [alloc, stored]

theorem cell_alloc (hc : a.cell o = .ok c) (n : Nat) : (a.alloc n).2.cell o = .ok c := by
  have bound : o.index < a.cells.size := lt_size_of_cell hc
  rw [cell_eq_ok] at hc ⊢
  simpa [alloc, Array.getElem?_append, bound] using hc

/-- What was not there before is empty. -/
theorem cell_of_alloc {n : Nat} (hc : (a.alloc n).2.cell o = .ok c) :
    a.cell o = .ok c ∨ a.size ≤ o.index ∧ c = {} := by
  rw [cell_eq_ok] at hc
  simp only [Arena.alloc, Array.getElem?_append] at hc
  split at hc
  · exact .inl (cell_eq_ok.2 hc)
  · next bound =>
    simp only [Array.getElem?_replicate, Option.ite_none_right_eq_some, Option.some.injEq] at hc
    exact .inr ⟨by simpa [size] using bound, hc.2.symm⟩

theorem Books.alloc (books : a.Books l []) (n : Nat) : (a.alloc n).2.Books l [] := by
  have grown : a.size ≤ (a.alloc n).2.size := by simp [Arena.alloc, size]
  refine ⟨fun o c hc => ?_, fun o c hc p mem => ?_, fun o mem => ?_, fun o mem => ?_⟩
  · rw [stored_alloc]
    rcases cell_of_alloc hc with old | ⟨fresh, rfl⟩
    · exact books.tally o c old
    · have unheld : o ∉ l.held := fun mem => by
        have := books.held o mem
        omega
      have unlinked : o ∉ l.linked := fun mem => by
        have := books.linked o mem
        omega
      simp [books.stored_eq_zero fresh, List.count_eq_zero.2 unheld, Ledger.bias, unlinked]
  · rcases cell_of_alloc hc with old | ⟨-, rfl⟩
    · exact Nat.lt_of_lt_of_le (books.stored o c old p mem) grown
    · simp at mem
  · exact Nat.lt_of_lt_of_le (books.held o mem) grown
  · exact Nat.lt_of_lt_of_le (books.linked o mem) grown

theorem Books.allocRing {n : Nat} (books : a.Books l []) (done : a.allocRing n = .ok (os, b)) :
    b.Books l [] := by
  simp only [Arena.allocRing, bind_eq_ok, pure_eq_ok] at done
  obtain ⟨a₁, tied, done⟩ := done
  obtain ⟨-, rfl⟩ := Prod.mk.inj done
  exact foldlM_induction (P := fun a => a.Books l []) tied (books.alloc n)
    fun _ _ _ _ books => books.addRef

end Arena

end CycleCollector
