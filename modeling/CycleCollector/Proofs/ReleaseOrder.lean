import Mathlib.Algebra.Order.BigOperators.Group.List
import Mathlib.Algebra.Order.Group.Nat
import Mathlib.Data.List.Perm.Subperm
import CycleCollector.Proofs.Garbage
/-!
# Releases in any order

A release changes the counts of other objects and nothing else of them, and a count that is
uncounted stops at zero. So what is left of the objects when several have been released can be told
from the arena before: every object has lost a count for each reference that the released ones
stored, as far as it had one, and the released ones are empty. The order of the releases leaves no
trace but in the log.

## Main definitions

* `Arena.reclaimed`: what becomes of an object.
* `Arena.Releasable`: an object that can be released.

## Main statements

* `Arena.cell_releaseAll`: it does.
* `Arena.cells_of_perm_releaseAll`: two orders of release leave the same objects.
* `Arena.exists_releaseAll_iff`: releases go through if and only if each could come first.
-/

namespace CycleCollector.Arena

variable {a a' b b' : Arena} {os os' : List ObjectId} {o p : ObjectId} {c : Cell}

theorem storedIn_perm (perm : os.Perm os') (a : Arena) (o : ObjectId) :
    a.storedIn os o = a.storedIn os' o :=
  (perm.map _).sum_nat

theorem storedIn_le_of_subset (nodup : os.Nodup) (subset : ∀ p ∈ os, p ∈ os') (a : Arena)
    (o : ObjectId) : a.storedIn os o ≤ a.storedIn os' o := by
  obtain ⟨ps, perm, sub⟩ := nodup.subperm subset
  rw [← storedIn_perm perm]
  exact (sub.map _).sum_le_sum fun _ _ => Nat.zero_le _

theorem referencesOf_congr (same : b.cells = a.cells) (p : ObjectId) :
    b.referencesOf p = a.referencesOf p := by
  rw [referencesOf, same, ← referencesOf]

theorem storedIn_congr (same : b.cells = a.cells) (os : List ObjectId) (o : ObjectId) :
    b.storedIn os o = a.storedIn os o :=
  congrArg List.sum (List.map_congr_left fun p _ => by rw [referencesOf_congr same])

theorem cells_eq_of_cell (same : ∀ o, b.cell o = a.cell o) : b.cells = a.cells := by
  refine Array.ext_getElem? fun i => Option.ext fun c => ?_
  rw [← cell_eq_ok (o := ⟨i⟩), ← cell_eq_ok (o := ⟨i⟩), same]

/-- What becomes of an object when some objects are released: it loses a count for every reference
that they store to it, and if it is one of them it is emptied. -/
def reclaimed (a : Arena) (os : List ObjectId) (o : ObjectId) (c : Cell) : Cell :=
  let c := { c with refcount := c.refcount - a.storedIn os o }
  if o ∈ os then { c with released := true, bridge := none, references := [] } else c

@[simp] theorem reclaimed_nil (a : Arena) (o : ObjectId) (c : Cell) : a.reclaimed [] o c = c := by
  simp [reclaimed, storedIn]

theorem cell_decrefAll (done : a.decrefAll os = .ok b) (p : ObjectId) :
    b.cell p = (fun c => { c with refcount := c.refcount - os.count p }) <$> a.cell p := by
  induction os generalizing a with
  | nil =>
    obtain rfl := pure_eq_ok.1 done
    simp
  | cons o os ih =>
    rw [decrefAll, List.foldlM_cons, bind_eq_ok] at done
    obtain ⟨a₁, first, others⟩ := done
    obtain ⟨c, hc, rfl⟩ := modify_eq_ok.1 first
    rw [ih others, cell_setCell (lt_size_of_cell hc)]
    by_cases same : p = o
    · subst p
      rw [if_pos rfl, hc, List.count_cons_self]
      simp only [Functor.map, Except.map]
      rw [Nat.sub_sub, Nat.add_comm 1]
    · rw [if_neg same, List.count_cons_of_ne (Ne.symm same)]

theorem cell_release (done : a.release o = .ok b) (p : ObjectId) :
    b.cell p = a.reclaimed [o] p <$> a.cell p := by
  obtain ⟨c, hc, -, a₁, uncounted, rfl⟩ := release_eq_ok.1 done
  have stored : a.storedIn [o] p = c.references.count p := by
    simp [storedIn, referencesOf_eq hc]
  have logged : Arena.cell { a₁ with released := a₁.released ++ [o] } p = a₁.cell p := rfl
  rw [logged, cell_decrefAll uncounted, cell_setCell (lt_size_of_cell hc)]
  by_cases same : p = o
  · subst p
    rw [if_pos rfl, hc]
    simp [Functor.map, Except.map, reclaimed, stored]
  · rw [if_neg same]
    exact congrArg (· <$> a.cell p) (funext fun d => by simp [reclaimed, stored, same])

theorem referencesOf_release (done : a.release o = .ok b) (other : p ≠ o) :
    b.referencesOf p = a.referencesOf p := by
  have cell := cell_release done p
  cases hc : a.cell p with
  | ok c =>
    rw [hc] at cell
    rw [referencesOf_eq cell, referencesOf_eq hc]
    simp [reclaimed, other]
  | error fault =>
    rw [hc] at cell
    simp only [Functor.map, Except.map] at cell
    refine List.ext_getElem? fun i => ?_
    rw [referencesOf, referencesOf, Array.getElem?_eq_none (cell_eq_error.1 cell).1,
      Array.getElem?_eq_none (cell_eq_error.1 hc).1]

theorem referencesOf_releaseAll (done : ForeignHeap.releaseAll a os = .ok b) (other : p ∉ os) :
    b.referencesOf p = a.referencesOf p :=
  foldlM_induction (P := fun b : Arena => b.referencesOf p = a.referencesOf p) done rfl
    fun _ mem _ _ same released =>
      (referencesOf_release released fun here : p = _ => other (here ▸ mem)).trans same

/-- What is left of the objects when different objects have been released one after the other. -/
theorem cell_releaseAll (nodup : os.Nodup) (done : ForeignHeap.releaseAll a os = .ok b)
    (p : ObjectId) : b.cell p = a.reclaimed os p <$> a.cell p := by
  induction os generalizing a with
  | nil =>
    obtain rfl := pure_eq_ok.1 done
    cases a.cell p <;> simp [Functor.map, Except.map]
  | cons o os ih =>
    rw [ForeignHeap.releaseAll, List.foldlM_cons, bind_eq_ok] at done
    obtain ⟨a₁, first, others⟩ := done
    rw [List.nodup_cons] at nodup
    have stored : a₁.storedIn os p = a.storedIn os p := by
      refine congrArg List.sum (List.map_congr_left fun q mem => ?_)
      rw [referencesOf_release first fun same => nodup.1 (same ▸ mem)]
    have both : ∀ c, a₁.reclaimed os p (a.reclaimed [o] p c) = a.reclaimed (o :: os) p c := by
      intro c
      have sum : a.storedIn (o :: os) p = a.storedIn [o] p + a.storedIn os p := by simp [storedIn]
      simp only [reclaimed, stored, sum, List.mem_cons]
      by_cases here : p = o <;> by_cases later : p ∈ os <;> simp [here, later, Nat.sub_sub]
    rw [ih nodup.2 others, cell_release first]
    cases a.cell p with
    | error fault => rfl
    | ok c => exact congrArg Except.ok (both c)

/-- Apart from its count, releases leave an object alone that is not among the released ones. -/
theorem map_cell_releaseAll {β : Type} {f : Cell → β}
    (uncounted : ∀ c n, f { c with refcount := n } = f c)
    (nodup : os.Nodup) (done : ForeignHeap.releaseAll a os = .ok b) (other : p ∉ os) :
    f <$> b.cell p = f <$> a.cell p := by
  rw [cell_releaseAll nodup done]
  cases a.cell p with
  | error fault => rfl
  | ok c => simp [Functor.map, Except.map, reclaimed, other, uncounted]

theorem refcount_releaseAll {n : Nat} (nodup : os.Nodup)
    (done : ForeignHeap.releaseAll a os = .ok b) (count : a.refcount p = .ok n) :
    b.refcount p = .ok (n - a.storedIn os p) := by
  obtain ⟨c, hc, rfl⟩ := refcount_eq_ok.1 count
  refine refcount_eq_ok.2 ⟨_, by rw [cell_releaseAll nodup done, hc]; rfl, ?_⟩
  unfold reclaimed
  split <;> rfl

theorem bridge_of_releaseAll {h : HostRef} (nodup : os.Nodup)
    (done : ForeignHeap.releaseAll a os = .ok b) (bridged : b.bridge o = .ok (some h)) :
    a.bridge o = .ok (some h) := by
  rw [bridge, cell_releaseAll nodup done] at bridged
  cases hc : a.cell o with
  | error fault => simp [hc, Functor.map, Except.map] at bridged
  | ok c =>
    rw [hc] at bridged
    simp only [Functor.map, Except.map, reclaimed, Except.ok.injEq] at bridged
    rw [bridge, hc]
    split at bridged
    · simp at bridged
    · exact congrArg Except.ok bridged

/-- Two orders of release leave the same objects. -/
theorem cells_of_perm_releaseAll (same : a'.cells = a.cells) (perm : os.Perm os')
    (nodup : os.Nodup) (done : ForeignHeap.releaseAll a os = .ok b)
    (done' : ForeignHeap.releaseAll a' os' = .ok b') : b'.cells = b.cells := by
  refine cells_eq_of_cell fun p => ?_
  have reclaimed : a'.reclaimed os' p = a.reclaimed os p := by
    funext c
    simp only [Arena.reclaimed, storedIn_congr same, storedIn_perm perm, perm.mem_iff]
  rw [cell_releaseAll nodup done, cell_releaseAll (perm.nodup_iff.1 nodup) done', reclaimed,
    cell_congr same]

theorem size_releaseAll (done : ForeignHeap.releaseAll a os = .ok b) : b.size = a.size := by
  refine foldlM_induction (P := fun b : Arena => b.size = a.size) done rfl
    fun o _ a₁ a₂ same released => ?_
  obtain ⟨c, -, -, a₃, uncounted, rfl⟩ := release_eq_ok.1 released
  have emptied : a₃.size = a₁.size :=
    decrefAll_induction (P := fun b : Arena => b.size = a₁.size) uncounted (size_setCell ..)
      fun p _ b d same _ => (size_setCell ..).trans same
  exact emptied.trans same

/-! ## When releases go through -/

/-- An object that can be released: it was not released yet, and it refers to allocated objects. -/
def Releasable (a : Arena) (o : ObjectId) : Prop :=
  ∃ c, a.cell o = .ok c ∧ c.released = false ∧ ∀ p ∈ c.references, p.index < a.size

theorem Releasable.congr (releasable : a.Releasable o) (same : b.cells = a.cells) :
    b.Releasable o := by
  obtain ⟨c, hc, fresh, valid⟩ := releasable
  refine ⟨c, (cell_congr same o).trans hc, fresh, ?_⟩
  rwa [size, same]

theorem exists_decrefAll_iff :
    (∃ b, a.decrefAll os = .ok b) ↔ ∀ o ∈ os, o.index < a.size := by
  induction os generalizing a with
  | nil => simp [decrefAll, pure, Except.pure]
  | cons o os ih =>
    rw [List.forall_mem_cons, decrefAll, List.foldlM_cons]
    constructor
    · rintro ⟨b, done⟩
      obtain ⟨a₁, first, others⟩ := bind_eq_ok.1 done
      obtain ⟨c, hc, rfl⟩ := modify_eq_ok.1 first
      exact ⟨lt_size_of_cell hc, by simpa using ih.1 ⟨b, others⟩⟩
    · rintro ⟨here, valid⟩
      obtain ⟨c, hc⟩ := cell_of_lt here
      obtain ⟨b, others⟩ :=
        (ih (a := a.setCell o { c with refcount := c.refcount - 1 })).2 (by simpa using valid)
      exact ⟨b, bind_eq_ok.2 ⟨_, modify_eq_ok.2 ⟨c, hc, rfl⟩, others⟩⟩

theorem exists_release_iff : (∃ b, a.release o = .ok b) ↔ a.Releasable o := by
  constructor
  · rintro ⟨b, done⟩
    obtain ⟨c, hc, fresh, a₁, uncounted, rfl⟩ := release_eq_ok.1 done
    exact ⟨c, hc, fresh, by simpa using exists_decrefAll_iff.1 ⟨a₁, uncounted⟩⟩
  · rintro ⟨c, hc, fresh, valid⟩
    have emptied : ∀ p ∈ c.references, p.index <
        (a.setCell o { c with released := true, bridge := none, references := [] }).size := by
      simpa using valid
    obtain ⟨a₁, uncounted⟩ := exists_decrefAll_iff.2 emptied
    exact ⟨_, release_eq_ok.2 ⟨c, hc, fresh, a₁, uncounted, rfl⟩⟩

/-- A release leaves every other object as releasable as it was. -/
theorem releasable_release_iff (done : a.release o = .ok b) (other : p ≠ o) :
    b.Releasable p ↔ a.Releasable p := by
  have once : ForeignHeap.releaseAll a [o] = .ok b := by
    rw [ForeignHeap.releaseAll, List.foldlM_cons, foreign_release, done]
    rfl
  simp only [Releasable, size_releaseAll once, cell_release done, map_eq_ok]
  constructor
  · rintro ⟨_, ⟨c, hc, rfl⟩, fresh, valid⟩
    exact ⟨c, hc, by simpa [reclaimed, other] using fresh,
      by simpa [reclaimed, other] using valid⟩
  · rintro ⟨c, hc, fresh, valid⟩
    exact ⟨_, ⟨c, hc, rfl⟩, by simpa [reclaimed, other] using fresh,
      by simpa [reclaimed, other] using valid⟩

/-- Different objects can be released one after the other if and only if each of them can. -/
theorem exists_releaseAll_iff (nodup : os.Nodup) :
    (∃ b, ForeignHeap.releaseAll a os = .ok b) ↔ ∀ o ∈ os, a.Releasable o := by
  induction os generalizing a with
  | nil => simp [ForeignHeap.releaseAll, pure, Except.pure]
  | cons o os ih =>
    obtain ⟨once, nodup⟩ := List.nodup_cons.1 nodup
    have others : ∀ {a₁}, a.release o = .ok a₁ →
        ((∀ p ∈ os, a₁.Releasable p) ↔ ∀ p ∈ os, a.Releasable p) := fun first =>
      forall₂_congr fun p mem => releasable_release_iff first fun same => once (same ▸ mem)
    rw [List.forall_mem_cons, ForeignHeap.releaseAll, List.foldlM_cons, foreign_release]
    constructor
    · rintro ⟨b, done⟩
      obtain ⟨a₁, first, rest⟩ := bind_eq_ok.1 done
      exact ⟨exists_release_iff.1 ⟨a₁, first⟩, (others first).1 ((ih nodup).1 ⟨b, rest⟩)⟩
    · rintro ⟨here, later⟩
      obtain ⟨a₁, first⟩ := exists_release_iff.2 here
      obtain ⟨b, rest⟩ := (ih nodup).2 ((others first).2 later)
      exact ⟨b, bind_eq_ok.2 ⟨a₁, first, rest⟩⟩

end CycleCollector.Arena
