import CycleCollector.Arena.Basic
/-!
# The arena: first facts

What the interface answers for an arena, when a handle is valid, what writing a cell does to the
others, and what the operations that may fail did if they have not.
-/

namespace CycleCollector.Arena

/-! ## The arena behind the interface -/

section Interface

variable (a : Arena) (o : ObjectId)

@[simp] theorem foreign_refcount : ForeignHeap.refcount a o = a.refcount o := rfl

@[simp] theorem foreign_bridge : ForeignHeap.bridge a o = a.bridge o := rfl

@[simp] theorem foreign_references : ForeignHeap.references a o = a.references o := rfl

@[simp] theorem foreign_release : ForeignHeap.release a o = a.release o := rfl

@[simp] theorem foreign_finalizer : ForeignHeap.finalizer a o = a.finalizer o := rfl

@[simp] theorem foreign_mayUntrack : ForeignHeap.mayUntrack a o = a.isAtomic o := rfl

end Interface

/-! ## Cells -/

variable {a : Arena} {o p : ObjectId} {c : Cell}

theorem cell_eq_ok : a.cell o = .ok c ↔ a.cells[o.index]? = some c := by
  unfold cell
  split <;> simp_all

theorem cell_eq_error {fault : Fault} :
    a.cell o = .error fault ↔ a.size ≤ o.index ∧ fault = .outOfBounds a.size o.index := by
  unfold cell
  split
  · next h =>
    have := (Array.getElem?_eq_some_iff.1 h).1
    simp only [size, reduceCtorEq, false_iff]
    omega
  · next h =>
    have := Array.getElem?_eq_none_iff.1 h
    simp [size, this, eq_comm]

@[simp] theorem size_setCell (a : Arena) (o : ObjectId) (c : Cell) :
    (a.setCell o c).size = a.size := by
  simp [setCell, size]

theorem cell_setCell (h : o.index < a.size) (c : Cell) (p : ObjectId) :
    (a.setCell o c).cell p = if p = o then .ok c else a.cell p := by
  have index : p = o ↔ o.index = p.index := by
    cases p
    cases o
    simp [eq_comm]
  simp only [cell, setCell, Array.getElem?_setIfInBounds, Array.size_setIfInBounds, index]
  simp only [size] at h
  split <;> split <;> simp_all

/-! ## What an operation did -/

variable {b : Arena} {os : List ObjectId}

theorem modify_eq_ok {f : Cell → Cell} :
    a.modify o f = .ok b ↔ ∃ c, a.cell o = .ok c ∧ b = a.setCell o (f c) := by
  simp only [modify, bind_eq_ok, pure_eq_ok, eq_comm (a := b)]

theorem raise_eq_ok {n : Nat} : a.raise o n = .ok b ↔ ∃ c, a.cell o = .ok c ∧
    c.refcount + n < Refcount.limit ∧ b = a.setCell o { c with refcount := c.refcount + n } := by
  simp only [raise, bind_eq_ok]
  constructor
  · rintro ⟨c, hc, h⟩
    split at h
    · next bound => exact ⟨c, hc, bound, (pure_eq_ok.1 h).symm⟩
    · exact absurd h throw_ne_ok
  · rintro ⟨c, hc, bound, rfl⟩
    exact ⟨c, hc, by rw [if_pos bound]; rfl⟩

theorem decrefAll_induction {P : Arena → Prop} (done : a.decrefAll os = .ok b) (start : P a)
    (step : ∀ o ∈ os, ∀ a c, P a → a.cell o = .ok c →
      P (a.setCell o { c with refcount := c.refcount - 1 })) : P b := by
  refine foldlM_induction done start fun o mem a₁ a₂ holds uncounted => ?_
  obtain ⟨c, hc, rfl⟩ := modify_eq_ok.1 uncounted
  exact step o mem a₁ c holds hc

theorem retarget_eq_ok {slot : Nat} : a.retarget o slot p = .ok b ↔ ∃ c old a₁, a.cell o = .ok c ∧
    c.references[slot]? = some old ∧
    (a.setCell o { c with references := c.references.set slot p }).incref p = .ok a₁ ∧
    a₁.decref old = .ok b := by
  simp only [retarget, bind_eq_ok]
  constructor
  · rintro ⟨c, hc, h⟩
    split at h
    · exact absurd h throw_ne_ok
    · next old hold =>
      obtain ⟨a₁, counted, uncounted⟩ := bind_eq_ok.1 h
      exact ⟨c, old, a₁, hc, hold, counted, uncounted⟩
  · rintro ⟨c, old, a₁, hc, hold, counted, uncounted⟩
    exact ⟨c, hc, by simp only [hold, bind_eq_ok]; exact ⟨a₁, counted, uncounted⟩⟩

/-- An object is released once; it is emptied, and what it referred to is uncounted. -/
theorem release_eq_ok : a.release o = .ok b ↔ ∃ c, a.cell o = .ok c ∧ c.released = false ∧
    ∃ a₁, (a.setCell o { c with released := true, bridge := none, references := [] }).decrefAll
        c.references = .ok a₁ ∧
      b = { a₁ with released := a₁.released ++ [o] } := by
  simp only [release, bind_eq_ok]
  constructor
  · rintro ⟨c, hc, h⟩
    split at h
    · exact absurd h throw_ne_ok
    · next fresh =>
      obtain ⟨a₁, uncounted, h⟩ := bind_eq_ok.1 h
      exact ⟨c, hc, Bool.eq_false_iff.2 fresh, a₁, uncounted, (pure_eq_ok.1 h).symm⟩
  · rintro ⟨c, hc, fresh, a₁, uncounted, rfl⟩
    exact ⟨c, hc, by rw [fresh]; exact bind_eq_ok.2 ⟨a₁, uncounted, rfl⟩⟩

end CycleCollector.Arena
