import Mathlib.Data.List.Count
import CycleCollector.Proofs.Totality
/-!
# What a program's operations leave

The operations that write objects have no fault if their handles are valid and no count grows out of
a word. Each leaves every object as a function of what the object was, so a sequence of operations
leaves it as the composition of their functions. A new ring is an example: each of its objects has
one reference, to the next one, and is referred to once.

## Main definitions

* `Arena.Alters`: an arena whose objects are a function of those of another one.

## Main statements

* `Arena.exists_addRefs`: references added one after the other.
* `Arena.exists_allocRing`: a new ring.
-/

namespace CycleCollector.Arena

variable {a b d : Arena} {f g : ObjectId → Cell → Cell} {o p : ObjectId} {c : Cell}

/-- The objects of `b` are those of `a`, each altered by `f`. -/
structure Alters (f : ObjectId → Cell → Cell) (a b : Arena) : Prop where
  size : b.size = a.size
  cell : ∀ o c, a.cell o = .ok c → b.cell o = .ok (f o c)

namespace Alters

theorem trans (first : Alters f a b) (second : Alters g b d) :
    Alters (fun o c => g o (f o c)) a d :=
  ⟨second.size.trans first.size, fun o c hc => second.cell o _ (first.cell o c hc)⟩

theorem congr (alters : Alters f a b) (same : ∀ o c, f o c = g o c) : Alters g a b :=
  ⟨alters.size, fun o c hc => by rw [alters.cell o c hc, same]⟩

theorem exists_of_cell (alters : Alters f a b) (hc : b.cell o = .ok c) :
    ∃ d, a.cell o = .ok d ∧ c = f o d := by
  obtain ⟨d, hd⟩ := cell_of_lt (alters.size ▸ lt_size_of_cell hc : o.index < a.size)
  exact ⟨d, hd, Except.ok.inj (hc.symm.trans (alters.cell o d hd))⟩

theorem map_cell {β : Type} {ask : Cell → β} (alters : Alters f a b)
    (same : ∀ o c, ask (f o c) = ask c) (o : ObjectId) : ask <$> b.cell o = ask <$> a.cell o := by
  cases hc : a.cell o with
  | ok c =>
    rw [alters.cell o c hc]
    exact congrArg Except.ok (same o c)
  | error fault =>
    obtain ⟨out, rfl⟩ := cell_eq_error.1 hc
    rw [cell_eq_error.2 ⟨alters.size ▸ out, rfl⟩, alters.size]

end Alters

theorem alters_setCell (hc : a.cell o = .ok c) (new : Cell) :
    Alters (fun p c => if p = o then new else c) a (a.setCell o new) := by
  refine ⟨size_setCell .., fun p d hd => ?_⟩
  rw [cell_setCell (lt_size_of_cell hc)]
  split
  · rfl
  · exact hd

/-! ## Operations -/

theorem exists_modify (hc : a.cell o = .ok c) (change : Cell → Cell) :
    ∃ b, a.modify o change = .ok b ∧ Alters (fun p c => if p = o then change c else c) a b := by
  refine ⟨_, modify_eq_ok.2 ⟨c, hc, rfl⟩, size_setCell .., fun p d hd => ?_⟩
  rw [(alters_setCell hc _).cell p d hd]
  by_cases same : p = o
  · obtain rfl := Except.ok.inj (hc.symm.trans (same ▸ hd))
    simp [same]
  · simp [same]

theorem exists_raise {n : Nat} (hc : a.cell o = .ok c) (room : c.refcount + n < Refcount.limit) :
    ∃ b, a.raise o n = .ok b ∧
      Alters (fun p c => if p = o then { c with refcount := c.refcount + n } else c) a b := by
  obtain ⟨b, changed, alters⟩ := exists_modify hc fun c => { c with refcount := c.refcount + n }
  obtain ⟨_, hc', rfl⟩ := modify_eq_ok.1 changed
  obtain rfl := Except.ok.inj (hc.symm.trans hc')
  exact ⟨_, raise_eq_ok.2 ⟨c, hc, room, rfl⟩, alters⟩

theorem exists_link {h : HostRef} (hc : a.cell o = .ok c)
    (room : c.refcount + Refcount.hostBias < Refcount.limit) :
    ∃ b, a.link o h = .ok b ∧ Alters (fun p c => if p = o then
      { c with refcount := c.refcount + Refcount.hostBias, bridge := some h } else c) a b := by
  obtain ⟨a₁, bridged, first⟩ := exists_modify hc fun c => { c with bridge := some h }
  have hc₁ := first.cell o c hc
  rw [if_pos rfl] at hc₁
  obtain ⟨b, biased, second⟩ := exists_raise (n := Refcount.hostBias) hc₁ room
  refine ⟨b, bind_eq_ok.2 ⟨a₁, bridged, biased⟩, (first.trans second).congr fun p c => ?_⟩
  split <;> simp

def withRef (o p q : ObjectId) (c : Cell) : Cell :=
  { c with
    refcount := c.refcount + [p].count q
    references := c.references ++ if q = o then [p] else [] }

theorem exists_addRef (source : o.index < a.size) (target : p.index < a.size)
    (room : ∀ c, a.cell p = .ok c → c.refcount + 1 < Refcount.limit) :
    ∃ b, a.addRef o p = .ok b ∧ Alters (withRef o p) a b := by
  obtain ⟨c, hc⟩ := cell_of_lt source
  obtain ⟨d, hd⟩ := cell_of_lt target
  obtain ⟨a₁, added, first⟩ := exists_modify hc fun c =>
    { c with references := c.references ++ [p] }
  have hd₁ := first.cell p d hd
  obtain ⟨b, counted, second⟩ := exists_raise (n := 1) hd₁ (by
    have := room d hd
    split <;> exact this)
  refine ⟨b, bind_eq_ok.2 ⟨a₁, added, counted⟩, (first.trans second).congr fun q c => ?_⟩
  simp only [withRef, List.count_singleton, beq_iff_eq, eq_comm (a := p)]
  split <;> split <;> simp

def redirected (o : ObjectId) (slot : Nat) (p old q : ObjectId) (c : Cell) : Cell :=
  { c with
    refcount := c.refcount + [p].count q - [old].count q
    references := if q = o then c.references.set slot p else c.references }

theorem exists_retarget {slot : Nat} {old : ObjectId} (hc : a.cell o = .ok c)
    (refers : c.references[slot]? = some old) (valid : old.index < a.size)
    (target : p.index < a.size)
    (room : ∀ c, a.cell p = .ok c → c.refcount + 1 < Refcount.limit) :
    ∃ b, a.retarget o slot p = .ok b ∧ Alters (redirected o slot p old) a b := by
  obtain ⟨d, hd⟩ := cell_of_lt target
  obtain ⟨a₁, stored, first⟩ := exists_modify hc fun c =>
    { c with references := c.references.set slot p }
  obtain ⟨_, hc', rfl⟩ := modify_eq_ok.1 stored
  obtain rfl := Except.ok.inj (hc.symm.trans hc')
  obtain ⟨a₂, counted, second⟩ := exists_raise (n := 1) (first.cell p d hd) (by
    have := room d hd
    split <;> exact this)
  obtain ⟨e, he⟩ := cell_of_lt (second.size.trans first.size ▸ valid : old.index < a₂.size)
  obtain ⟨b, uncounted, third⟩ := exists_modify he fun c => { c with refcount := c.refcount - 1 }
  refine ⟨b, retarget_eq_ok.2 ⟨c, old, a₂, hc, refers, counted, uncounted⟩,
    ((first.trans second).trans third).congr fun q c => ?_⟩
  simp only [redirected, List.count_singleton, beq_iff_eq, eq_comm (a := p), eq_comm (a := old)]
  split <;> split <;> split <;> simp

/-- References that are added one after the other. Each object gets as many counts as there are
references to it, and its own references in order. -/
theorem exists_addRefs (refs : List (ObjectId × ObjectId))
    (valid : ∀ r ∈ refs, r.1.index < a.size ∧ r.2.index < a.size)
    (room : ∀ o c, a.cell o = .ok c →
      c.refcount + (refs.map Prod.snd).count o < Refcount.limit) :
    ∃ b, refs.foldlM (fun a r => a.addRef r.1 r.2) a = .ok b ∧
      Alters (fun o c => { c with
        refcount := c.refcount + (refs.map Prod.snd).count o
        references := c.references ++ (refs.filter (·.1 = o)).map Prod.snd }) a b := by
  induction refs generalizing a with
  | nil => exact ⟨a, rfl, rfl, fun o c hc => by simpa using hc⟩
  | cons r refs ih =>
    obtain ⟨o, p⟩ := r
    simp only [List.forall_mem_cons, List.map_cons] at valid room
    obtain ⟨⟨source, target⟩, valid⟩ := valid
    obtain ⟨a₁, added, first⟩ := exists_addRef source target fun c hc => by
      have := room p c hc
      rw [List.count_cons_self] at this
      omega
    have room₁ : ∀ q c, a₁.cell q = .ok c →
        c.refcount + (refs.map Prod.snd).count q < Refcount.limit := by
      intro q c hc
      obtain ⟨d, hd, rfl⟩ := first.exists_of_cell hc
      have := room q d hd
      rw [List.count_cons] at this
      simp only [withRef, List.count_singleton]
      omega
    obtain ⟨b, others, second⟩ := ih (a := a₁) (by simpa only [first.size] using valid) room₁
    refine ⟨b, ?_, (first.trans second).congr fun q c => ?_⟩
    · rw [List.foldlM_cons, added]
      exact others
    · simp only [withRef, List.count_cons, List.count_nil, List.map_cons, List.filter_cons,
        List.append_assoc, Cell.mk.injEq]
      grind

/-! ## Rings -/

def ringRefs (first n : Nat) : List (ObjectId × ObjectId) :=
  (List.range n).map fun k => (⟨first + k⟩, ⟨first + (k + 1) % n⟩)

theorem zip_rotateLeft (first n : Nat) :
    (ObjectId.range first n).zip ((ObjectId.range first n).rotateLeft 1) = ringRefs first n := by
  match n with
  | 0 => rfl
  | 1 => simp [ringRefs, ObjectId.range, List.rotateLeft]
  | n + 2 =>
    have turned : (ObjectId.range first (n + 2)).rotateLeft 1 =
        ObjectId.range (first + 1) (n + 1) ++ [⟨first⟩] := by
      simp [ObjectId.range, List.rotateLeft, List.range'_succ]
    rw [turned]
    refine List.ext_getElem (by simp [ringRefs, ObjectId.range]) fun k hk _ => ?_
    have bound : k < n + 2 := by simpa [ObjectId.range] using hk
    simp only [List.getElem_zip, List.getElem_map, List.getElem_range, List.getElem_append,
      ringRefs, ObjectId.range, List.getElem_range', List.length_map, List.length_range']
    by_cases last : k < n + 1
    · have : (k + 1) % (n + 2) = k + 1 := Nat.mod_eq_of_lt (by omega)
      simp only [last, this, dite_true]
      grind
    · obtain rfl : k = n + 1 := by omega
      simp

/-- Every place of a ring comes after exactly one place. -/
theorem count_next (n k : Nat) : ((List.range n).map fun k => (k + 1) % n).count k =
    if k < n then 1 else 0 := by
  have nodup : ((List.range n).map fun k => (k + 1) % n).Nodup := by
    refine List.nodup_range.map_on fun i hi j hj same => ?_
    rw [List.mem_range] at hi hj
    have next : ∀ k < n, (k + 1) % n = if k + 1 = n then 0 else k + 1 := by
      intro k bound
      split
      · next last => rw [last, Nat.mod_self]
      · exact Nat.mod_eq_of_lt (by omega)
    rw [next i hi, next j hj] at same
    grind
  rw [nodup.count]
  refine if_congr ?_ rfl rfl
  simp only [List.mem_map, List.mem_range]
  constructor
  · rintro ⟨i, hi, rfl⟩
    exact Nat.mod_lt _ (Nat.zero_lt_of_lt hi)
  · intro bound
    cases k with
    | zero => exact ⟨n - 1, by omega, by rw [Nat.sub_add_cancel bound, Nat.mod_self]⟩
    | succ k => exact ⟨k, by omega, Nat.mod_eq_of_lt bound⟩

theorem count_ringRefs (first n k : Nat) : ((ringRefs first n).map Prod.snd).count ⟨first + k⟩ =
    if k < n then 1 else 0 := by
  rw [← count_next, ← List.count_map_of_injective _ (fun k => ObjectId.mk (first + k))
    (fun i j same => by simpa using same)]
  simp [ringRefs, Function.comp_def]

theorem filter_ringRefs (first n k : Nat) :
    ((ringRefs first n).filter (·.1 = ⟨first + k⟩)).map Prod.snd =
      if k < n then [⟨first + (k + 1) % n⟩] else [] := by
  have same : (ringRefs first n).filter (·.1 = ⟨first + k⟩) = ((List.range n).filter (· = k)).map
      fun k => (⟨first + k⟩, ⟨first + (k + 1) % n⟩) := by
    simp [ringRefs, List.filter_map, Function.comp_def]
  rw [same, List.filter_eq, List.nodup_range.count]
  simp only [List.mem_range]
  split <;> rfl

/-- A ring has nothing to do with what was there before. -/
theorem ringRefs_apart {first : Nat} (old : o.index < first) (n : Nat) :
    ((ringRefs first n).map Prod.snd).count o = 0 ∧ (ringRefs first n).filter (·.1 = o) = [] := by
  obtain ⟨i⟩ := o
  dsimp only at old
  simp only [List.count_eq_zero, List.filter_eq_nil_iff]
  constructor
  · simp only [ringRefs, List.map_map, List.mem_map, Function.comp_apply, ObjectId.mk.injEq]
    rintro ⟨k, -, same⟩
    omega
  · simp only [ringRefs, List.mem_map, decide_eq_true_eq]
    rintro _ ⟨k, -, rfl⟩
    simp only [ObjectId.mk.injEq]
    omega

/-- A new ring. The other objects stay as they are. -/
theorem exists_allocRing (n : Nat) (room : ∀ o c, a.cell o = .ok c → c.refcount < Refcount.limit) :
    ∃ b, a.allocRing n = .ok (ObjectId.range a.size n, b) ∧ b.size = a.size + n ∧
      (∀ o c, a.cell o = .ok c → b.cell o = .ok c) ∧
      ∀ k < n, b.cell ⟨a.size + k⟩ =
        .ok { refcount := 1, references := [⟨a.size + (k + 1) % n⟩] } := by
  have size : (a.alloc n).2.size = a.size + n := by simp [Arena.alloc, Arena.size]
  have valid : ∀ r ∈ ringRefs a.size n,
      r.1.index < (a.alloc n).2.size ∧ r.2.index < (a.alloc n).2.size := by
    intro r mem
    obtain ⟨k, hk, rfl⟩ := List.mem_map.1 mem
    have bound := List.mem_range.1 hk
    have next := Nat.mod_lt (k + 1) (Nat.zero_lt_of_lt bound)
    rw [size]
    exact ⟨Nat.add_lt_add_left bound _, Nat.add_lt_add_left next _⟩
  obtain ⟨b, added, alters⟩ := exists_addRefs (ringRefs a.size n) valid fun o c hc => by
    rcases cell_of_alloc hc with old | ⟨fresh, rfl⟩
    · rw [(ringRefs_apart (lt_size_of_cell old) n).1]
      exact room o c old
    · obtain ⟨k, same⟩ := Nat.exists_eq_add_of_le fresh
      obtain rfl : o = ⟨a.size + k⟩ := congrArg ObjectId.mk same
      rw [count_ringRefs]
      split <;> decide
  refine ⟨b, ?_, alters.size.trans size, fun o c hc => ?_, fun k bound => ?_⟩
  · have tied : ((ObjectId.range a.size n).zip ((ObjectId.range a.size n).rotateLeft 1)).foldlM
        (fun a r => a.addRef r.1 r.2) (a.alloc n).2 = .ok b := by
      rw [zip_rotateLeft]
      exact added
    exact bind_eq_ok.2 ⟨b, tied, rfl⟩
  · obtain ⟨uncounted, unchanged⟩ := ringRefs_apart (lt_size_of_cell hc) n
    rw [alters.cell o c (cell_alloc hc n), uncounted, unchanged]
    simp
  · obtain ⟨c, hc⟩ := cell_of_lt (a := (a.alloc n).2) (o := ⟨a.size + k⟩)
      (size ▸ Nat.add_lt_add_left bound _)
    rw [alters.cell _ c hc, count_ringRefs, filter_ringRefs, if_pos bound, if_pos bound]
    rcases cell_of_alloc hc with old | ⟨-, rfl⟩
    · exact absurd (lt_size_of_cell old) (by simp)
    · rfl

end CycleCollector.Arena
