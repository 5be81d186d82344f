import CycleCollector.Proofs.Books
import CycleCollector.Session.Command
/-!
# What a mutation writes

Whatever the program does to an arena comes down to allocating objects and to writing one cell after
the other. A mutation that is no release leaves every object the mark of its release, and one that
links nothing leaves every object its bridge. So what a mutation keeps can be read off what a write
keeps.

## Main definitions

* `Arena.Rewrites`: allocations and writes of cells that stand in a relation.
* `Arena.KeepsBridges`, `Arena.KeepsLogs`: what an arena keeps.

## Main statements

* `Arena.rewrites_of_apply`: what a mutation that is no release does.
* `Arena.keepsBridges_of_apply`, `Arena.keepsLogs_of_apply`: what it keeps.
-/

namespace CycleCollector.Arena

variable {a b : Arena} {R : Cell → Cell → Prop} {os : List ObjectId} {o p : ObjectId} {c c' : Cell}

/-! ## Writes -/

/-- `b` comes from `a` by allocations and by writes of cells that stand in a relation. -/
inductive Rewrites (R : Cell → Cell → Prop) (a : Arena) : Arena → Prop
  | refl : Rewrites R a a
  | write {b : Arena} {o : ObjectId} {c c' : Cell} :
      Rewrites R a b → b.cell o = .ok c → R c c' → Rewrites R a (b.setCell o c')
  | alloc {b : Arena} (n : Nat) : Rewrites R a b → Rewrites R a (b.alloc n).2

theorem Rewrites.trans {a₁ a₂ a₃ : Arena} (first : Rewrites R a₁ a₂) (second : Rewrites R a₂ a₃) :
    Rewrites R a₁ a₃ := by
  induction second with
  | refl => exact first
  | write _ hc holds ih => exact ih.write hc holds
  | alloc n _ ih => exact ih.alloc n

theorem rewrites_setCell (hc : a.cell o = .ok c) (holds : R c c') : Rewrites R a (a.setCell o c') :=
  Rewrites.refl.write hc holds

theorem rewrites_modify {f : Cell → Cell} (done : a.modify o f = .ok b)
    (holds : ∀ c, R c (f c)) : Rewrites R a b := by
  obtain ⟨c, hc, rfl⟩ := modify_eq_ok.1 done
  exact rewrites_setCell hc (holds c)

section Operations

variable (counts : ∀ c n, R c { c with refcount := n })

include counts

theorem rewrites_raise {n : Nat} (done : a.raise o n = .ok b) : Rewrites R a b := by
  obtain ⟨c, hc, -, rfl⟩ := raise_eq_ok.1 done
  exact rewrites_setCell hc (counts c _)

variable (stores : ∀ c os, R c { c with references := os })

include stores

theorem rewrites_addRef (done : a.addRef o p = .ok b) : Rewrites R a b := by
  simp only [addRef, bind_eq_ok] at done
  obtain ⟨a₁, added, counted⟩ := done
  exact (rewrites_modify added fun c => stores c _).trans (rewrites_raise counts counted)

omit counts in
theorem rewrites_forgetRef {found : Bool} (done : a.forgetRef o p = .ok (found, b)) :
    Rewrites R a b := by
  simp only [forgetRef, bind_eq_ok] at done
  obtain ⟨c, hc, done⟩ := done
  split at done
  · obtain ⟨-, rfl⟩ := Prod.mk.inj (pure_eq_ok.1 done)
    exact rewrites_setCell hc (stores c _)
  · obtain ⟨-, rfl⟩ := Prod.mk.inj (pure_eq_ok.1 done)
    exact .refl

theorem rewrites_removeRef {found : Bool} (done : a.removeRef o p = .ok (found, b)) :
    Rewrites R a b := by
  simp only [removeRef, bind_eq_ok] at done
  obtain ⟨⟨found', a₁⟩, forgotten, done⟩ := done
  have dropped := rewrites_forgetRef stores forgotten
  split at done
  · obtain ⟨a₂, uncounted, done⟩ := bind_eq_ok.1 done
    obtain ⟨-, rfl⟩ := Prod.mk.inj (pure_eq_ok.1 done)
    exact dropped.trans (rewrites_modify uncounted fun c => counts c _)
  · obtain ⟨-, rfl⟩ := Prod.mk.inj (pure_eq_ok.1 done)
    exact dropped

theorem rewrites_retarget {slot : Nat} (done : a.retarget o slot p = .ok b) : Rewrites R a b := by
  obtain ⟨c, old, a₁, hc, -, counted, uncounted⟩ := retarget_eq_ok.1 done
  exact ((rewrites_setCell hc (stores c _)).trans (rewrites_raise counts counted)).trans
    (rewrites_modify uncounted fun c => counts c _)

theorem rewrites_allocRing {n : Nat} (done : a.allocRing n = .ok (os, b)) : Rewrites R a b := by
  simp only [allocRing, bind_eq_ok, pure_eq_ok] at done
  obtain ⟨a₁, tied, done⟩ := done
  obtain ⟨-, rfl⟩ := Prod.mk.inj done
  exact foldlM_induction (P := Rewrites R a) tied (Rewrites.refl.alloc n)
    fun _ _ _ _ rewrites added => rewrites.trans (rewrites_addRef counts stores added)

end Operations

/-! ## Mutations -/

variable {m : Mutation} {reply : Reply}

/-- A mutation that is no release leaves each object the mark of its release, and unless it links
one each object its bridge. -/
theorem rewrites_of_apply (other : ∀ o, m ≠ .release o)
    (writes : ∀ c c', c'.released = c.released → (c'.bridge = c.bridge ∨ ∃ o h, m = .link o h) →
      R c c')
    (done : m.apply a = .ok (reply, b)) : Rewrites R a b := by
  have counts : ∀ c n, R c { c with refcount := n } := fun c n => writes c _ rfl (.inl rfl)
  have stores : ∀ c os, R c { c with references := os } := fun c os => writes c _ rfl (.inl rfl)
  cases m with
  | alloc count =>
    obtain ⟨-, rfl⟩ := Prod.mk.inj (Except.ok.inj done)
    exact Rewrites.refl.alloc count
  | allocRing count =>
    simp only [Mutation.apply, bind_eq_ok, pure_eq_ok] at done
    obtain ⟨⟨os, _⟩, tied, done⟩ := done
    obtain ⟨-, rfl⟩ := Prod.mk.inj done
    exact rewrites_allocRing counts stores tied
  | addRef source target =>
    obtain ⟨_, added, done⟩ := map_eq_ok.1 done
    exact (Prod.mk.inj done).2 ▸ rewrites_addRef counts stores added
  | addUncounted source target =>
    obtain ⟨_, added, done⟩ := map_eq_ok.1 done
    exact (Prod.mk.inj done).2 ▸ rewrites_modify added fun c => stores c _
  | removeRef source target =>
    simp only [Mutation.apply, bind_eq_ok, pure_eq_ok] at done
    obtain ⟨⟨found, _⟩, removed, done⟩ := done
    obtain ⟨-, rfl⟩ := Prod.mk.inj done
    exact rewrites_removeRef counts stores removed
  | forgetRef source target =>
    simp only [Mutation.apply, bind_eq_ok, pure_eq_ok] at done
    obtain ⟨⟨found, _⟩, forgotten, done⟩ := done
    obtain ⟨-, rfl⟩ := Prod.mk.inj done
    exact rewrites_forgetRef stores forgotten
  | retarget o slot target =>
    obtain ⟨_, pointed, done⟩ := map_eq_ok.1 done
    exact (Prod.mk.inj done).2 ▸ rewrites_retarget counts stores pointed
  | incref o =>
    obtain ⟨_, counted, done⟩ := map_eq_ok.1 done
    exact (Prod.mk.inj done).2 ▸ rewrites_raise counts counted
  | decref o =>
    obtain ⟨_, uncounted, done⟩ := map_eq_ok.1 done
    exact (Prod.mk.inj done).2 ▸ rewrites_modify uncounted fun c => counts c _
  | setRefcount o raw =>
    obtain ⟨_, set, done⟩ := map_eq_ok.1 done
    exact (Prod.mk.inj done).2 ▸ rewrites_modify set fun c => counts c _
  | link o h =>
    obtain ⟨_, linked, done⟩ := map_eq_ok.1 done
    obtain ⟨-, rfl⟩ := Prod.mk.inj done
    simp only [link, bind_eq_ok] at linked
    obtain ⟨a₁, bridged, biased⟩ := linked
    have bridges : ∀ c, R c { c with bridge := some h } :=
      fun c => writes c _ rfl (.inr ⟨o, h, rfl⟩)
    exact (rewrites_modify bridged bridges).trans (rewrites_raise counts biased)
  | setFinalizer o kind =>
    obtain ⟨_, set, done⟩ := map_eq_ok.1 done
    exact (Prod.mk.inj done).2 ▸ rewrites_modify set fun c => writes c _ rfl (.inl rfl)
  | setAtomic o =>
    obtain ⟨_, set, done⟩ := map_eq_ok.1 done
    exact (Prod.mk.inj done).2 ▸ rewrites_modify set fun c => writes c _ rfl (.inl rfl)
  | release o => exact absurd rfl (other o)

/-! ## Bridges -/

def KeepsBridges (a b : Arena) : Prop := ∀ o h, a.bridge o = .ok h → b.bridge o = .ok h

theorem bridge_setCell (hc : a.cell o = .ok c) (c' : Cell) (p : ObjectId) :
    (a.setCell o c').bridge p = if p = o then .ok c'.bridge else a.bridge p := by
  rw [bridge, cell_setCell (lt_size_of_cell hc)]
  split <;> rfl

theorem Rewrites.keepsBridges (rewrites : Rewrites R a b)
    (same : ∀ c c', R c c' → c'.bridge = c.bridge) : KeepsBridges a b := by
  intro p h bridged
  induction rewrites with
  | refl => exact bridged
  | @write b o c c' _ hc holds ih =>
    rw [bridge_setCell hc]
    split
    · next here =>
      rw [← ih, here, bridge, hc, same c c' holds]
      rfl
    · exact ih
  | alloc n _ ih =>
    obtain ⟨c, hc, rfl⟩ := map_eq_ok.1 ih
    exact map_eq_ok.2 ⟨c, cell_alloc hc n, rfl⟩

/-- A mutation that links nothing keeps the bridges. -/
theorem keepsBridges_of_apply (other : ∀ o, m ≠ .release o) (unlinked : ∀ o h, m ≠ .link o h)
    (done : m.apply a = .ok (reply, b)) : KeepsBridges a b := by
  have rewrites : Rewrites (fun c c' => c'.bridge = c.bridge) a b :=
    rewrites_of_apply other
      (fun _ _ _ bridges => bridges.resolve_right fun ⟨o, h, links⟩ => unlinked o h links) done
  exact rewrites.keepsBridges fun _ _ same => same

/-! ## Logs -/

structure KeepsLogs (a b : Arena) : Prop where
  released : b.released = a.released
  legacyGarbage : b.legacyGarbage = a.legacyGarbage
  untracked : b.untracked = a.untracked
  marks : ∀ o, b.isReleased o = .ok true ↔ a.isReleased o = .ok true

theorem isReleased_setCell (hc : a.cell o = .ok c) (c' : Cell) (p : ObjectId) :
    (a.setCell o c').isReleased p = if p = o then .ok c'.released else a.isReleased p := by
  rw [isReleased, cell_setCell (lt_size_of_cell hc)]
  split <;> rfl

theorem isReleased_alloc (a : Arena) (n : Nat) (o : ObjectId) :
    (a.alloc n).2.isReleased o = .ok true ↔ a.isReleased o = .ok true := by
  simp only [isReleased, map_eq_ok]
  constructor
  · rintro ⟨c, hc, gone⟩
    rcases cell_of_alloc hc with old | ⟨-, rfl⟩
    · exact ⟨c, old, gone⟩
    · simp at gone
  · rintro ⟨c, hc, gone⟩
    exact ⟨c, cell_alloc hc n, gone⟩

theorem Rewrites.keepsLogs (rewrites : Rewrites R a b)
    (same : ∀ c c', R c c' → c'.released = c.released) : KeepsLogs a b := by
  induction rewrites with
  | refl => exact ⟨rfl, rfl, rfl, fun _ => .rfl⟩
  | @write b o c c' _ hc holds ih =>
    refine ⟨ih.released, ih.legacyGarbage, ih.untracked, fun p => .trans ?_ (ih.marks p)⟩
    rw [isReleased_setCell hc]
    split
    · next here =>
      rw [here, isReleased, hc, same c c' holds]
      rfl
    · rfl
  | alloc n _ ih =>
    exact ⟨ih.released, ih.legacyGarbage, ih.untracked,
      fun p => (isReleased_alloc _ n p).trans (ih.marks p)⟩

theorem keepsLogs_of_apply (other : ∀ o, m ≠ .release o) (done : m.apply a = .ok (reply, b)) :
    KeepsLogs a b := by
  have rewrites : Rewrites (fun c c' => c'.released = c.released) a b :=
    rewrites_of_apply other (fun _ _ same _ => same) done
  exact rewrites.keepsLogs fun _ _ same => same

end CycleCollector.Arena
