import CycleCollector.Proofs.Faults
import CycleCollector.Session.Basic
/-!
# Where the accounts can fail

A pass stops with `Fault.negativeExternal` when an object counts fewer references than the objects
in collection store. The faults of the heaps are of other kinds, so only the collection of roots can
stop that way: every other part of a step is *solvent*, whatever state it finds.

## Main definitions

* `Solvent`: a computation that does not stop that way.

## Main statements

* `World.solvent_step`: a step is solvent unless it starts a pass whose roots are not.
-/

namespace CycleCollector

variable {P : Fault → Prop}

/-! ## What the program does to the heaps -/

namespace Arena

variable (bounds : ∀ length index, P (.outOfBounds length index)) (overflow : P .countOverflow)
  (a : Arena) (o p : ObjectId)

include bounds

theorem stopsBy_forgetRef : StopsBy P (a.forgetRef o p) := by
  simp only [forgetRef, stopsBy_bind, stopsBy_cell bounds, true_and]
  intro c _
  split <;> simp

theorem stopsBy_removeRef : StopsBy P (a.removeRef o p) := by
  simp only [removeRef, stopsBy_bind, stopsBy_forgetRef bounds, true_and]
  rintro ⟨found, b⟩ _
  cases found <;> simp [decref, stopsBy_modify bounds]

include overflow

theorem stopsBy_raise (n : Nat) : StopsBy P (a.raise o n) := by
  simp only [raise, stopsBy_bind, stopsBy_cell bounds, true_and]
  intro c _
  split <;> simp [overflow]

theorem stopsBy_addRef : StopsBy P (a.addRef o p) := by
  simp [addRef, addUncounted, incref, stopsBy_modify bounds, stopsBy_raise bounds overflow]

theorem stopsBy_allocRing (count : Nat) : StopsBy P (a.allocRing count) := by
  simp only [allocRing, stopsBy_bind, stopsBy_pure, implies_true, and_true]
  exact stopsBy_foldlM
    (fun b (q : ObjectId × ObjectId) => b.stopsBy_addRef bounds overflow q.1 q.2) _ _

theorem stopsBy_retarget (slot : Nat) : StopsBy P (a.retarget o slot p) := by
  simp only [retarget, stopsBy_bind, stopsBy_cell bounds, true_and]
  intro c _
  split
  · simp [bounds]
  · simp [incref, decref, stopsBy_raise bounds overflow, stopsBy_modify bounds]

theorem stopsBy_apply (m : Mutation) (twice : ∀ o, m = .release o → P (.releasedTwice o)) :
    StopsBy P (m.apply a) := by
  cases m with
  | alloc => exact stopsBy_ok _
  | allocRing count => simp [Mutation.apply, stopsBy_allocRing bounds overflow]
  | addRef source target => simp [Mutation.apply, stopsBy_addRef bounds overflow]
  | removeRef source target => simp [Mutation.apply, stopsBy_removeRef bounds]
  | forgetRef source target => simp [Mutation.apply, stopsBy_forgetRef bounds]
  | retarget o slot target => simp [Mutation.apply, stopsBy_retarget bounds overflow]
  | release o => simp [Mutation.apply, stopsBy_release bounds a o fun _ => twice o rfl]
  | _ =>
    simp [Mutation.apply, addUncounted, incref, decref, setRefcount, link, setFinalizer, setAtomic,
      stopsBy_modify bounds, stopsBy_raise bounds overflow]

end Arena

theorem HostHeap.stopsBy_apply (bounds : ∀ length index, P (.outOfBounds length index))
    (g : HostHeap) (action : HostAction) : StopsBy P (action.apply g) := by
  cases action <;>
    simp [HostAction.apply, addEdge, setNoHeapPtrs, stopsBy_modify bounds, stopsBy_drain bounds]

/-! ## Solvency -/

/-- Does not stop because an object counts fewer references than are stored. -/
def Solvent {α : Type} (x : Except Fault α) : Prop := ∀ o, x ≠ .error (.negativeExternal o)

section Solvent

variable {α β : Type} {x : Except Fault α}

theorem solvent_iff_stopsBy :
    Solvent x ↔ StopsBy (fun fault => ∀ o, fault ≠ .negativeExternal o) x :=
  ⟨fun solvent _ stopped o same => solvent o (same ▸ stopped),
    fun stops o stopped => stops _ stopped o rfl⟩

@[simp] theorem solvent_ok (a : α) : Solvent (.ok a : Except Fault α) := fun _ => nofun

@[simp] theorem solvent_pure (a : α) : Solvent (pure a : Except Fault α) := solvent_ok a

@[simp] theorem solvent_bind {f : α → Except Fault β} :
    Solvent (x >>= f) ↔ Solvent x ∧ ∀ a, x = .ok a → Solvent (f a) := by
  simp only [solvent_iff_stopsBy, stopsBy_bind]

@[simp] theorem solvent_map {f : α → β} : Solvent (f <$> x) ↔ Solvent x := by
  simp only [solvent_iff_stopsBy, stopsBy_map]

end Solvent

theorem Arena.solvent_apply (a : Arena) (m : Mutation) : Solvent (m.apply a) :=
  solvent_iff_stopsBy.2 (a.stopsBy_apply (by simp) (by simp) m (by simp))

theorem HostHeap.solvent_apply (g : HostHeap) (action : HostAction) : Solvent (action.apply g) :=
  solvent_iff_stopsBy.2 (g.stopsBy_apply (by simp) action)

@[simp] theorem HostHeap.solvent_drain (g : HostHeap) : Solvent g.drain :=
  solvent_iff_stopsBy.2 (g.stopsBy_drain (by simp))

namespace World

@[simp] theorem solvent_drain (w : World Arena) : Solvent w.drain := by simp [drain]

/-- A step is solvent unless it starts a pass whose roots are not. -/
theorem solvent_step (w : World Arena)
    (roots : ∀ v taken, w.prepareSets = .ok v →
      Snapshot.take (v.collector.sets.merged .new .inCollection) v.foreign v.host = .ok taken →
      Solvent taken.collectRoots) :
    Solvent w.step := by
  refine solvent_iff_stopsBy.2 ?_
  have excuses : Excuses Arena fun fault => ∀ o, fault ≠ .negativeExternal o :=
    Arena.excuses (by simp) (by simp)
  refine w.stopsBy_step excuses.answers
    (fun foreign os _ _ _ => excuses.stopsBy_releaseAll os foreign) (by simp) (by simp) (by simp) ?_
  exact fun v taken prepared htaken => solvent_iff_stopsBy.1 (roots v taken prepared htaken)

end World

end CycleCollector
