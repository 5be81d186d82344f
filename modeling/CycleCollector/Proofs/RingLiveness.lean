import CycleCollector.Proofs.Rings
/-!
# Which rings are alive

All objects of a ring are alive or none is, for the ring leads from each of them to each other. It
is alive if the program holds its last object, or if the host counterpart of its first object is a
root. So what is alive and what is not is counted in rings.

## Main definitions

* `Demo.Arguments.Alive`: which rings are alive.
* `Demo.Arguments.aliveRings`, `Demo.Arguments.deadRings`: how many are and how many are not.

## Main statements

* `Demo.Scene.Built.live_iff`: an object is live if its ring is alive.
* `Demo.Scene.Built.length_dead`: how many objects are not live.
-/

namespace CycleCollector.Demo

namespace Arguments

variable (args : Arguments)

def Alive (i : Nat) : Prop := i < args.held ∨ args.bridged = true ∧ i < args.rooted

instance (i : Nat) : Decidable (args.Alive i) :=
  inferInstanceAs (Decidable (i < args.held ∨ args.bridged = true ∧ i < args.rooted))

def ringOf : Node → Nat
  | .foreign o => o.index / args.ringSize
  | .host h => h.index

def aliveRings : Nat := (List.range args.rings).countP fun i => decide (args.Alive i)

def deadRings : Nat := (List.range args.rings).countP fun i => decide ¬args.Alive i

variable {args} in
theorem ringOf_object {i k : Nat} (place : k < args.ringSize) :
    args.ringOf (.foreign (args.object i k)) = i := div_object place

end Arguments

/-- What holds of whole rings is counted in rings. -/
theorem countP_div {n : Nat} (nonempty : 1 ≤ n) (p : Nat → Bool) (m : Nat) :
    (List.range (m * n)).countP (fun j => p (j / n)) = n * (List.range m).countP p := by
  induction m with
  | zero => simp
  | succ m ih =>
    have ring : ∀ k ∈ List.range n, (m * n + k) / n = m := by
      intro k mem
      rw [Nat.mul_comm, Nat.mul_add_div nonempty, Nat.div_eq_of_lt (List.mem_range.1 mem)]
      rfl
    have last : ((List.range n).map (m * n + ·)).countP (fun j => p (j / n)) =
        if p m then n else 0 := by
      rw [List.countP_map, List.countP_congr (q := fun _ => p m)
        fun k mem => by simp [ring k mem]]
      split <;> simp_all
    rw [Nat.succ_mul, List.range_add, List.countP_append, ih, last, List.range_succ,
      List.countP_append, Nat.mul_add, List.countP_singleton]
    split <;> simp

namespace Scene

open World (Live)

variable {args : Arguments} {s : Scene} {i k m : Nat} {o : ObjectId} {a : Arena}
  {os : List ObjectId}

namespace Built

section

variable (built : Built args m s) (nonempty : 1 ≤ args.ringSize)

include built

theorem referencesOf_object (ring : i < m) (place : k < args.ringSize) :
    s.world.foreign.referencesOf (args.object i k) =
      [args.object i ((k + 1) % args.ringSize)] :=
  Arena.referencesOf_eq (built.cell i ring k place)

include nonempty

/-- What is live belongs to a ring that is alive. -/
theorem alive_of_live {x : Node} (live : Live s.world (args.ledger m) s.world.Unreleased x) :
    args.Alive (args.ringOf x) := by
  have last : args.ringSize - 1 < args.ringSize := by omega
  induction live with
  | held mem =>
    obtain ⟨i, -, held, rfl⟩ := Arguments.mem_held.1 mem
    rw [Arguments.ringOf_object last]
    exact .inl held
  | root mem =>
    rw [built.roots, Arguments.mem_roots] at mem
    exact .inr ⟨mem.1, mem.2.2⟩
  | prebuilt _ _ prebuilt => exact absurd prebuilt built.not_prebuilt
  | reference _ refers ih =>
    obtain ⟨c, hc, mem⟩ := Arena.mem_referencesOf.1 refers
    obtain ⟨i, -, k, place, rfl, rfl⟩ := built.exists_of_cell hc
    obtain rfl := List.mem_singleton.1 mem
    rw [Arguments.ringOf_object place] at ih
    rwa [Arguments.ringOf_object (Nat.mod_lt _ nonempty)]
  | across _ _ bridge ih =>
    obtain ⟨-, -, rfl⟩ := (built.bridge_iff nonempty).1 bridge
    rwa [Arguments.ringOf_object nonempty] at ih
  | back _ _ bridge ih =>
    obtain ⟨-, -, rfl⟩ := (built.bridge_iff nonempty).1 bridge
    rwa [Arguments.ringOf_object nonempty]
  | edge _ points => exact absurd points built.not_points

theorem live_iff (ring : i < m) (place : k < args.ringSize) :
    Live s.world (args.ledger m) s.world.Unreleased (.foreign (args.object i k)) ↔
      args.Alive i := by
  constructor
  · intro live
    have alive := built.alive_of_live nonempty live
    rwa [Arguments.ringOf_object place] at alive
  · intro alive
    -- one object of the ring is live for a reason outside the ring
    have first : ∃ j < args.ringSize,
        Live s.world (args.ledger m) s.world.Unreleased (.foreign (args.object i j)) := by
      rcases alive with held | ⟨bridged, rooted⟩
      · exact ⟨args.ringSize - 1, by omega, .held (Arguments.mem_held.2 ⟨i, ring, held, rfl⟩)⟩
      · have root : (⟨i⟩ : HostRef) ∈ s.world.host.roots := by
          rw [built.roots]
          exact Arguments.mem_roots.2 ⟨bridged, ring, rooted⟩
        have bridge := (built.bridge_iff nonempty (h := ⟨i⟩)).2 ⟨bridged, ring, rfl⟩
        refine ⟨0, nonempty, .back (.root root) ?_ bridge⟩
        exact built.unreleased_iff.2 (Arguments.index_object_lt ring nonempty)
    obtain ⟨j, place', live⟩ := first
    -- and the ring leads from there to all others
    have around : ∀ d, Live s.world (args.ledger m) s.world.Unreleased
        (.foreign (args.object i ((j + d) % args.ringSize))) := by
      intro d
      induction d with
      | zero => rwa [Nat.add_zero, Nat.mod_eq_of_lt place']
      | succ d ih =>
        refine ih.reference ?_
        rw [built.referencesOf_object ring (Nat.mod_lt _ nonempty), Nat.mod_add_mod]
        exact List.mem_singleton.2 rfl
    have whole := around (args.ringSize - j + k)
    rwa [show j + (args.ringSize - j + k) = k + args.ringSize by omega, Nat.add_mod_right,
      Nat.mod_eq_of_lt place] at whole

/-- The objects that are not live, told by their places. -/
theorem dead_iff (o : ObjectId) : s.world.Unreleased o ∧
      ¬Live s.world (args.ledger m) s.world.Unreleased (.foreign o) ↔
    o.index < m * args.ringSize ∧ ¬args.Alive (o.index / args.ringSize) := by
  rw [built.unreleased_iff]
  refine and_congr_right fun bound => not_congr ?_
  obtain ⟨i, ring, k, place, rfl⟩ := Arguments.exists_object bound
  rw [built.live_iff nonempty ring place, Arguments.div_object place]

end

section

variable (built : Built args args.rings s) (nonempty : 1 ≤ args.ringSize)

include built nonempty

theorem length_dead (nodup : os.Nodup) (dead : ∀ o, o ∈ os ↔ s.world.Unreleased o ∧
      ¬Live s.world (args.ledger args.rings) s.world.Unreleased (.foreign o)) :
    os.length = args.ringSize * args.deadRings := by
  have same : os.Perm (((List.range (args.rings * args.ringSize)).filter
      fun j => decide ¬args.Alive (j / args.ringSize)).map ObjectId.mk) := by
    refine (List.perm_ext_iff_of_nodup nodup ?_).2 fun o => ?_
    · exact (List.nodup_range.filter _).map fun i j same => congrArg ObjectId.index same
    · rw [dead, built.dead_iff nonempty]
      simp only [List.mem_map, List.mem_filter, List.mem_range, decide_eq_true_eq]
      constructor
      · exact fun told => ⟨o.index, told, rfl⟩
      · rintro ⟨j, told, rfl⟩
        exact told
  rw [same.length_eq, List.length_map, ← List.countP_eq_length_filter, Arguments.deadRings,
    ← countP_div nonempty]

omit built in
/-- How many objects are left if those of the rings that are not alive are released. -/
theorem length_liveObjects (size : a.size = args.rings * args.ringSize)
    (left : ∀ o, a.isReleased o = .ok false ↔
      o.index < args.rings * args.ringSize ∧ args.Alive (o.index / args.ringSize)) :
    a.liveObjects.length = args.ringSize * args.aliveRings := by
  rw [Arena.length_liveObjects, size, Arguments.aliveRings, ← countP_div nonempty]
  refine List.countP_congr fun j mem => ?_
  simp [left, List.mem_range.1 mem]

end

end Built

end Scene

end CycleCollector.Demo
