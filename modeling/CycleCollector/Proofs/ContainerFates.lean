import CycleCollector.Proofs.Barriers
import CycleCollector.Proofs.Containers
import CycleCollector.Proofs.Decisions
import CycleCollector.Proofs.Idempotence
/-!
# Letting go of containers changes no other fate

A collector may be told to let go of containers before each pass, or not to. Take the same world
both ways. What leaves in one pass takes part in the other, but nothing that stays is told apart by
it: the same of it is found alive, the same is kept for legacy finalizers, and unless a container
that leaves has a modern finalizer, all that is left waits in both passes or in neither. So both
passes make the same of what stays. And the pass that lets go of containers has nothing to fear if
the other one goes through: it asks the heaps for less, and it marks no more.

## Main definitions

* `World.untracking`: a world told to let go of containers, or not to.
* `World.Drops`: what the next step lets go of.

## Main statements

* `World.Without.same_fate`: what two passes make of an object that takes part in both.
* `World.Without.exists_collect`: if one pass comes to its end, so does the other.
* `World.collect_untracking`: letting go of containers changes no other fate.
-/

namespace CycleCollector.World

open ForeignHeap

variable {w v v' w₁ x y t u : World Arena} {s₀ s : Snapshot} {gone dead dead' : List ObjectId}
  {o : ObjectId} {n : Nat}

/-! ## Two passes -/

/-- What stays is known as well, so a snapshot can be taken of it. -/
theorem Without.exists_take (without : Without v gone v') (surveys : Surveys t v s₀ s w₁) :
    ∃ taken, Snapshot.take (v'.collector.sets.merged .new .inCollection) v'.foreign v'.host =
      .ok taken := by
  refine World.exists_take fun o mem => ?_
  obtain ⟨c, hc, valid⟩ := surveys.exists_cell (without.mem_candidates.1 mem).1
  exact ⟨c, (Arena.cell_congr without.cells o).trans hc, without.host ▸ valid⟩

section Without

variable (without : Without v gone v') (plain : ∀ o ∈ gone, v.foreign.finalizer o ≠ .ok .modern)

include without plain

/-- A pass over what stays makes the same of it as a pass over everything. -/
theorem Without.same_fate (decides : Decides v dead x) (decides' : Decides v' dead' y)
    (stays : o ∉ gone) :
    (y.foreign.isReleased o = .ok true ↔ x.foreign.isReleased o = .ok true) ∧
      y.collector.sets.roleOf o = x.collector.sets.roleOf o := by
  have doomed : Doomed v'.foreign dead' o ↔ Doomed v.foreign dead o :=
    (without.doomed_iff decides.mem_dead decides'.mem_dead).trans (and_iff_left stays)
  have finalizable := without.finalizable_iff decides.mem_dead decides'.mem_dead plain
  constructor
  · rw [decides.isReleased, decides'.isReleased, Arena.isReleased_congr without.cells, doomed,
      finalizable]
  · refine TrackedSets.roleOf_congr fun r => ?_
    cases r with
    | new => simp [decides.new, decides'.new]
    | inCollection =>
      rw [decides.mem_inCollection, decides'.mem_inCollection, without.mem_candidates, doomed,
        and_iff_left stays]
    | isolated =>
      rw [decides.mem_isolated, decides'.mem_isolated, doomed, finalizable, without.members]
      simp [stays]
    | staged => simp [decides.staged, decides'.staged]

/-- It hands over no other counterparts. -/
theorem Without.handed (decides : Decides v dead x) (decides' : Decides v' dead' y)
    (stays : o ∉ gone) (handed : v'.Handed dead' y o) : v.Handed dead x o := by
  obtain ⟨tracked, held⟩ := handed
  have role := (without.same_fate plain decides decides' stays).2
  rw [← TrackedSets.isSome_roleOf, role, TrackedSets.isSome_roleOf] at tracked
  rw [without.finalizable_iff decides.mem_dead decides'.mem_dead plain, TrackedSets.mem_members,
    role, ← TrackedSets.mem_members, rawHeld_congr without.cells] at held
  exact ⟨tracked, held⟩

/-- If a pass over everything comes to its end, so does a pass over what stays. -/
theorem Without.exists_collect (passes : Passes t v s₀ s w₁ x)
    (fresh : ∀ h, ¬HostHeap.Marked t.host.objects h) (counted : t.collector.sets.Counted)
    (orderly : u.collector.Orderly) (idle : u.collector.phase = .idle)
    (on : u.collector.options.cycleDetection = true) (counted' : u.collector.sets.Counted)
    (prepared : u.prepareSets = .ok v') : ∃ n y, u.collect = .ok (n, y) := by
  have surveys := passes.toSurveys
  obtain ⟨w₂, host, finished, -, -⟩ := passes.ended
  obtain ⟨dead, decides⟩ := passes.decides
  obtain ⟨taken, htaken⟩ := without.exists_take surveys
  refine exists_collect_of_surveys orderly idle on prepared htaken (without.covered surveys.covered)
    (fun h alive => ?_) fun s₀' s' v₁ surveys' => ?_
  · have same := surveys.spreads_prepared.course.onward.same
    rw [without.host, ← HostHeap.size_of_map_unmarked same]
    exact HostHeap.Marked.lt_size
      ((surveys.marked_iff_alive h).2 (.inr (without.alive_host_iff.1 alive)))
  · have finishes : ∃ v₂, v₁.finishPass = .ok v₂ := by
      refine surveys'.exists_finishPass (fun o mem => ?_) fun dead' mem_dead none o doomed => ?_
      · rw [without.members, List.mem_filter] at mem
        obtain ⟨c, hc⟩ := surveys.exists_cell_of_isolated finished mem.1
        exact ⟨c, (Arena.cell_congr without.cells o).trans hc⟩
      · rw [without.finalizable_iff decides.mem_dead mem_dead plain] at none
        exact (decides.releasable none o
          ((without.doomed_iff decides.mem_dead mem_dead).1 doomed).1).congr without.cells
    obtain ⟨v₂, finished'⟩ := finishes
    obtain ⟨dead', decides'⟩ := surveys'.decides finished'
    -- what is handed over leads to no more than the other pass has marked
    have marked := passes.marked_iff_handed fresh counted decides
    have drains : ∃ g, v₂.host.drain = .ok g := by
      refine surveys'.exists_drain counted' finished' decides'
        (H := fun h => HostHeap.Marked x.host.objects h) (fun h k holds edge => ?_)
        (fun h holds => ?_) fun o h handed bridged => ?_
      · obtain ⟨j, path, start⟩ := (marked h).1 holds
        exact (marked k).2 ⟨j, path.step (without.host ▸ edge), start⟩
      · rw [without.host, (prepares_of_prepareSets surveys.prepared).host,
          ← HostHeap.size_of_map_unmarked passes.onward.same]
        exact holds.lt_size
      · rw [Arena.bridge_congr without.cells] at bridged
        have stays : o ∉ gone := fun left => by simp [without.unbridged o left] at bridged
        exact (marked h).2 ⟨h, .refl, .inr
          ⟨o, .inr (without.handed plain decides decides' stays handed), bridged⟩⟩
    obtain ⟨g, drained⟩ := drains
    exact ⟨v₂, g, finished', drained⟩

end Without

/-! ## With and without containers -/

def untracking (w : World Arena) (on : Bool) : World Arena :=
  { w with collector := { w.collector with
    options := { w.collector.options with untrackAtomicContainers := on } } }

def Drops (w : World Arena) (o : ObjectId) : Prop :=
  w.collector.sets.contains o = true ∧
    ∃ finished w', w.step = .ok (finished, w') ∧ w'.collector.sets.contains o = false

theorem orderly_untracking (orderly : w.collector.Orderly) (on : Bool) :
    (w.untracking on).collector.Orderly :=
  orderly.congr orderly.staged ⟨rfl, id⟩ rfl (fun _ => id) fun _ _ valid => ⟨valid, fun _ _ => id⟩

/-- What the start of a pass lets go of are the containers that leave. -/
theorem drops_iff (idle : w.collector.phase = .idle)
    (on : w.collector.options.cycleDetection = true) (prepared : w.prepareSets = .ok v)
    (departs : Departs w gone v) (started : w.startPass = .ok w₁) : w.Drops o ↔ o ∈ gone := by
  have stepped : w.step = .ok (false, w₁) := step_eq_ok.2 (.start idle on started)
  have contains : w₁.collector.sets.contains o = true ↔
      w.collector.sets.contains o = true ∧ o ∉ gone := by
    obtain ⟨_, _, _, _, prepared', -, -, -, rfl⟩ := startPass_eq_ok started
    obtain rfl := Except.ok.inj (prepared.symm.trans prepared')
    simp [departs.contains_iff]
  constructor
  · rintro ⟨tracked, finished, w', stepped', untracked⟩
    obtain ⟨-, rfl⟩ := Prod.mk.inj (Except.ok.inj (stepped.symm.trans stepped'))
    by_contra stays
    simp [contains.2 ⟨tracked, stays⟩] at untracked
  · intro left
    have tracked := TrackedSets.contains_of_mem_members (departs.fresh o left)
    refine ⟨tracked, false, w₁, stepped, Bool.eq_false_iff.2 fun here => ?_⟩
    exact (contains.1 here).2 left

/-- A sweep lets go of nothing, and does not look at the option. -/
theorem sweep_untracking (swept : w.sweep = .ok x) (on : Bool) :
    (w.untracking on).sweep = .ok (x.untracking on) ∧ x.collector.sets = w.collector.sets := by
  have same : ∀ evidence os, (w.untracking on).heldBridges evidence os =
      w.heldBridges evidence os := heldBridges_congr rfl rfl
  simp only [sweep, markBorder, same, bind_eq_ok, pure_eq_ok] at swept ⊢
  obtain ⟨_, ⟨fresh, hfresh, collected, hcollected, isolated, hisolated, rfl⟩, rfl⟩ := swept
  exact ⟨⟨_, ⟨fresh, hfresh, collected, hcollected, isolated, hisolated, rfl⟩, rfl⟩, rfl⟩

/-- No member of a cycle of tracked objects is let go of. -/
theorem not_drops_of_cycle (idle : w.collector.phase = .idle)
    (cycle : Relation.TransGen w.Refers o o) : ¬w.Drops o := by
  rintro ⟨tracked, finished, w', stepped, untracked⟩
  cases step_eq_ok.1 stepped with
  | start _ on started =>
    obtain ⟨v, _, _, _, prepared, -⟩ := startPass_eq_ok started
    obtain ⟨gone, departs⟩ := departs_of_prepareSets prepared
    exact departs.not_on_cycle cycle ((drops_iff idle on prepared departs started).1
      ⟨tracked, false, w', stepped, untracked⟩)
  | mark marking => simp [idle] at marking
  | finish marked => simp [idle] at marked
  | sweep _ swept => simp [(sweep_untracking swept true).2, tracked] at untracked

theorem exists_collect_of_sweep (idle : w.collector.phase = .idle)
    (off : ¬w.collector.options.cycleDetection = true) (collected : w.collect = .ok (n, x))
    (on : Bool) : ∃ m, (w.untracking on).collect = .ok (m, x.untracking on) := by
  cases completes_of_collect collected with
  | more stepped =>
    cases step_eq_ok.1 stepped with
    | start _ on => exact absurd on off
    | mark marking => simp [idle] at marking
  | last stepped drained =>
    cases step_eq_ok.1 stepped with
    | finish marked => simp [idle] at marked
    | sweep due swept =>
      have stepped' : (w.untracking on).step = .ok (true, _) :=
        step_eq_ok.2 (.sweep (.inr ⟨idle, Bool.eq_false_iff.2 off⟩) (sweep_untracking swept on).1)
      exact (Completes.last stepped' drained).exists_collect

/-- If a pass that lets go of no container comes to its end, so does one that lets go of them, and
it makes the same of what does not leave. -/
theorem exists_collect_of_pass (settled : w.collector.Settled) (idle : w.collector.phase = .idle)
    (on : w.collector.options.cycleDetection = true)
    (fresh : ∀ h, ¬HostHeap.Marked w.host.objects h)
    (collected : (w.untracking false).collect = .ok (n, x))
    (plain : ∀ o, (w.untracking true).Drops o → w.foreign.finalizer o ≠ .ok .modern) :
    ∃ m y, (w.untracking true).collect = .ok (m, y) ∧ ∀ o, ¬(w.untracking true).Drops o →
      (y.foreign.isReleased o = .ok true ↔ x.foreign.isReleased o = .ok true) ∧
        y.collector.sets.roleOf o = x.collector.sets.roleOf o := by
  have orderly := orderly_untracking settled.toOrderly
  obtain ⟨off, -⟩ | ⟨-, v, s₀, s, w₁, passes⟩ := passes_of_collect (orderly false) idle collected
  · exact absurd on (Bool.eq_false_iff.1 off)
  -- a pass that lets go of nothing starts as it is
  obtain rfl : w.untracking false = v := Except.ok.inj passes.prepared
  have surveys := passes.toSurveys
  obtain ⟨v', prepared⟩ := exists_prepareSets_of_cells (w := w.untracking true) fun o mem => by
    obtain ⟨c, hc, -⟩ := surveys.exists_cell (o := o) (mem_candidates_of_new mem)
    exact ⟨c, hc⟩
  obtain ⟨gone, departs⟩ := departs_of_prepareSets prepared
  have without : Without (w.untracking false) gone v' := { departs.without with }
  obtain ⟨taken, htaken⟩ := without.exists_take surveys
  obtain ⟨s₀', roots⟩ := (exists_roots_iff htaken).2 (without.covered surveys.covered)
  obtain ⟨u₁, started⟩ := exists_startPass (orderly true) idle prepared htaken roots
  have drops : ∀ o, (w.untracking true).Drops o ↔ o ∈ gone :=
    fun o => drops_iff idle on prepared departs started
  have plain : ∀ o ∈ gone, w.foreign.finalizer o ≠ .ok .modern :=
    fun o left => plain o ((drops o).2 left)
  obtain ⟨m, y, collected'⟩ := without.exists_collect plain passes fresh settled.counted
    (orderly true) idle on settled.counted prepared
  obtain ⟨off, -⟩ | ⟨-, v'', _, _, _, passes'⟩ := passes_of_collect (orderly true) idle collected'
  · exact absurd on (Bool.eq_false_iff.1 off)
  obtain rfl := Except.ok.inj (prepared.symm.trans passes'.prepared)
  obtain ⟨dead, decides⟩ := passes.decides
  obtain ⟨dead', decides'⟩ := passes'.decides
  exact ⟨m, y, collected', fun o stays =>
    without.same_fate plain decides decides' (mt (drops o).2 stays)⟩

/-- Suppose that an idle collector, told to let go of no container, goes undisturbed through a
collection of the host heap. Told to let go of them it does so too, provided that no container that
leaves has a modern finalizer. What does not leave has the same fate then: it is released in both
cases or in neither, and ends with the same role. And nothing leaves that is on a cycle of tracked
objects. -/
theorem collect_untracking {options : Options} {foreign : Arena} {host : HostHeap}
    {actions : List (Action Arena)}
    (ran : run { collector := { options }, foreign, host } actions = .ok w)
    (idle : w.collector.phase = .idle) (collected : (w.untracking false).begun.collect = .ok (n, x))
    (plain : ∀ o, (w.untracking true).begun.Drops o → w.foreign.finalizer o ≠ .ok .modern) :
    (∃ m y, (w.untracking true).begun.collect = .ok (m, y) ∧
      ∀ o, ¬(w.untracking true).begun.Drops o →
        (y.foreign.isReleased o = .ok true ↔ x.foreign.isReleased o = .ok true) ∧
          y.collector.sets.roleOf o = x.collector.sets.roleOf o) ∧
    ∀ o, Relation.TransGen w.Refers o o → ¬(w.untracking true).begun.Drops o := by
  have settled := settled_of_run ran (.start options)
  refine ⟨?_, fun o cycle => not_drops_of_cycle (w := (w.untracking true).begun) idle cycle⟩
  by_cases on : w.collector.options.cycleDetection = true
  · exact exists_collect_of_pass (w := w.begun) settled idle on
      (HostHeap.not_marked_beginCollection w.host) collected plain
  · obtain ⟨m, collected'⟩ :=
      exists_collect_of_sweep (w := (w.untracking false).begun) idle on collected true
    exact ⟨m, _, collected', fun o _ => ⟨.rfl, rfl⟩⟩

/-- Containers and what holds them. The first holds the second and is looked at first, so it stays.
The third leaves, then the fourth, which holds it. The fifth is on a cycle with a list, and the last
object has a legacy finalizer. -/
def containers : World Arena where
  foreign := { cells := #[
    { refcount := 1, references := [⟨1⟩], atomic := true },
    { refcount := 1, atomic := true },
    { refcount := 2, atomic := true },
    { refcount := 1, references := [⟨2⟩], atomic := true },
    { refcount := 1, references := [⟨5⟩], atomic := true },
    { refcount := 1, references := [⟨4⟩, ⟨2⟩] },
    { references := [⟨3⟩], finalizer := .legacy }] }

/-- The cycle is released whether containers leave or not, and the object with the finalizer stays;
it keeps the two containers that would leave. -/
theorem collect_untracking_containers :
    let w := containers.after ((List.range 7).map fun i => .track ⟨i⟩)
    let x := (w.untracking false).collected
    let y := (w.untracking true).collected
    (w.untracking true).begun.Drops ⟨1⟩ ∧ (w.untracking true).begun.Drops ⟨3⟩ ∧
      ¬(w.untracking true).begun.Drops ⟨4⟩ ∧
      x.foreign.released = [⟨4⟩, ⟨5⟩] ∧ y.foreign.isReleased ⟨4⟩ = .ok true ∧
      x.collector.sets.members .inCollection = [⟨0⟩, ⟨1⟩, ⟨6⟩, ⟨3⟩, ⟨2⟩] ∧
      y.collector.sets.roleOf ⟨6⟩ = some .inCollection := by
  intro w x y
  have ran : containers.run ((List.range 7).map fun i => .track ⟨i⟩) = .ok w := by decide +kernel
  have collected : (w.untracking false).begun.collect = .ok (3, x) := by decide +kernel
  have stepped : (w.untracking true).begun.step =
      .ok (false, (w.untracking true).begun.after [.step]) := by decide +kernel
  have plain : ∀ o c, w.foreign.cell o = .ok c → c.finalizer ≠ .modern :=
    Arena.forall_cell.2 (by decide +kernel)
  obtain ⟨⟨m, y', collected', same⟩, cycles⟩ := collect_untracking ran (by decide +kernel) collected
    fun o _ own => by
      obtain ⟨c, hc, modern⟩ := map_eq_ok.1 own
      exact plain o c hc modern
  have again : collect { w.untracking true with
      host := (w.untracking true).host.beginCollection } = .ok (m, y') := collected'
  obtain rfl : y' = y := by simp only [y, World.collected, again]
  have cycle : Relation.TransGen w.Refers ⟨4⟩ ⟨4⟩ :=
    .tail (b := ⟨5⟩) (.single ⟨by decide +kernel, by decide +kernel, by decide +kernel⟩)
      ⟨by decide +kernel, by decide +kernel, by decide +kernel⟩
  have stays : ¬(w.untracking true).begun.Drops ⟨6⟩ := by
    rintro ⟨-, finished, u, stepped', untracked⟩
    obtain ⟨-, rfl⟩ := Prod.mk.inj (Except.ok.inj (stepped.symm.trans stepped'))
    exact absurd untracked (by decide +kernel)
  exact ⟨⟨by decide +kernel, _, _, stepped, by decide +kernel⟩,
    ⟨by decide +kernel, _, _, stepped, by decide +kernel⟩, cycles ⟨4⟩ cycle, by decide +kernel,
    (same ⟨4⟩ (cycles ⟨4⟩ cycle)).1.2 (by decide +kernel), by decide +kernel,
    (same ⟨6⟩ stays).2.trans (by decide +kernel)⟩

end CycleCollector.World
