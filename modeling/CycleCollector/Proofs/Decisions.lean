import CycleCollector.Proofs.Classification
import CycleCollector.Proofs.IsolatedBorder
/-!
# What a pass decides

What becomes of each object in an undisturbed pass is told by the world in which its snapshot was
taken: by what is alive there, by what legacy finalizers keep of the rest, and by whether a modern
finalizer is left among the others. This also tells when a marked pass can be finished. The foreign
heap has answered for all candidates already, when the snapshot was taken; there remain the objects
that were isolated before, those to be released, and the counterparts that are handed over at the
end.

## Main definitions

* `World.Decides`: what a pass makes of its candidates.
* `World.Handed`: the objects whose counterparts are handed over at the end of a pass.

## Main statements

* `World.Surveys.decides`: what a pass makes of its candidates.
* `World.Surveys.exists_finishPass`, `World.Surveys.exists_drain`: when a marked pass can be
  finished.
* `World.Passes.marked_iff_handed`: what the host heap has marked in the end.
-/

namespace CycleCollector.World

open ForeignHeap

variable {w v w₁ w₂ x : World Arena} {s₀ s : Snapshot} {dead : List ObjectId} {o : ObjectId}
  {h : HostRef}

/-! ## What a pass decides -/

/-- What an undisturbed pass makes of the candidates of the prepared world `v`: `dead` are those
that it found dead, and `x` is the world after it. -/
structure Decides (v : World Arena) (dead : List ObjectId) (x : World Arena) : Prop where
  mem_dead : ∀ o, o ∈ dead ↔ o ∈ v.candidates ∧ ¬v.Alive (.foreign o)
  new : x.collector.sets.members .new = []
  staged : x.collector.sets.members .staged = []
  mem_inCollection : ∀ o, o ∈ x.collector.sets.members .inCollection ↔
    o ∈ v.candidates ∧ ¬Doomed v.foreign dead o
  mem_isolated : ∀ o, o ∈ x.collector.sets.members .isolated ↔
    o ∈ v.collector.sets.members .isolated ∨ Doomed v.foreign dead o ∧ Finalizable v.foreign dead
  isReleased : ∀ o, x.foreign.isReleased o = .ok true ↔ v.foreign.isReleased o = .ok true ∨
    Doomed v.foreign dead o ∧ ¬Finalizable v.foreign dead
  releasable : ¬Finalizable v.foreign dead →
    ∀ o, Doomed v.foreign dead o → v.foreign.Releasable o
  outcome : ∃ released isolated legacy, x.collector.lastOutcome =
    some (.collected released isolated legacy) ∧ (isolated = 0 ↔ ¬Finalizable v.foreign dead)

section Sorts

variable {kept : List ObjectId} (sorts : w.Sorts dead kept x)

include sorts

/-- What is not kept is doomed. -/
theorem Sorts.mem_rest : o ∈ dead.filter (· ∉ kept) ↔ Doomed w.foreign dead o := by
  simp [Doomed, sorts.retained]

theorem Sorts.finalizable_iff :
    ofKind (afterReports w.foreign dead) .modern (dead.filter (· ∉ kept)) ≠ [] ↔
      Finalizable w.foreign dead := by
  rw [Arena.ofKind_afterReports, ofKind, Ne, List.filter_eq_nil_iff]
  simp only [sorts.mem_rest, decide_eq_true_eq, Finalizable, not_forall, not_not, exists_prop]

/-- What is kept is dead, so the objects in collection that are not doomed stay there. -/
theorem Sorts.mem_inCollection (subset : ∀ o ∈ dead, o ∈ w.collector.sets.members .inCollection) :
    o ∈ x.collector.sets.members .inCollection ↔
      o ∈ w.collector.sets.members .inCollection ∧ ¬Doomed w.foreign dead o := by
  have mem_dead : o ∈ kept → o ∈ dead := fun mem => ((sorts.retained o).1 mem).mem
  have mem := subset o
  rw [sorts.inCollection, ← sorts.mem_rest]
  simp only [List.mem_append, List.mem_filter, decide_eq_true_eq]
  grind

end Sorts

theorem Surveys.members_isolated (surveys : Surveys w v s₀ s w₁) :
    w₁.collector.sets.members .isolated = v.collector.sets.members .isolated := by
  simp [surveys.sets, TrackedSets.members_merged]

theorem Surveys.decides (surveys : Surveys w v s₀ s w₁) (finished : w₁.finishPass = .ok w₂) :
    ∃ dead, Decides v dead w₂ := by
  have consistent : w₂.collector.lastOutcome ≠ some .resurrected := by
    obtain ⟨_, _, _, _, _, _, _, -, -, rfl⟩ := surveys.concludes finished
    simp [endPass]
  obtain ⟨kept, sorts⟩ := sorts_of_finishPass surveys.orderly surveys.snapshot finished consistent
  have candidates := surveys.members_inCollection
  rw [candidates] at sorts
  generalize found : v.candidates.filter s.findsDead = dead at sorts
  have mem_dead : ∀ o, o ∈ dead ↔ o ∈ v.candidates ∧ ¬v.Alive (.foreign o) := fun o => by
    rw [← found, List.mem_filter]
    exact and_congr_right surveys.findsDead_iff
  have mem_inCollection := fun o => sorts.mem_inCollection (o := o)
    fun p mem => candidates ▸ ((mem_dead p).1 mem).1
  have doomed := fun o => sorts.mem_rest (o := o)
  have finalizable := sorts.finalizable_iff.trans (iff_of_eq (by rw [surveys.foreign]) :
    Finalizable w₁.foreign dead ↔ Finalizable v.foreign dead)
  have cells : (afterReports w₁.foreign dead).cells = v.foreign.cells := by
    rw [Arena.afterReports_eq, surveys.foreign]
  rw [candidates] at mem_inCollection
  rw [surveys.foreign] at doomed mem_inCollection
  have new : w₂.collector.sets.members .new = [] := by
    rw [sorts.new, surveys.sets]
    simp [TrackedSets.members_merged]
  refine ⟨dead, ?_⟩
  by_cases some : Finalizable v.foreign dead
  · obtain ⟨waiting, informed, outcome⟩ := sorts.isolates _ rfl (finalizable.2 some)
    rw [surveys.members_isolated] at waiting
    constructor
    case mem_dead => exact mem_dead
    case new => exact new
    case staged => exact sorts.staged
    case mem_inCollection => exact mem_inCollection
    case mem_isolated =>
      intro o
      rw [waiting, List.mem_append, doomed, and_iff_left some]
    case isReleased =>
      have same : w₂.foreign.cells = v.foreign.cells := informed ▸ cells
      simp [Arena.isReleased_congr same, some]
    case releasable => exact absurd some
    case outcome =>
      have rest : dead.filter (· ∉ kept) ≠ [] := by
        obtain ⟨o, here, -⟩ := some
        exact List.ne_nil_of_mem ((doomed o).2 here)
      exact ⟨_, _, _, outcome, by simpa [some] using rest⟩
  · obtain ⟨waiting, -, released, outcome⟩ :=
      sorts.releases _ rfl (not_not.1 (mt finalizable.1 some))
    rw [surveys.members_isolated] at waiting
    constructor
    case mem_dead => exact mem_dead
    case new => exact new
    case staged => exact sorts.staged
    case mem_inCollection => exact mem_inCollection
    case mem_isolated => simp [waiting, some]
    case isReleased =>
      intro o
      rw [Arena.isReleased_of_releaseAll released, Arena.isReleased_congr cells, doomed,
        and_iff_left some]
    case releasable =>
      have nodup : (dead.filter (· ∉ kept)).Nodup := found ▸ (v.nodup_candidates.filter _).filter _
      have releasable := (Arena.exists_releaseAll_iff nodup).1 ⟨_, released⟩
      exact fun _ o here => (releasable o ((doomed o).2 here)).congr cells.symm
    case outcome => exact ⟨_, _, _, outcome, by simp [some]⟩

/-! ## When a pass can be finished -/

theorem exists_bridge_of_heldBridges {evidence : Evidence} {os : List ObjectId}
    {bridges : List HostRef} (held : w.heldBridges evidence os = .ok bridges) :
    ∀ o ∈ os, ∃ b, w.foreign.bridge o = .ok b := by
  induction os generalizing bridges with
  | nil => simp
  | cons o os ih =>
    rw [heldBridges, bind_eq_ok] at held
    obtain ⟨b, answer, held⟩ := held
    refine List.forall_mem_cons.2 ⟨⟨b, answer⟩, ?_⟩
    cases b with
    | none => exact ih held
    | some h =>
      simp only [bind_eq_ok] at held
      obtain ⟨_, -, _, others, -⟩ := held
      exact ih others

/-- Border marking comes across all isolated objects. -/
theorem exists_cell_of_disposeStaged {outcome : Outcome}
    (disposed : w.disposeStaged = .ok (outcome, x))
    (mem : o ∈ w.collector.sets.members .isolated) : ∃ c, w.foreign.cell o = .ok c := by
  obtain ⟨_, w₁, _, w₂, w₃, _, kept, isolated, marked, -, -⟩ := disposeStaged_eq_ok.1 disposed
  obtain ⟨os, keeps⟩ := keeps_of_keepLegacy kept
  have cells := (Arena.cells_of_informed keeps.informed).1
  rw [← keeps.members_eq (by decide) (by decide)] at mem
  have waits : w₂.foreign.cells = w₁.foreign.cells ∧ o ∈ w₂.collector.sets.members .isolated := by
    obtain ⟨_, -, ⟨-, -, rfl⟩ | ⟨-, -, _, rfl⟩⟩ := isolateFinalizable_eq_ok isolated
    · exact ⟨rfl, mem⟩
    · exact ⟨rfl, by simp [TrackedSets.members_merged, mem]⟩
  simp only [markBorder, bind_eq_ok] at marked
  obtain ⟨_, -, _, -, _, held, -⟩ := marked
  obtain ⟨_, bridged⟩ := exists_bridge_of_heldBridges held o waits.2
  obtain ⟨c, hc, -⟩ := map_eq_ok.1 bridged
  exact ⟨c, by rwa [Arena.cell_congr waits.1, Arena.cell_congr cells] at hc⟩

/-- An object whose counterpart is handed over at the end of a pass: the foreign side refers to it,
or no finalizer holds anything back and it is not isolated. -/
def Handed (v : World Arena) (dead : List ObjectId) (x : World Arena) (o : ObjectId) : Prop :=
  x.collector.sets.contains o = true ∧ (v.RawHeld o ∨
    ¬Finalizable v.foreign dead ∧ o ∉ x.collector.sets.members .isolated)

section Surveys

variable (surveys : Surveys w v s₀ s w₁)

include surveys

/-- When the snapshot was taken both heaps answered for the candidates. -/
theorem Surveys.exists_cell (mem : o ∈ v.candidates) :
    ∃ c, v.foreign.cell o = .ok c ∧ ∀ h ∈ c.bridge, h.index < v.host.objects.size := by
  obtain ⟨i, -, r, -, hr, -, rfl, -⟩ := surveys.exists_record_of_candidate mem
  obtain ⟨q, -, describes⟩ := surveys.describes (Array.mem_of_getElem? hr)
  obtain ⟨c, hc, bridged⟩ := map_eq_ok.1 describes.bridge
  refine ⟨c, hc, fun h here => ?_⟩
  have reached := describes.rooted
  rw [← bridged, Option.mem_def.1 here] at reached
  exact HostHeap.lt_size_of_reaches reached

theorem Surveys.covered : v.Covered := by
  obtain ⟨taken, htaken, roots⟩ := surveys.taken
  exact (exists_roots_iff htaken).1 ⟨s₀, roots⟩

theorem Surveys.exists_cell_of_isolated (finished : w₁.finishPass = .ok w₂)
    (mem : o ∈ v.collector.sets.members .isolated) : ∃ c, v.foreign.cell o = .ok c := by
  obtain ⟨_, verdict, sets, outcome, u, taken, judged, disposed, -⟩ := finishPass_eq_ok finished
  obtain rfl := Option.some.inj (surveys.snapshot.symm.trans taken)
  obtain rfl := surveys.consistent judged
  obtain ⟨-, -, rfl⟩ := Snapshot.judge_consistent judged
  obtain ⟨c, hc⟩ := exists_cell_of_disposeStaged (o := o) disposed (by
    simpa [Snapshot.members_enterAll_inCollection s surveys.orderly.staged,
      surveys.members_isolated] using mem)
  exact ⟨c, surveys.foreign ▸ hc⟩

/-- A pass can be finished if the foreign heap knows the isolated objects, and can release what no
finalizer holds back. -/
theorem Surveys.exists_finishPass
    (isolated : ∀ o ∈ v.collector.sets.members .isolated, ∃ c, v.foreign.cell o = .ok c)
    (releases : ∀ dead, (∀ o, o ∈ dead ↔ o ∈ v.candidates ∧ ¬v.Alive (.foreign o)) →
      ¬Finalizable v.foreign dead → ∀ o, Doomed v.foreign dead o → v.foreign.Releasable o) :
    ∃ w₂, w₁.finishPass = .ok w₂ := by
  obtain ⟨sets, judged⟩ := surveys.exists_judge
  have disposes : ∃ outcome u, (w₁.discardSnapshot sets).disposeStaged = .ok (outcome, u) := by
    refine exists_disposeStaged_of_cells (fun o tracked => ?_) ?_
    · rw [sets_discardSnapshot, Snapshot.contains_of_judge judged] at tracked
      rw [foreign_discardSnapshot, surveys.foreign]
      obtain ⟨r, mem⟩ := TrackedSets.contains_iff_exists_mem.1 tracked
      cases r with
      | new => simp [surveys.sets, TrackedSets.members_merged] at mem
      | inCollection =>
        obtain ⟨c, hc, -⟩ := surveys.exists_cell (surveys.members_inCollection ▸ mem)
        exact ⟨c, hc⟩
      | isolated => exact isolated o (surveys.members_isolated ▸ mem)
      | staged => simp [surveys.orderly.staged] at mem
    · rw [foreign_discardSnapshot, surveys.foreign]
      exact releases _ fun o => surveys.mem_staged_iff judged
  obtain ⟨outcome, u, disposed⟩ := disposes
  exact ⟨u.endPass outcome, finishPass_of_judge surveys.snapshot judged disposed⟩

/-- When a pass is finished the host heap can be drained, if what is handed over leads to valid
handles only. -/
theorem Surveys.exists_drain (counted : w.collector.sets.Counted)
    (finished : w₁.finishPass = .ok w₂) (decides : Decides v dead w₂) {H : HostRef → Prop}
    (points : ∀ h k, H h → HostHeap.Points v.host.objects h k → H k)
    (valid : ∀ h, H h → h.index < v.host.objects.size)
    (handed : ∀ o h, v.Handed dead w₂ o → v.foreign.bridge o = .ok (some h) → H h) :
    ∃ host, w₂.host.drain = .ok host := by
  obtain ⟨sets, u, kept, isolated, released, reported, legacy, judged, disposes, rfl⟩ :=
    surveys.concludes finished
  obtain ⟨bridges, promoted, mem_bridges⟩ := disposes.border
  have waits : isolated = [] ↔ ¬Finalizable v.foreign dead := by
    obtain ⟨_, _, _, outcome, waits⟩ := decides.outcome
    simp only [endPass, Option.some.injEq, Outcome.collected.injEq] at outcome
    rw [← waits, ← outcome.2.1, List.length_eq_zero_iff]
  have same := surveys.spreads_prepared.course.onward.same
  have start : HostHeap.Confined H w₁.host (w₁.host.promoteAll bridges) := by
    refine ⟨fun h mem => ?_, fun h marked => .inl (by simpa using marked)⟩
    rcases HostHeap.mem_worklist_promoteAll.1 mem with mem | mem
    · rw [mem_bridges, disposes.marks_iff (surveys.counted_of_disposes judged disposes counted),
        foreign_discardSnapshot, surveys.foreign] at mem
      obtain ⟨o, tracked, held, bridged⟩ := mem
      refine handed o h ⟨tracked, ?_⟩ bridged
      rwa [RawHeld, foreign_discardSnapshot, surveys.foreign, waits] at held
    · simp [surveys.drained] at mem
  have onward := HostHeap.onward_promoteAll w₁.host bridges
  obtain ⟨host, drained⟩ := start.exists_drain onward
    (fun h k holds _ edge => points h k holds ((HostHeap.points_congr same).1 edge))
    fun h holds => HostHeap.size_of_map_unmarked same ▸ valid h holds
  refine ⟨host, ?_⟩
  rw [host_discardSnapshot] at promoted
  exact (congrArg HostHeap.drain promoted).trans drained

end Surveys

theorem Passes.decides (passes : Passes w v s₀ s w₁ x) : ∃ dead, Decides v dead x := by
  obtain ⟨w₂, host, finished, -, rfl⟩ := passes.ended
  obtain ⟨dead, decides⟩ := passes.toSurveys.decides finished
  exact ⟨dead, { decides with }⟩

/-- After a pass the host heap has marked what its worklist leads to, and the counterparts of the
objects that were found alive and of those that were handed over. -/
theorem Passes.marked_iff_handed (passes : Passes w v s₀ s w₁ x)
    (fresh : ∀ h, ¬HostHeap.Marked w.host.objects h) (counted : w.collector.sets.Counted)
    (decides : Decides v dead x) (h : HostRef) : HostHeap.Marked x.host.objects h ↔
      v.LedFrom (fun o => v.Alive (.foreign o) ∨ v.Handed dead x o) h := by
  have prepares := prepares_of_prepareSets passes.prepared
  have cells := (Arena.cells_of_informed prepares.informed).1
  obtain ⟨_, isolated, _, outcome, marked⟩ := passes.marked_iff_led fresh counted
  obtain ⟨_, _, _, outcome', none⟩ := decides.outcome
  obtain ⟨-, rfl, -⟩ := Outcome.collected.inj (Option.some.inj (outcome.symm.trans outcome'))
  rw [marked]
  simp only [LedFrom, Handed, prepares.host, Arena.bridge_congr cells, rawHeld_congr cells, none]

end CycleCollector.World
