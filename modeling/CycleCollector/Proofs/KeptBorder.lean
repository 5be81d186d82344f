import CycleCollector.Proofs.Findings
import CycleCollector.Proofs.ReleaseOrder
import CycleCollector.Proofs.Roles
/-!
# The border of what is kept

After a pass the objects that are not isolated are alive, or they are dead and a legacy finalizer
keeps them. Marking hands over the counterparts of the former. Those of the latter are left to
border marking, and this goes by the verdict of the pass, which has put their counts right, only
when the same pass isolated nothing. Otherwise it goes by raw counts, and an object that nothing
refers to is kept while its counterpart may not be marked.

## Main definitions

* `World.HeldBorder`: the counterparts of the objects that the foreign side refers to.

## Main statements

* `World.marks_rawCount_iff`: what border marking by raw counts hands over.
* `World.isVisited_iff_of_tracked`: when the counterpart of an object that is kept is marked.
-/

namespace CycleCollector.World

section Border

variable {ρ : Type} [ForeignHeap ρ] {w : World ρ} {o : ObjectId} {h : HostRef}

/-- `h` is the counterpart of a tracked object that the foreign side refers to. -/
def HeldBorder (w : World ρ) (h : HostRef) : Prop :=
  ∃ o n, w.collector.sets.contains o = true ∧ ForeignHeap.bridge w.foreign o = .ok (some h) ∧
    ForeignHeap.refcount w.foreign o = .ok n ∧ 0 < Refcount.stripBias n

theorem isHeld_rawCount_iff : w.isHeld o .rawCount = .ok true ↔
    ∃ n, ForeignHeap.refcount w.foreign o = .ok n ∧ 0 < Refcount.stripBias n := by
  simp [isHeld, map_eq_ok]

/-- By raw counts border marking treats all tracked objects alike. -/
theorem marks_rawCount_iff (staged : w.collector.sets.members .staged = []) :
    w.Marks .rawCount h ↔ w.HeldBorder h := by
  simp only [Marks, isHeld_rawCount_iff]
  constructor
  · rintro ⟨o, bridged, ⟨mem | mem, n, count, positive⟩ | ⟨mem, n, count, positive⟩⟩ <;>
      exact ⟨o, n, TrackedSets.contains_of_mem_members mem, bridged, count, positive⟩
  · rintro ⟨o, n, tracked, bridged, count, positive⟩
    obtain ⟨r, mem⟩ := TrackedSets.contains_iff_exists_mem.1 tracked
    cases r with
    | new => exact ⟨o, bridged, .inl ⟨.inl mem, n, count, positive⟩⟩
    | inCollection => exact ⟨o, bridged, .inl ⟨.inr mem, n, count, positive⟩⟩
    | isolated => exact ⟨o, bridged, .inr ⟨mem, n, count, positive⟩⟩
    | staged => simp [staged] at mem

end Border

theorem Disposes.bridge_of_bridge {w w' : World Arena} {kept isolated released : List ObjectId}
    {reported : Arena} {o : ObjectId} {h : HostRef}
    (disposes : Disposes w kept isolated released reported w')
    (bridged : w'.foreign.bridge o = .ok (some h)) :
    reported.bridge o = .ok (some h) ∧ w.foreign.bridge o = .ok (some h) := by
  have nodup : released.Nodup := by
    rcases disposes.rest with ⟨-, rfl⟩ | ⟨-, rfl⟩
    · exact List.nodup_nil
    · exact (TrackedSets.nodup_members ..).filter _
  have before := Arena.bridge_of_releaseAll nodup disposes.released bridged
  exact ⟨before, Arena.bridge_congr (Arena.cells_of_informed disposes.informed).1 o ▸ before⟩

section Passes

variable {w v w₁ w' : World Arena} {s₀ s : Snapshot} {o : ObjectId} {h : HostRef}

/-- When marking has ended, the counterpart of an object that was found dead is not marked. -/
theorem Surveys.not_marked_of_dead (surveys : Surveys w v s₀ s w₁) (mem : o ∈ v.candidates)
    (dead : ¬v.Alive (.foreign o)) (bridged : v.foreign.bridge o = .ok (some h)) :
    ¬HostHeap.Marked w₁.host.objects h := by
  intro marked
  obtain ⟨i, -, r, -, hr, -, rfl, -⟩ := surveys.exists_record_of_candidate mem
  have recorded := Array.mem_of_getElem? hr
  exact dead
    ((surveys.alive_iff recorded).1 (surveys.positive_of_known recorded bridged (.inl marked)))

theorem Surveys.mem_staged_iff (surveys : Surveys w v s₀ s w₁) {sets : TrackedSets}
    (judged : s.judge w₁.collector.sets w₁.foreign w₁.host w₁.collector.invalidated =
      .ok (.consistent, sets)) :
    o ∈ sets.members .staged ↔ o ∈ v.candidates ∧ ¬v.Alive (.foreign o) := by
  rw [(Snapshot.judge_consistent judged).2.2,
    Snapshot.members_enterAll_inCollection s surveys.orderly.staged, if_pos rfl, List.mem_filter,
    surveys.members_inCollection]
  exact and_congr_right surveys.findsDead_iff

section Disposes

variable {sets : TrackedSets} {u : World Arena} {kept isolated released : List ObjectId}
  {reported : Arena}
  (surveys : Surveys w v s₀ s w₁)
  (judged : s.judge w₁.collector.sets w₁.foreign w₁.host w₁.collector.invalidated =
    .ok (.consistent, sets))
  (disposes : Disposes (w₁.discardSnapshot sets) kept isolated released reported u)

include surveys judged disposes

theorem Surveys.dead_of_kept (mem : o ∈ kept) : o ∈ v.candidates ∧ ¬v.Alive (.foreign o) :=
  (surveys.mem_staged_iff judged).1 (disposes.subset o mem)

/-- After a pass, what is not isolated is alive or kept for a legacy finalizer. -/
theorem Surveys.alive_or_kept (mem : o ∈ u.collector.sets.members .new ∨
    o ∈ u.collector.sets.members .inCollection) :
    o ∈ v.candidates ∧ (v.Alive (.foreign o) ∨ o ∈ kept) := by
  obtain ⟨new, inCollection, -⟩ := surveys.members_of_disposes judged disposes
  rw [new, inCollection, surveys.members_inCollection] at mem
  rcases mem with none | ⟨candidate, alive⟩ | early
  · simp at none
  · have found := surveys.findsDead_iff candidate
    exact ⟨candidate, .inl (not_not.1 fun dead => by simp [alive, dead] at found)⟩
  · exact ⟨(surveys.dead_of_kept judged disposes early).1, .inr early⟩

theorem Surveys.counted_of_disposes (counted : w.collector.sets.Counted) :
    u.collector.sets.Counted := by
  refine disposes.counted (TrackedSets.Counted.judge ?_ surveys.orderly.staged judged)
  rw [surveys.sets]
  exact (counted_of_prepareSets surveys.prepared counted).merged

end Disposes

/-- After a pass, what is not isolated is alive or kept for a legacy finalizer of a dead object, and
its counterpart is marked except if the pass isolated some objects, it is dead itself, and nothing
that the foreign side refers to leads to its counterpart. -/
theorem Passes.marked_iff_of_tracked (passes : Passes w v s₀ s w₁ w')
    (fresh : ∀ h, ¬HostHeap.Marked w.host.objects h) (counted : w.collector.sets.Counted) :
    ∃ released isolated legacy,
      w'.collector.lastOutcome = some (.collected released isolated legacy) ∧
      ∀ o, o ∈ w'.collector.sets.members .new ∨ o ∈ w'.collector.sets.members .inCollection →
        (v.Alive (.foreign o) ∨ ∃ p ∈ w'.collector.sets.members .inCollection,
          ¬v.Alive (.foreign p) ∧ v.foreign.finalizer p = .ok .legacy ∧
            ForeignHeap.Leads v.foreign p o) ∧
        ∀ h, w'.foreign.bridge o = .ok (some h) → (HostHeap.Marked w'.host.objects h ↔
          v.Alive (.foreign o) ∨ isolated = 0 ∨
            ∃ k, w'.HeldBorder k ∧ HostHeap.Leads w.host.objects k h) := by
  obtain ⟨sets, u, kept, isolated, released, reported, legacy, judged, disposes, outcome, foreign,
    same_sets, marked⟩ := passes.concludes fresh
  have same := passes.spreads.course.onward.same
  refine ⟨released.length, isolated.length, legacy, outcome, ?_⟩
  rw [foreign, same_sets]
  intro o tracked
  obtain ⟨candidate, alive_or_kept⟩ := passes.alive_or_kept judged disposes tracked
  constructor
  · refine alive_or_kept.imp_right fun early => ?_
    obtain ⟨p, early, finalizer, path⟩ := disposes.legacy o early
    rw [foreign_discardSnapshot, passes.foreign] at finalizer path
    exact ⟨p, (disposes.inCollection p).2 (.inr early),
      (passes.dead_of_kept judged disposes early).2, finalizer, path⟩
  intro h bridged
  obtain ⟨at_border, bridged⟩ := disposes.bridge_of_bridge bridged
  rw [foreign_discardSnapshot, passes.foreign] at bridged
  rw [marked]
  by_cases alive : v.Alive (.foreign o)
  · exact iff_of_true (.inl ((passes.marked_iff_alive h).2 (.inr (alive.across bridged))))
      (.inl alive)
  rw [or_iff_right (passes.not_marked_of_dead candidate alive bridged), or_iff_right alive]
  by_cases none : isolated = []
  · rw [if_pos none]
    have settled := passes.counted_of_disposes judged disposes counted
    have marks : Marks { u with foreign := reported } .cyclicCount h :=
      marks_of_counted settled tracked at_border
    exact iff_of_true ⟨h, marks, .refl⟩ (.inl (by simp [none]))
  · -- with some objects isolated none is released
    have kept_heap : u.foreign = reported := by
      obtain ⟨-, rfl⟩ | ⟨rfl, -⟩ := disposes.rest
      · exact (pure_eq_ok.1 disposes.released).symm
      · exact absurd rfl none
    have border : ∀ k, w'.HeldBorder k ↔ Marks { u with foreign := reported } .rawCount k := by
      intro k
      rw [marks_rawCount_iff (w := { u with foreign := reported }) disposes.staged, HeldBorder,
        HeldBorder, foreign, same_sets, kept_heap]
    rw [if_neg none, or_iff_right (by simpa using none)]
    simp only [border, HostHeap.leads_congr same]

end Passes

/-- When an idle collector goes undisturbed through a collection of the host heap, whatever is not
isolated is alive or kept for a legacy finalizer. Its counterpart is marked except if the pass
isolated some objects, it is dead itself, and no path of edges leads to its counterpart from that of
a tracked object that the foreign side refers to. -/
theorem isVisited_iff_of_tracked {w w' : World Arena} {n : Nat} {options : Options}
    {foreign : Arena} {host : HostHeap} {actions : List (Action Arena)}
    (ran : run { collector := { options }, foreign, host } actions = .ok w)
    (idle : w.collector.phase = .idle) (on : w.collector.options.cycleDetection = true)
    (collected : collect { w with host := w.host.beginCollection } = .ok (n, w')) :
    ∃ v released isolated legacy,
      prepareSets { w with host := w.host.beginCollection } = .ok v ∧
      w'.collector.lastOutcome = some (.collected released isolated legacy) ∧
      ∀ o, o ∈ w'.collector.sets.members .new ∨ o ∈ w'.collector.sets.members .inCollection →
        (v.Alive (.foreign o) ∨ ∃ p ∈ w'.collector.sets.members .inCollection,
          ¬v.Alive (.foreign p) ∧ v.foreign.finalizer p = .ok .legacy ∧
            ForeignHeap.Leads v.foreign p o) ∧
        ∀ h, w'.foreign.bridge o = .ok (some h) → (w'.host.isVisited h = .ok true ↔
          v.Alive (.foreign o) ∨ isolated = 0 ∨
            ∃ k, w'.HeldBorder k ∧ HostHeap.Leads w.host.objects k h) := by
  have settled := settled_of_run ran (.start options)
  have passes := passes_of_collect (w := { w with host := w.host.beginCollection })
    settled.toOrderly idle collected
  obtain ⟨off, -⟩ | ⟨-, v, s₀, s, w₁, passes⟩ := passes
  · simp [on] at off
  obtain ⟨released, isolated, legacy, outcome, marked⟩ :=
    passes.marked_iff_of_tracked (HostHeap.not_marked_beginCollection w.host) settled.counted
  refine ⟨v, released, isolated, legacy, passes.prepared, outcome, fun o tracked => ?_⟩
  refine (marked o tracked).imp_right fun marked h bridged => ?_
  rw [HostHeap.isVisited_eq_ok_true, marked h bridged]
  simp only [HostHeap.leads_congr (HostHeap.map_unmarked_beginCollection w.host)]

/-- Three dead objects with counterparts. Two of them have legacy finalizers, and nothing refers to
them. The other one refers to itself, and its counterpart points to that of the third. -/
def orphans : World Arena where
  foreign := { cells := #[
    { refcount := Refcount.hostBias, bridge := some ⟨0⟩, finalizer := .legacy },
    { refcount := Refcount.hostBias + 1, references := [⟨1⟩], bridge := some ⟨1⟩,
      finalizer := .modern },
    { refcount := Refcount.hostBias, bridge := some ⟨2⟩, finalizer := .legacy }] }
  host := { objects := #[{}, { edges := [⟨2⟩] }, {}] }

/-- The counterpart of the third object is marked by way of the second, which is isolated. Nothing
leads to that of the first. -/
theorem isVisited_orphans :
    let w := orphans.after [.track ⟨0⟩, .track ⟨1⟩, .track ⟨2⟩]
    w.collected.host.isVisited ⟨2⟩ = .ok true ∧
      ∀ k, w.collected.HeldBorder k → ¬HostHeap.Leads w.host.objects k ⟨0⟩ := by
  intro w
  have ran : orphans.run [.track ⟨0⟩, .track ⟨1⟩, .track ⟨2⟩] = .ok w := by decide +kernel
  have done : collect { w with host := w.host.beginCollection } = .ok (3, w.collected) := by
    decide +kernel
  obtain ⟨v, released, isolated, legacy, -, -, visited⟩ :=
    isVisited_iff_of_tracked ran (by decide +kernel) (by decide +kernel) done
  have held : w.collected.HeldBorder ⟨1⟩ :=
    ⟨⟨1⟩, Refcount.hostBias + 1, by decide +kernel, by decide +kernel, by decide +kernel, by decide⟩
  have points : HostHeap.Points w.host.objects ⟨1⟩ ⟨2⟩ := ⟨{ edges := [⟨2⟩] }, by decide +kernel⟩
  constructor
  · refine ((visited ⟨2⟩ (by decide +kernel)).2 ⟨2⟩ (by decide +kernel)).2 (.inr (.inr ?_))
    exact ⟨⟨1⟩, held, .step .refl points⟩
  · intro k held path
    have reached := ((visited ⟨0⟩ (by decide +kernel)).2 ⟨0⟩ (by decide +kernel)).2
      (.inr (.inr ⟨k, held, path⟩))
    exact absurd reached (by decide +kernel)

/-- So a pass that isolates objects may keep an object without its counterpart. -/
theorem not_isVisited_orphans :
    let w := orphans.after [.track ⟨0⟩, .track ⟨1⟩, .track ⟨2⟩]
    orphans.run [.track ⟨0⟩, .track ⟨1⟩, .track ⟨2⟩] = .ok w ∧ w.collector.phase = .idle ∧
      w.collector.options.cycleDetection = true ∧
      collect { w with host := w.host.beginCollection } = .ok (3, w.collected) ∧
      ¬∀ o h, o ∈ w.collected.collector.sets.members .new ∨
          o ∈ w.collected.collector.sets.members .inCollection →
        w.collected.foreign.bridge o = .ok (some h) → w.collected.host.isVisited h = .ok true := by
  intro w
  refine ⟨by decide +kernel, by decide +kernel, by decide +kernel, by decide +kernel, fun all => ?_⟩
  have visited := all ⟨0⟩ ⟨0⟩ (.inr (by decide +kernel)) (by decide +kernel)
  exact absurd visited (by decide +kernel)

end CycleCollector.World
