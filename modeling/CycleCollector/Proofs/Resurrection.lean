import CycleCollector.Proofs.Runs
import CycleCollector.Arena.Basic
/-!
# When a pass fails

A pass fails for one of two reasons, and for no other: an object of its snapshot was untracked on
the way, even if it is tracked again by now, or a dead object is no longer as recorded. How far the
comparison came when it met the first difference shows nowhere: a pass that fails leaves the foreign
heap alone and every tracked object in its role.

## Main definitions

* `World.Untracks`: some action untracked an object of the snapshot.
* `World.Changed`: some dead object is not as recorded.
* `World.Spares`: what a pass that fails leaves behind.

## Main statements

* `World.resurrects_iff`: when a pass fails, and what it does then.
-/

namespace CycleCollector.World

variable {ρ : Type} [ForeignHeap ρ] {w w' : World ρ} {a : Action ρ} {actions : List (Action ρ)}
  {s : Snapshot} {o : ObjectId}

/-- One of the actions untracked an object of the snapshot that was tracked at that moment. -/
def Untracks (w : World ρ) (s : Snapshot) (actions : List (Action ρ)) : Prop :=
  ∃ before o after u, actions = before ++ .untrack o :: after ∧ w.run before = .ok u ∧
    u.collector.sets.contains o = true ∧ s.contains o = true

def Changed (w : World ρ) : Prop :=
  ∃ s, w.collector.snapshot? = some s ∧
    ∃ r ∈ s.records, r.external = 0 ∧ s.Differs w.collector.sets w.foreign w.host r

omit [ForeignHeap ρ] in
/-- A pass that fails leaves the foreign heap alone and keeps every object in its role; whatever is
in collection counts as alive. -/
structure Spares (w w' : World ρ) : Prop where
  foreign : w'.foreign = w.foreign
  sets : Snapshot.Undone w.collector.sets w'.collector.sets

/-- The heaps answer what is asked about tracked objects and recorded bridges. -/
structure Answers (w : World ρ) : Prop where
  foreign : ∀ o, w.collector.sets.contains o = true →
    (∃ n, ForeignHeap.refcount w.foreign o = .ok n) ∧
      (∃ bridge, ForeignHeap.bridge w.foreign o = .ok bridge) ∧
      ∃ os, ForeignHeap.references w.foreign o = .ok os
  host : ∀ s, w.collector.snapshot? = some s → ∀ r ∈ s.records,
    ∃ b, w.host.reaches r.bridge = .ok b

/-! ## Untracked objects -/

theorem untracks_cons {u : World ρ} (acted : w.act a = .ok u) : w.Untracks s (a :: actions) ↔
    (∃ o, a = .untrack o ∧ w.collector.sets.contains o = true ∧ s.contains o = true) ∨
      u.Untracks s actions := by
  constructor
  · rintro ⟨before, o, after, v, split, ran, tracked, recorded⟩
    cases before with
    | nil =>
      obtain ⟨rfl, rfl⟩ := List.cons.inj split
      obtain rfl := pure_eq_ok.1 ran
      exact .inl ⟨o, rfl, tracked, recorded⟩
    | cons b before =>
      obtain ⟨rfl, rfl⟩ := List.cons.inj split
      rw [run_cons, acted] at ran
      exact .inr ⟨before, o, after, v, rfl, ran, tracked, recorded⟩
  · rintro (⟨o, rfl, tracked, recorded⟩ | ⟨before, o, after, v, rfl, ran, tracked, recorded⟩)
    · exact ⟨[], o, actions, w, rfl, rfl, tracked, recorded⟩
    · refine ⟨a :: before, o, after, v, rfl, ?_, tracked, recorded⟩
      rw [run_cons, acted]
      exact ran

/-- An action within a pass keeps its snapshot, and only untracking an object of the snapshot
invalidates it. -/
theorem invalidated_act {s₁ : Snapshot} (taken : w.collector.snapshot? = some s₁)
    (inPass : w.collector.phase.inPass = true) (same : s₁.frozen = s.frozen)
    (acted : w.act a = .ok w') (ongoing : w'.collector.phase.inPass = true) :
    (∃ s₂, w'.collector.snapshot? = some s₂ ∧ s₂.frozen = s.frozen) ∧
      (w'.collector.invalidated = true ↔ w.collector.invalidated = true ∨
        ∃ o, a = .untrack o ∧ w.collector.sets.contains o = true ∧ s.contains o = true) := by
  have contains : ∀ o, s₁.contains o = s.contains o := fun o => by
    rw [Bool.eq_iff_iff, Snapshot.contains_iff, Snapshot.contains_iff, Snapshot.objects_congr same]
  cases a with
  | foreign foreign => exact Except.ok.inj acted ▸ ⟨⟨s₁, taken, same⟩, by simp⟩
  | host host => exact Except.ok.inj acted ▸ ⟨⟨s₁, taken, same⟩, by simp⟩
  | track o =>
    obtain rfl := Except.ok.inj acted
    unfold Collector.track
    split <;> exact ⟨⟨s₁, taken, same⟩, by simp [request, resolve, Collector.resolve]⟩
  | untrack o =>
    obtain rfl := Except.ok.inj acted
    unfold Collector.untrack
    split
    · next tracked =>
      refine ⟨⟨s₁, taken, same⟩, ?_⟩
      simp [request, resolve, Collector.resolve, taken, contains, tracked]
    · next untracked =>
      refine ⟨⟨s₁, taken, same⟩, ?_⟩
      simp [request, resolve, Collector.resolve, untracked]
  | finalizersDone o =>
    obtain rfl := Except.ok.inj acted
    unfold Collector.finalizersDone
    split <;> exact ⟨⟨s₁, taken, same⟩, by simp [request, resolve, Collector.resolve]⟩
  | setCycleDetection on => exact Except.ok.inj acted ▸ ⟨⟨s₁, taken, same⟩, by
      simp [Collector.setCycleDetection]⟩
  | requestSweep =>
    obtain rfl := Except.ok.inj acted
    unfold Collector.requestSweep
    split <;> exact ⟨⟨s₁, taken, same⟩, by simp⟩
  | step =>
    obtain ⟨⟨_, _⟩, stepped, rfl⟩ := map_eq_ok.1 acted
    cases stages_of_step stepped with
    | start idle => simp [idle, Phase.inPass] at inPass
    | sweep outside => simp [outside] at inPass
    | mark _ marked =>
      obtain ⟨snapshot, progress, m, stats, taken', ran, -, rfl⟩ := markStep_eq_ok marked
      obtain rfl := Option.some.inj (taken.symm.trans taken')
      have frozen := Marking.run_induction (P := fun q _ => q.frozen = s.frozen) ran same
        fun _ _ _ frozen visits => visits.frozen.trans frozen
      exact ⟨⟨m.snapshot, rfl, frozen⟩, by simp⟩
    | finish _ finished =>
      obtain ⟨snapshot, verdict, sets, outcome, v, -, -, -, rfl⟩ := finishPass_eq_ok finished
      simp [endPass, Phase.inPass] at ongoing

/-- Throughout a pass its snapshot is the one taken at its start, and it is invalidated once one of
its objects was untracked. -/
theorem invalidated_run {s₁ : Snapshot} (taken : w.collector.snapshot? = some s₁)
    (same : s₁.frozen = s.frozen) (ran : w.run actions = .ok w')
    (ongoing : ∀ earlier, earlier <+: actions → ∀ u, w.run earlier = .ok u →
      u.collector.phase.inPass = true) :
    (∃ s₂, w'.collector.snapshot? = some s₂ ∧ s₂.frozen = s.frozen) ∧
      (w'.collector.invalidated = true ↔
        w.collector.invalidated = true ∨ w.Untracks s actions) := by
  induction actions generalizing w s₁ with
  | nil =>
    obtain rfl := pure_eq_ok.1 ran
    refine ⟨⟨s₁, taken, same⟩, ?_⟩
    simp [Untracks]
  | cons a actions ih =>
    rw [run_cons, bind_eq_ok] at ran
    obtain ⟨u, acted, ran⟩ := ran
    have inPass := ongoing [] (List.nil_prefix) w rfl
    have first : w.run [a] = .ok u := by rw [run_cons, acted]; rfl
    have goes := ongoing [a] (by simp) u first
    obtain ⟨⟨s₂, taken₂, same₂⟩, invalidated⟩ := invalidated_act taken inPass same acted goes
    obtain ⟨later, iff⟩ := ih taken₂ same₂ ran fun earlier start v ran => by
      refine ongoing (a :: earlier) (List.prefix_cons_inj a |>.2 start) v ?_
      rw [run_cons, acted]
      exact ran
    refine ⟨later, iff.trans ?_⟩
    rw [invalidated, untracks_cons acted, or_assoc]

/-! ## The verdict -/

/-- A pass whose snapshot is intact and whose dead objects are as recorded does not fail. -/
theorem not_changed_of_consistent {sets : TrackedSets} (orderly : w.collector.Orderly)
    (taken : w.collector.snapshot? = some s)
    (judged : s.judge w.collector.sets w.foreign w.host w.collector.invalidated =
      .ok (.consistent, sets)) : w.collector.invalidated = false ∧ ¬w.Changed := by
  obtain ⟨valid, unchanged, -⟩ := Snapshot.judge_consistent judged
  refine ⟨valid, ?_⟩
  rintro ⟨s', taken', r, mem, dead, differs⟩
  obtain rfl := Option.some.inj (taken.symm.trans taken')
  obtain ⟨collected, found⟩ := (orderly.records s taken).recordOf_of_mem valid mem
  exact Snapshot.not_differs_of_isUnchanged (unchanged r.object collected r found dead) differs

/-- A pass that fails has a reason, and leaves everything in place. -/
theorem changed_of_inconsistent {sets : TrackedSets} (orderly : w.collector.Orderly)
    (taken : w.collector.snapshot? = some s)
    (judged : s.judge w.collector.sets w.foreign w.host w.collector.invalidated =
      .ok (.inconsistent, sets)) :
    (w.collector.invalidated = true ∨ w.Changed) ∧ Snapshot.Undone w.collector.sets sets := by
  obtain ⟨reason, undone⟩ := Snapshot.judge_inconsistent orderly.staged judged
  refine ⟨reason.imp_right ?_, undone⟩
  rintro ⟨o, -, r, found, dead, differs⟩
  have wellformed := (orderly.records s taken).wellformed
  exact ⟨s, taken, r, ((Snapshot.recordOf_eq_some wellformed.nodup).1 found).1, dead, differs⟩

/-- The end of a pass: it fails exactly if its snapshot lost an object or a dead object changed, and
then it changes nothing. -/
theorem resurrects_of_finishPass (orderly : w.collector.Orderly)
    (finished : w.finishPass = .ok w') :
    (w'.collector.lastOutcome = some .resurrected ↔
      w.collector.invalidated = true ∨ w.Changed) ∧
      (w'.collector.lastOutcome = some .resurrected → w.Spares w') := by
  obtain ⟨snapshot, verdict, sets, outcome, v, taken, judged, disposed, rfl⟩ :=
    finishPass_eq_ok finished
  obtain ⟨⟨kept, isolated, released, reported, disposes⟩, collected⟩ :=
    disposes_of_disposeStaged disposed
  cases verdict with
  | consistent =>
    obtain ⟨valid, unchanged⟩ := not_changed_of_consistent orderly taken judged
    obtain ⟨_, _, _, rfl⟩ := collected
    simp [endPass, valid, unchanged]
  | inconsistent =>
    obtain ⟨reason, undone⟩ := changed_of_inconsistent orderly taken judged
    obtain ⟨rfl, rfl, rfl, foreign⟩ := disposes.nothing undone.staged
    refine ⟨by simpa [endPass] using reason, fun _ => ⟨foreign, ?_⟩⟩
    have inCollection : ∀ o, o ∈ v.collector.sets.members .inCollection ↔
        o ∈ sets.members .inCollection := by simpa using disposes.inCollection
    have isolated : v.collector.sets.members .isolated = sets.members .isolated := by
      simpa using disposes.waiting
    refine ⟨disposes.new.trans undone.new, isolated.trans undone.isolated, disposes.staged,
      fun o => (inCollection o).trans (undone.inCollection o), fun o mem => ?_⟩
    have count := disposes.counts o (TrackedSets.contains_of_mem_members mem)
    rw [if_neg List.not_mem_nil] at count
    exact count ▸ undone.alive o ((inCollection o).1 mem)

/-- A pass with a reason to fail can do so if the heaps answer. -/
theorem exists_finishPass_of_changed (orderly : w.collector.Orderly) (answers : w.Answers)
    (taken : w.collector.snapshot? = some s)
    (reason : w.collector.invalidated = true ∨ w.Changed) : ∃ w', w.finishPass = .ok w' := by
  have records := orderly.records s taken
  have judges : ∃ verdict sets, s.judge w.collector.sets w.foreign w.host w.collector.invalidated =
      .ok (verdict, sets) := by
    refine Snapshot.exists_judge _ fun o mem r found _ => ?_
    obtain ⟨recorded, rfl⟩ := (Snapshot.recordOf_eq_some records.wellformed.nodup).1 found
    obtain ⟨⟨n, hn⟩, -, os, hos⟩ := answers.foreign _ (TrackedSets.contains_of_mem_members mem)
    obtain ⟨b, hb⟩ := answers.host s taken r recorded
    exact Snapshot.exists_isUnchanged hn hb hos
  obtain ⟨verdict, sets, judged⟩ := judges
  cases verdict with
  | consistent =>
    obtain ⟨valid, unchanged⟩ := not_changed_of_consistent orderly taken judged
    simp [valid, unchanged] at reason
  | inconsistent =>
    obtain ⟨-, undone⟩ := changed_of_inconsistent orderly taken judged
    have disposes : ∃ outcome w', (w.discardSnapshot sets).disposeStaged = .ok (outcome, w') := by
      refine exists_disposeStaged_of_nothing undone.staged fun o mem => ?_
      obtain ⟨count, bridge, -⟩ := answers.foreign o (Snapshot.contains_of_judge judged ▸ mem)
      exact ⟨bridge, count⟩
    obtain ⟨outcome, v, disposed⟩ := disposes
    exact ⟨_, finishPass_of_judge taken judged disposed⟩

/-- A pass fails exactly if an object of its snapshot was untracked since the snapshot was taken, or
if a dead object differs from its record. It then leaves the foreign heap alone, stages nothing, and
keeps every object in its role, those in collection counted as alive. -/
theorem resurrects_iff {options : Options} {foreign : ρ} {host : HostHeap}
    {earlier since : List (Action ρ)} {w₀ w₁ w₂ : World ρ}
    (reached : run { collector := { options }, foreign, host } earlier = .ok w₀)
    (idle : w₀.collector.phase = .idle) (started : w₀.step = .ok (false, w₁))
    (taken : w₁.collector.snapshot? = some s) (ran : w₁.run since = .ok w₂)
    (ongoing : ∀ actions, actions <+: since → ∀ u, w₁.run actions = .ok u →
      u.collector.phase.inPass = true)
    (marked : w₂.collector.phase = .marked) :
    (∀ finished w₃, w₂.step = .ok (finished, w₃) →
      (w₃.collector.lastOutcome = some .resurrected ↔ w₁.Untracks s since ∨ w₂.Changed) ∧
        (w₃.collector.lastOutcome = some .resurrected → w₂.Spares w₃)) ∧
      (w₂.Answers → w₁.Untracks s since ∨ w₂.Changed → ∃ w₃, w₂.step = .ok (true, w₃)) := by
  have orderly₁ := (stages_of_step started).orderly (orderly_of_run reached (.start options))
  have orderly₂ := orderly_of_run ran orderly₁
  have valid : w₁.collector.invalidated = false := by
    unfold step at started
    simp only [idle] at started
    split at started
    · obtain ⟨_, begun, same⟩ := map_eq_ok.1 started
      obtain rfl := (Prod.mk.inj same).2
      obtain ⟨v, _, snapshot, stats, -, -, -, -, rfl⟩ := startPass_eq_ok begun
      rfl
    · simp [map_eq_ok] at started
  obtain ⟨⟨s₂, taken₂, -⟩, invalidated⟩ := invalidated_run taken rfl ran ongoing
  rw [valid] at invalidated
  have reasons : w₂.collector.invalidated = true ∨ w₂.Changed ↔
      w₁.Untracks s since ∨ w₂.Changed := by simp [invalidated]
  have step : w₂.step = (true, ·) <$> w₂.finishPass := by simp only [World.step, marked]
  rw [step, ← reasons]
  constructor
  · intro finished w₃ done
    obtain ⟨_, ended, same⟩ := map_eq_ok.1 done
    obtain rfl := (Prod.mk.inj same).2
    exact resurrects_of_finishPass orderly₂ ended
  · intro answers reason
    obtain ⟨w₃, done⟩ := exists_finishPass_of_changed orderly₂ answers taken₂ reason
    exact ⟨w₃, map_eq_ok.2 ⟨w₃, done, rfl⟩⟩

def loop : World Arena := { foreign := { cells := #[{ refcount := 1, references := [⟨0⟩] }] } }

/-- Untracking a dead object makes its pass fail, and the object stays. -/
theorem resurrects_loop :
    let w₁ := loop.after [.track ⟨0⟩, .step]
    let w₂ := w₁.after [.step, .untrack ⟨0⟩]
    ∃ w₃, w₂.step = .ok (true, w₃) ∧ w₃.collector.lastOutcome = some .resurrected ∧
      w₂.Spares w₃ := by
  intro w₁ w₂
  have reached : loop.run [.track ⟨0⟩] = .ok (loop.after [.track ⟨0⟩]) := by decide +kernel
  have started : (loop.after [.track ⟨0⟩]).step = .ok (false, w₁) := by decide +kernel
  have recorded : (w₁.collector.snapshot?.any fun s => s.contains ⟨0⟩) = true := by decide +kernel
  obtain ⟨s, taken, contains⟩ := (Option.any_eq_true ..).1 recorded
  have ran : w₁.run [.step, .untrack ⟨0⟩] = .ok w₂ := by decide +kernel
  have ongoing : ∀ actions, actions <+: [Action.step, .untrack ⟨0⟩] → ∀ u,
      w₁.run actions = .ok u → u.collector.phase.inPass = true := by
    intro actions start u ran
    rw [← after_eq ran]
    simp only [List.prefix_cons_iff, List.prefix_nil] at start
    obtain rfl | ⟨_, rfl, rfl | ⟨_, rfl, rfl⟩⟩ := start
    all_goals decide +kernel
  have last : w₂.step = .ok (true, w₂.after [.step]) := by decide +kernel
  have untracks : w₁.Untracks s [.step, .untrack ⟨0⟩] :=
    ⟨[.step], ⟨0⟩, [], w₁.after [.step], rfl, by decide +kernel, by decide +kernel, contains⟩
  obtain ⟨verdict, -⟩ := resurrects_iff reached (by decide +kernel) started taken ran ongoing
    (by decide +kernel)
  obtain ⟨reason, spares⟩ := verdict _ _ last
  exact ⟨_, last, reason.2 (.inl untracks), spares (reason.2 (.inl untracks))⟩

end CycleCollector.World
