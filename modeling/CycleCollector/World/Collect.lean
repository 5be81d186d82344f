import CycleCollector.World.Marking
import CycleCollector.World.Finish
import CycleCollector.Marking.Progress
/-!
# Steps and whole passes

The host heap drives the collector one step at a time. A step does the work of the current phase and
says whether the pass, or the sweep, has ended with it. `World.collect` takes steps until one ends
the pass, and lets the host heap trace between them.

Such a run ends: a pass is over once it is marked, and until then every marking step processes a
record or, at the latest on the second try, finds the host heap with nothing left to trace.

## Main definitions

* `World.step`, `World.Steps`: one step, as a function and as a relation.
* `World.collectWith`: steps to the end of the pass, with the program at work before each step.
* `World.collect`: the same with the program at rest.
-/

namespace CycleCollector.World

variable {ρ : Type} [ForeignHeap ρ]

/-- Takes one step, and says whether it ended a pass or sweep. -/
def step (w : World ρ) : Except Fault (Bool × World ρ) :=
  match w.collector.phase with
  | .sweepDue => (true, ·) <$> w.sweep
  | .idle =>
    if w.collector.options.cycleDetection then (false, ·) <$> w.startPass
    else (true, ·) <$> w.sweep
  | .marking => (false, ·) <$> w.markStep
  | .marked => (true, ·) <$> w.finishPass

/-- What a step does, and what it says of that. -/
inductive Steps (w : World ρ) : Bool → World ρ → Prop
  | start {w' : World ρ} : w.collector.phase = .idle → w.collector.options.cycleDetection = true →
      w.startPass = .ok w' → Steps w false w'
  | mark {w' : World ρ} : w.collector.phase = .marking → w.markStep = .ok w' → Steps w false w'
  | finish {w' : World ρ} : w.collector.phase = .marked → w.finishPass = .ok w' → Steps w true w'
  | sweep {w' : World ρ} : w.collector.phase = .sweepDue ∨
      w.collector.phase = .idle ∧ w.collector.options.cycleDetection = false →
      w.sweep = .ok w' → Steps w true w'

theorem step_eq_ok {w w' : World ρ} {finished : Bool} :
    w.step = .ok (finished, w') ↔ Steps w finished w' := by
  unfold step
  constructor
  · intro stepped
    split at stepped
    · next due =>
      obtain ⟨_, swept, same⟩ := map_eq_ok.1 stepped
      obtain ⟨rfl, rfl⟩ := Prod.mk.inj same
      exact .sweep (.inl due) swept
    · next idle =>
      split at stepped
      · next on =>
        obtain ⟨_, started, same⟩ := map_eq_ok.1 stepped
        obtain ⟨rfl, rfl⟩ := Prod.mk.inj same
        exact .start idle on started
      · next off =>
        obtain ⟨_, swept, same⟩ := map_eq_ok.1 stepped
        obtain ⟨rfl, rfl⟩ := Prod.mk.inj same
        exact .sweep (.inr ⟨idle, Bool.eq_false_iff.2 off⟩) swept
    · next marking =>
      obtain ⟨_, marked, same⟩ := map_eq_ok.1 stepped
      obtain ⟨rfl, rfl⟩ := Prod.mk.inj same
      exact .mark marking marked
    · next marked =>
      obtain ⟨_, ended, same⟩ := map_eq_ok.1 stepped
      obtain ⟨rfl, rfl⟩ := Prod.mk.inj same
      exact .finish marked ended
  · intro steps
    cases steps with
    | start idle on started => simp [idle, on, started, Functor.map, Except.map]
    | mark marking marked => simp [marking, marked, Functor.map, Except.map]
    | finish marked ended => simp [marked, ended, Functor.map, Except.map]
    | sweep due swept =>
      rcases due with due | ⟨idle, off⟩
      · simp [due, swept, Functor.map, Except.map]
      · simp [idle, off, swept, Functor.map, Except.map]

/-! ## A measure of the work ahead -/

omit [ForeignHeap ρ] in
def unprocessed (w : World ρ) : Nat := (w.collector.snapshot?.map Snapshot.unprocessed).getD 0

omit [ForeignHeap ρ] in
/-- Falls with every step that does not end the pass. -/
def workAhead (w : World ρ) : Nat :=
  match w.collector.phase with
  | .idle | .sweepDue => 2 * w.collector.sets.total + 2
  | .marking => 2 * w.unprocessed + (if w.host.isDrained then 0 else 1) + 1
  | .marked => 0

theorem total_of_untrackContainer {w w' : World ρ} {o : ObjectId}
    (h : w.untrackContainer o = .ok w') :
    w'.collector.sets.total ≤ w.collector.sets.total := by
  simp only [untrackContainer, bind_eq_ok] at h
  obtain ⟨os, -, h⟩ := h
  split at h
  · obtain rfl := pure_eq_ok.1 h
    exact Nat.le_refl _
  · obtain rfl := pure_eq_ok.1 h
    exact TrackedSets.total_erase_le ..

theorem total_of_prepareSets {w w' : World ρ} (h : w.prepareSets = .ok w') :
    w'.collector.sets.total ≤ w.collector.sets.total := by
  unfold prepareSets at h
  split at h
  · simp only [untrackContainers, bind_eq_ok] at h
    obtain ⟨os, -, h⟩ := h
    exact foldlM_induction (P := fun v => v.collector.sets.total ≤ w.collector.sets.total) h
      (Nat.le_refl _) fun _ _ _ _ less step => Nat.le_trans (total_of_untrackContainer step) less
  · obtain rfl := Except.ok.inj h
    exact Nat.le_refl _

theorem unprocessed_of_startPass {w w' : World ρ} (h : w.startPass = .ok w') :
    w'.collector.phase = .marking ∧ w'.unprocessed ≤ w.collector.sets.total := by
  unfold startPass at h
  split at h
  · simp at h
  · simp only [bind_eq_ok, pure_eq_ok] at h
    obtain ⟨w₁, prepared, taken, htaken, snapshot, hroots, rfl⟩ := h
    refine ⟨rfl, ?_⟩
    calc snapshot.unprocessed
      _ ≤ snapshot.size := snapshot.unprocessed_le_size
      _ = taken.size := Snapshot.size_collectRoots hroots
      _ = (w₁.collector.sets.merged .new .inCollection).size .inCollection :=
        Snapshot.size_take htaken
      _ ≤ (w₁.collector.sets.merged .new .inCollection).total := TrackedSets.size_le_total ..
      _ = w₁.collector.sets.total := TrackedSets.total_merged ..
      _ ≤ w.collector.sets.total := total_of_prepareSets prepared

omit [ForeignHeap ρ] in
/-- After a marking step, marking has ended, or fewer records are unprocessed, or the host heap had
something left to trace. -/
theorem markStep_progress {w w' : World ρ} (h : w.markStep = .ok w') :
    w'.collector.phase = .marked ∨ w'.collector.phase = .marking ∧
      (w'.unprocessed < w.unprocessed ∨
        w'.unprocessed = w.unprocessed ∧ w.host.isDrained = false) := by
  unfold markStep at h
  split at h
  · simp at h
  · next snapshot hs =>
    simp only [bind_eq_ok] at h
    obtain ⟨⟨progress, m⟩, hrun, h⟩ := h
    rw [← pure_eq_ok.1 h]
    simp only [unprocessed, hs, Option.map_some, Option.getD_some]
    by_cases hend : progress = .fixedPoint ∧ m.host.isDrained = true
    · simp [hend]
    · refine .inr ⟨if_neg hend, ?_⟩
      rcases Marking.run_progress hrun with ⟨hp, hh, hsn⟩ | less
      · refine .inr ⟨by rw [hsn], ?_⟩
        simpa [hp, hh] using hend
      · exact .inl less

theorem workAhead_lt_of_step {w w₁ : World ρ} {host : HostHeap}
    (h : w.step = .ok (false, w₁)) (hd : w₁.host.drain = .ok host) :
    workAhead { w₁ with host } < w.workAhead := by
  have drained : host.isDrained = true := by
    simp [HostHeap.isDrained, HostHeap.worklist_of_drain hd]
  cases step_eq_ok.1 h with
  | start idle _ started =>
    obtain ⟨marking, less⟩ := unprocessed_of_startPass started
    simp only [workAhead, marking, idle, drained, if_true]
    simp only [unprocessed] at less ⊢
    omega
  | mark marking stepped =>
    rcases markStep_progress stepped with ended | ⟨goes, progress⟩
    · simp only [workAhead, ended, marking]
      omega
    · simp only [workAhead, goes, marking, drained, if_true]
      simp only [unprocessed] at progress ⊢
      rcases progress with less | ⟨same, left⟩
      · omega
      · simp only [same, left, Bool.false_eq_true, if_false]
        omega

/-! ## Whole passes -/

/-- Takes steps until one ends the pass, and drains the host heap after each. Before each step the
program may change the foreign heap. Gives the number of steps. -/
def collectWith (program : Phase → ρ → Except Fault ρ) (w : World ρ) :
    Except Fault (Nat × World ρ) :=
  match program w.collector.phase w.foreign with
  | .error fault => .error fault
  | .ok foreign =>
    match _ : step { w with foreign } with
    | .error fault => .error fault
    | .ok (true, w) => do
      return (1, { w with host := ← w.host.drain })
    | .ok (false, w) =>
      match _ : w.host.drain with
      | .error fault => .error fault
      | .ok host => do
        let (steps, w) ← collectWith program { w with host }
        return (steps + 1, w)
termination_by w.workAhead
decreasing_by
  have less := workAhead_lt_of_step ‹step _ = _› ‹_›
  exact less

/-- Takes steps until one ends the pass, while the program rests. Gives the number of steps. -/
def collect (w : World ρ) : Except Fault (Nat × World ρ) :=
  w.collectWith fun _ foreign => .ok foreign

end CycleCollector.World
