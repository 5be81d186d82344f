import CycleCollector.Proofs.WholePass
/-!
# How long a collection takes

A marking step that finds nothing ends marking, unless the host heap had something left to trace
when the step began; and between two steps the host heap traces everything. So only the first
marking step can be idle, and every later one but the last processes a record. A pass over `n`
records, at whatever point it is taken up, ends within `n + 3` steps: no one needs to count on fuel,
and it makes no difference how few scans a step may make.

## Main definitions

* `World.Lasts`: some rounds, of a step and a drain each, that do not end the pass.
* `World.snapshotAhead?`, `World.stepLimit`: what is still to be marked, and how many steps that
  takes.

## Main statements

* `World.Lasts.lt_stepLimit`: the rounds of a pass are bounded by its records.
* `World.collect_bounded`: a collection without a fault ends within the limit.
-/

namespace CycleCollector

namespace Marking

variable {eager : Bool} {m m' : Marking} {progress : Progress} {i : Nat} {positions : List Nat}
  {bound : Nat}

theorem scans_of_foldlM_visit (visited : positions.foldlM (visit eager) m = .ok m') :
    m'.scans = m.scans := by
  refine foldlM_induction (P := fun k => k.scans = m.scans) visited rfl ?_
  intro i _ m₁ m₂ same visited
  cases visits_of_visit visited <;> exact same

theorem scans_of_scanUpTo (ran : m.scanUpTo eager bound = .ok (progress, m')) :
    m'.scans ≤ m.scans + bound := by
  induction bound generalizing m with
  | zero =>
    obtain ⟨-, rfl⟩ := Prod.mk.inj (Except.ok.inj ran)
    exact Nat.le_add_right ..
  | succ bound ih =>
    simp only [scanUpTo, bind_eq_ok] at ran
    obtain ⟨m₁, scanned, ran⟩ := ran
    have once : m₁.scans = m.scans + 1 := scans_of_foldlM_visit scanned
    split at ran
    · obtain ⟨-, rfl⟩ := Prod.mk.inj (pure_eq_ok.1 ran)
      omega
    · have := ih ran
      omega

end Marking

namespace World

variable {ρ : Type} [ForeignHeap ρ] {w w' w₁ v : World ρ} {s : Snapshot} {k n : Nat}
  {host : HostHeap}

/-- `k` rounds lead from one world to another, each a step that does not end the pass, and a
drain. -/
inductive Lasts : Nat → World ρ → World ρ → Prop
  | here {w : World ρ} : Lasts 0 w w
  | round {k : Nat} {w w₁ v : World ρ} {host : HostHeap} : w.step = .ok (false, w₁) →
      w₁.host.drain = .ok host → Lasts k { w₁ with host } v → Lasts (k + 1) w v

/-- A collection is made of such rounds and a last one. -/
theorem lasts_of_collect (collected : w.collect = .ok (n, w')) :
    ∃ k v, n = k + 1 ∧ Lasts k w v ∧ ∃ w₁, v.step = .ok (true, w₁) := by
  induction n using Nat.strongRecOn generalizing w with
  | _ n ih =>
    rw [collect_eq] at collected
    simp only [bind_eq_ok] at collected
    obtain ⟨⟨finished, w₁⟩, stepped, host, drained, collected⟩ := collected
    cases finished with
    | true =>
      obtain ⟨rfl, -⟩ := Prod.mk.inj (pure_eq_ok.1 collected)
      exact ⟨0, w, rfl, .here, w₁, stepped⟩
    | false =>
      simp only [Bool.false_eq_true, if_false, bind_eq_ok, pure_eq_ok] at collected
      obtain ⟨⟨steps, w₂⟩, others, collected⟩ := collected
      obtain ⟨rfl, rfl⟩ := Prod.mk.inj collected
      obtain ⟨k, v, rfl, lasts, last⟩ := ih steps (Nat.lt_succ_self steps) others
      exact ⟨k + 1, v, rfl, .round stepped drained lasts, last⟩

/-! ## Rounds of marking -/

/-- When marking has ended, the next step ends the pass. -/
theorem Lasts.eq_zero_of_marked (lasts : Lasts k w v) (marked : w.collector.phase = .marked) :
    k = 0 := by
  cases lasts with
  | here => rfl
  | round stepped =>
    cases step_eq_ok.1 stepped with
    | start idle => simp [marked] at idle
    | mark marking => simp [marked] at marking

/-- Every round of marking processes a record, but for the last one, and for the first one if the
host heap still has something to trace. -/
theorem Lasts.le_of_marking (lasts : Lasts k w v) (marking : w.collector.phase = .marking) :
    k ≤ w.unprocessed + (if w.host.isDrained then 0 else 1) + 1 := by
  induction lasts with
  | here => exact Nat.zero_le _
  | @round k w w₁ v host stepped drained lasts ih =>
    have stepped : w.markStep = .ok w₁ := by
      cases step_eq_ok.1 stepped with
      | start idle => simp [marking] at idle
      | mark _ stepped => exact stepped
    have empty : host.isDrained = true := by
      simp [HostHeap.isDrained, HostHeap.worklist_of_drain drained]
    rcases markStep_progress stepped with ended | ⟨goes, progress⟩
    · have last := lasts.eq_zero_of_marked ended
      omega
    · have rest := ih goes
      rw [if_pos empty] at rest
      have same : unprocessed { w₁ with host } = w₁.unprocessed := rfl
      rcases progress with less | ⟨equal, left⟩
      · omega
      · simp only [left, Bool.false_eq_true, if_false]
        omega

/-! ## Rounds of a pass -/

/-- The snapshot that a collection still has to mark: the one of the pass in progress, or the one
that its first step takes. -/
def snapshotAhead? (w : World ρ) : Option Snapshot :=
  match w.collector.phase with
  | .marking => w.collector.snapshot?
  | .idle =>
    if w.collector.options.cycleDetection then
      w.startPass.toOption.bind fun w => w.collector.snapshot?
    else none
  | .marked | .sweepDue => none

/-- How many steps a collection takes, at most: three more than there are records to be marked, or a
single one if nothing is to be marked. -/
def stepLimit (w : World ρ) : Nat :=
  match w.snapshotAhead? with
  | some s => s.size + 3
  | none => 1

omit [ForeignHeap ρ] in
theorem unprocessed_le (taken : w.collector.snapshot? = some s) : w.unprocessed ≤ s.size := by
  simpa [unprocessed, taken] using s.unprocessed_le_size

/-- No pass lasts longer, wherever it is taken up. -/
theorem Lasts.lt_stepLimit (lasts : Lasts k w v) : k < w.stepLimit := by
  cases lasts with
  | here =>
    unfold stepLimit
    split <;> omega
  | @round k _ w₁ _ host stepped drained lasts =>
    have empty : host.isDrained = true := by
      simp [HostHeap.isDrained, HostHeap.worklist_of_drain drained]
    cases step_eq_ok.1 stepped with
    | start idle on started =>
      obtain ⟨_, _, s, _, -, -, -, -, same⟩ := startPass_eq_ok started
      have taken : w₁.collector.snapshot? = some s := by rw [same]
      have marking : w₁.collector.phase = .marking := by rw [same]
      have ahead : w.snapshotAhead? = some s := by
        simp [snapshotAhead?, idle, on, started, Except.toOption, taken]
      have rounds := lasts.le_of_marking marking
      have few : unprocessed { w₁ with host } ≤ s.size := unprocessed_le taken
      rw [if_pos empty] at rounds
      rw [stepLimit, ahead]
      show k + 1 < s.size + 3
      omega
    | mark marking marked =>
      obtain ⟨s, _, _, _, taken, -, -, -⟩ := markStep_eq_ok marked
      have ahead : w.snapshotAhead? = some s := by simp [snapshotAhead?, marking, taken]
      have rounds := (Lasts.round stepped drained lasts).le_of_marking marking
      have few := unprocessed_le taken
      rw [stepLimit, ahead]
      show k + 1 < s.size + 3
      split at rounds <;> omega

omit [ForeignHeap ρ] in
/-- A marking step makes no more scans than it may. -/
theorem scans_of_markStep (marked : w.markStep = .ok w') (taken : w.collector.snapshot? = some s) :
    w'.collector.stats.scans ≤
      w.collector.stats.scans + Marking.scanBound s w.collector.options.scansPerStep := by
  simp only [markStep, taken, bind_eq_ok, pure_eq_ok] at marked
  obtain ⟨⟨progress, m⟩, ran, rfl⟩ := marked
  have scans := Marking.scans_of_scanUpTo ran
  simp only [Nat.zero_add] at scans
  exact Nat.add_le_add_left scans _

theorem scans_of_step {finished : Bool} (stepped : w.step = .ok (finished, w'))
    (marking : w.collector.phase = .marking) (limited : w.collector.options.scansPerStep = some k) :
    w'.collector.stats.scans ≤ w.collector.stats.scans + max k 1 := by
  cases step_eq_ok.1 stepped with
  | start idle => simp [marking] at idle
  | finish marked => simp [marking] at marked
  | sweep due => simp [marking] at due
  | mark _ marked =>
    obtain ⟨s, _, _, _, taken, -⟩ := markStep_eq_ok marked
    simpa [limited, Marking.scanBound] using scans_of_markStep marked taken

/-! ## Whole collections -/

/-- From whatever state, the rounds of a collection come to an end: there are fewer than `stepLimit`
of them that do not end it. A collection without a fault has a result after `stepLimit` steps at
most. How few scans a step may make, down to none, makes no difference to this; a limit of zero
counts as one. -/
theorem collect_bounded (w : World ρ) :
    (∀ k v, Lasts k w v → k < w.stepLimit) ∧
      ((∀ fault, w.collect ≠ .error fault) →
        ∃ n w', w.collect = .ok (n, w') ∧ n ≤ w.stepLimit) ∧
      ∀ limit finished w₁, w.collector.phase = .marking →
        w.collector.options.scansPerStep = some limit → w.step = .ok (finished, w₁) →
        w₁.collector.stats.scans ≤ w.collector.stats.scans + max limit 1 := by
  refine ⟨fun k v => Lasts.lt_stepLimit, fun sound => ?_, fun limit finished w₁ marking limited
    stepped => scans_of_step stepped marking limited⟩
  cases collected : w.collect with
  | error fault => exact absurd collected (sound fault)
  | ok result =>
    obtain ⟨n, w'⟩ := result
    obtain ⟨k, v, rfl, lasts, -⟩ := lasts_of_collect collected
    exact ⟨k + 1, w', rfl, lasts.lt_stepLimit⟩

/-- Two objects in a chain, the bridge of its first one stored into a marked host object while the
pass is marking. With a bound of zero scans to a step, the first step finds nothing, the second and
the third find an object each, the fourth finds nothing and the fifth ends the pass: three steps
more than there are records. -/
theorem collect_bounded_chain :
    let foreign : Arena := { cells := #[{ refcount := 1 },
      { refcount := Refcount.hostBias, references := [⟨0⟩], bridge := some ⟨0⟩ }] }
    let start : World Arena :=
      { collector := { options := { scansPerStep := some 0 } }
        foreign
        host := { objects := #[{}] } }
    let w := start.after [.track ⟨0⟩, .track ⟨1⟩, .step,
      .host { objects := #[{}], worklist := [⟨0⟩] }]
    w.collector.phase = .marking ∧ w.stepLimit = 5 ∧ (∀ fault, w.collect ≠ .error fault) ∧
      ∃ w', w.collect = .ok (5, w') ∧ 5 ≤ w.stepLimit := by
  intro foreign start w
  have collected : Prod.fst <$> w.collect = .ok 5 := by decide +kernel
  obtain ⟨⟨_, w'⟩, collected, rfl⟩ := map_eq_ok.1 collected
  have sound : ∀ fault, w.collect ≠ .error fault := by simp [collected]
  obtain ⟨n, v, same, le⟩ := (collect_bounded w).2.1 sound
  obtain ⟨rfl, rfl⟩ := Prod.mk.inj (Except.ok.inj (collected.symm.trans same))
  exact ⟨by decide +kernel, by decide +kernel, sound, w', collected, le⟩

end World

end CycleCollector
