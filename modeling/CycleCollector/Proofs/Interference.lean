import CycleCollector.Proofs.WholePass
/-!
# A program that interferes with a pass

The program may change the foreign heap before each step. If it rests until marking has ended, then
the pass goes the way of one that nobody disturbs, up to its verdict; the end of the pass sees what
the program changed, and nothing before does. How many steps that takes depends on the limit on
scans and on when the host heap traces: without a limit and with an eager host heap it is always
three.

## Main statements

* `World.Nears.collectWith_eq_ok`: a pass with a program that interferes before the verdict only.
* `World.Nears.eq_two`: marking ends with the second step.
* `World.collectWith_of_sweeps`: a sweep leaves the program no time to interfere.
-/

namespace CycleCollector

namespace Marking

variable {eager : Bool} {limit : Option Nat} {m m' : Marking} {progress : Progress}

theorem fixedPoint_of_scanUpTo {bound : Nat} (ran : m.scanUpTo eager bound = .ok (progress, m'))
    (enough : m.snapshot.unprocessed < bound) : progress = .fixedPoint := by
  induction bound generalizing m with
  | zero => omega
  | succ bound ih =>
    simp only [scanUpTo, bind_eq_ok] at ran
    obtain ⟨m₁, scanned, ran⟩ := ran
    split at ran
    · exact (Prod.mk.inj (pure_eq_ok.1 ran)).1.symm
    · next some =>
      have less := unprocessed_scan scanned some
      exact ih ran (by omega)

theorem fixedPoint_of_run (ran : m.run eager none = .ok (progress, m')) : progress = .fixedPoint :=
  fixedPoint_of_scanUpTo ran (Nat.lt_succ_of_le m.snapshot.unprocessed_le_size)

/-- An eager host heap has nothing to trace between two visits. -/
theorem worklist_of_run (ran : m.run true limit = .ok (progress, m'))
    (drained : m.host.worklist = []) : m'.host.worklist = [] := by
  refine run_induction (P := fun _ g => g.worklist = []) ran drained fun m i m' drained visits => ?_
  cases visits with
  | quiet => exact drained
  | @finds r _ _ _ _ _ _ received =>
    cases bridge : r.bridge with
    | none =>
      rw [bridge] at received
      exact Except.ok.inj received ▸ drained
    | some h =>
      rw [bridge] at received
      exact HostHeap.worklist_of_drain received

end Marking

namespace World

variable {ρ : Type} [ForeignHeap ρ] {program : Phase → ρ → Except Fault ρ} {w w₁ w' x : World ρ}
  {n k : Nat}

/-- With an eager host heap and no limit on scans the first marking step ends marking. -/
theorem Nears.eq_two (nears : Nears n w w₁) (idle : w.collector.phase = .idle)
    (unlimited : w.collector.options.scansPerStep = none)
    (eager : w.collector.options.eagerHostTrace = true) : n = 2 := by
  cases nears with
  | here marked => simp [idle] at marked
  | step _ stepped drained nears =>
    cases step_eq_ok.1 stepped with
    | mark marking => simp [idle] at marking
    | start _ _ started =>
      obtain ⟨v, _, s, _, prepared, -, -, -, rfl⟩ := startPass_eq_ok started
      have options := (prepares_of_prepareSets prepared).options
      have rest := HostHeap.worklist_of_drain drained
      cases nears with
      | here marked => simp at marked
      | step _ stepped' _ nears =>
        cases step_eq_ok.1 stepped' with
        | start idle => simp at idle
        | mark _ marked =>
          obtain ⟨_, progress, m, _, -, ran, -, rfl⟩ := markStep_eq_ok marked
          dsimp only at ran
          rw [options, unlimited, eager] at ran
          have ended : progress = .fixedPoint ∧ m.host.isDrained = true :=
            ⟨Marking.fixedPoint_of_run ran, List.isEmpty_iff.2 (Marking.worklist_of_run ran rest)⟩
          cases nears with
          | here => rfl
          | step ongoing => simp [ended] at ongoing

theorem Nears.options (nears : Nears n w w₁) : w₁.collector.options = w.collector.options := by
  induction nears with
  | here => rfl
  | step _ stepped _ _ ih => exact ih.trans (stages_of_step stepped).options

/-- If the program rests until marking has ended, it interferes once, and then the pass ends. -/
theorem Nears.collectWith_eq_ok (nears : Nears n w w₁)
    (rests : ∀ phase foreign, phase ≠ .marked → program phase foreign = .ok foreign) :
    w.collectWith program = .ok (k, x) ↔ ∃ foreign w₂ host,
      program .marked w₁.foreign = .ok foreign ∧ finishPass { w₁ with foreign } = .ok w₂ ∧
        w₂.host.drain = .ok host ∧ k = n + 1 ∧ x = { w₂ with host } := by
  induction nears generalizing k with
  | @here w marked =>
    have step : ∀ foreign : ρ, World.step { w with foreign } =
        (true, ·) <$> finishPass { w with foreign } :=
      fun foreign => by simp only [World.step, marked]
    rw [collectWith_eq]
    simp only [bind_eq_ok, marked, step]
    constructor
    · rintro ⟨foreign, acted, ⟨_, _⟩, stepped, host, drained, same⟩
      obtain ⟨w₂, finished, same'⟩ := map_eq_ok.1 stepped
      obtain ⟨rfl, rfl⟩ := Prod.mk.inj same'
      obtain ⟨rfl, rfl⟩ := Prod.mk.inj (pure_eq_ok.1 same)
      exact ⟨foreign, w₂, host, acted, finished, drained, rfl, rfl⟩
    · rintro ⟨foreign, w₂, host, acted, finished, drained, rfl, rfl⟩
      exact ⟨foreign, acted, _, map_eq_ok.2 ⟨w₂, finished, rfl⟩, host, drained, rfl⟩
  | @step n w w₁ w' host ongoing stepped drained _ ih =>
    have acted := rests w.collector.phase w.foreign ongoing
    rw [collectWith_eq]
    simp only [acted, stepped, drained, bind_eq_ok, pure_eq_ok, Except.ok.injEq,
      exists_eq_left', Bool.false_eq_true, if_false]
    constructor
    · rintro ⟨⟨steps, _⟩, others, same⟩
      obtain ⟨rfl, rfl⟩ := Prod.mk.inj same
      obtain ⟨foreign, w₂, host, acted, finished, drained, rfl, rfl⟩ := ih.1 others
      exact ⟨foreign, w₂, host, acted, finished, drained, rfl, rfl⟩
    · rintro ⟨foreign, w₂, host, acted, finished, drained, rfl, rfl⟩
      exact ⟨(n + 1, _), ih.2 ⟨foreign, w₂, host, acted, finished, drained, rfl, rfl⟩, rfl⟩

/-- A sweep is over after one step, whatever the program does later in a pass. -/
theorem collectWith_of_sweeps (idle : w.collector.phase = .idle)
    (off : w.collector.options.cycleDetection = false)
    (rests : ∀ foreign, program .idle foreign = .ok foreign) (collected : w.collect = .ok (k, x)) :
    w.collectWith program = .ok (1, x) ∧ x.collector.lastOutcome = some .swept ∧
      x.collector.phase = .idle ∧ x.collector.options = w.collector.options := by
  rw [collect_eq] at collected
  simp only [bind_eq_ok] at collected
  obtain ⟨⟨finished, w₁⟩, stepped, host, drained, collected⟩ := collected
  cases step_eq_ok.1 stepped with
  | start _ on => simp [off] at on
  | mark marking => simp [idle] at marking
  | finish marked => simp [idle] at marked
  | sweep _ swept =>
    obtain ⟨-, rfl⟩ := Prod.mk.inj (pure_eq_ok.1 collected)
    obtain ⟨_, _, -, rfl⟩ := sweep_eq_ok swept
    refine ⟨?_, rfl, rfl, rfl⟩
    rw [collectWith_eq]
    simp only [idle, rests, stepped, drained, bind_eq_ok, Except.ok.injEq, exists_eq_left']
    rfl

end World

end CycleCollector
