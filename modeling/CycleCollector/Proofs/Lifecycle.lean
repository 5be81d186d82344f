import CycleCollector.Proofs.Faults
/-!
# The life of a snapshot

A snapshot is taken by the step that starts a pass and given up by the step that ends it, so there
is one exactly while a pass is in progress, and the counters of snapshots and passes go along with
the phase. Nothing else moves them: not what the program asks for, not a change of the options in
the middle of a pass, and not a request to sweep.

A whole collection is nothing but steps with the host heap at work between them. Hence what every
run keeps, every run with whole collections keeps as well.

## Main definitions

* `Phase.Follows`: what one action can make of a phase.
* `Collector.Tallied`: snapshot, phase and counters agree.
* `World.Operation`, `World.operateAll`: actions and whole collections.
* `World.script`: the actions that some operations consist of.
* `World.phases`: the phases that some actions go through.

## Main statements

* `Phase.marking_of_isChain`: from the start of marking there is one way to go.
* `World.tallied_of_run`: every run keeps the counters.
* `World.stopsBy_operate`, `World.concernsSnapshot_of_operate`: in a tallied world only the heaps
  and the roots cause faults.
* `World.lifecycle_of_operateAll`: all of this for every run with whole collections.
-/

namespace CycleCollector

/-! ## Phases -/

namespace Phase

inductive Follows : Phase → Phase → Prop
  | stay (p : Phase) : Follows p p
  | start : Follows .idle .marking
  | mark : Follows .marking .marked
  | finish : Follows .marked .idle
  | request : Follows .idle .sweepDue
  | sweep : Follows .sweepDue .idle

/-- Once marking has ended, the pass ends before anything else happens. -/
theorem marked_of_isChain {ps : List Phase} (chain : List.IsChain Follows (.marked :: ps)) :
    ∃ n rest, ps = List.replicate n .marked ++ rest ∧ (rest = [] ∨ rest.head? = some .idle) := by
  induction ps with
  | nil => exact ⟨0, [], rfl, .inl rfl⟩
  | cons p ps ih =>
    obtain ⟨follows, later⟩ := List.isChain_cons_cons.1 chain
    cases follows with
    | stay =>
      obtain ⟨n, rest, rfl, ended⟩ := ih later
      exact ⟨n + 1, rest, rfl, ended⟩
    | finish => exact ⟨0, .idle :: ps, rfl, .inr rfl⟩

/-- A pass goes through marking, then waits marked, and then it ends. -/
theorem marking_of_isChain {ps : List Phase} (chain : List.IsChain Follows (.marking :: ps)) :
    ∃ m n rest, ps = List.replicate m .marking ++ List.replicate n .marked ++ rest ∧
      (rest = [] ∨ 0 < n ∧ rest.head? = some .idle) := by
  induction ps with
  | nil => exact ⟨0, 0, [], rfl, .inl rfl⟩
  | cons p ps ih =>
    obtain ⟨follows, later⟩ := List.isChain_cons_cons.1 chain
    cases follows with
    | stay =>
      obtain ⟨m, n, rest, rfl, ended⟩ := ih later
      exact ⟨m + 1, n, rest, rfl, ended⟩
    | mark =>
      obtain ⟨n, rest, rfl, ended⟩ := marked_of_isChain later
      exact ⟨0, n + 1, rest, rfl, ended.imp_right fun head => ⟨Nat.succ_pos n, head⟩⟩

end Phase

/-- The faults of a pass that has two snapshots, or none. -/
def Fault.concernsSnapshot : Fault → Bool
  | .snapshotAllocatedTwice | .markingWithoutSnapshot | .snapshotDiscardedTwice => true
  | _ => false

/-! ## Counters -/

structure Tally where
  taken : Nat
  discarded : Nat
  passes : Nat
  resurrected : Nat

def Stats.tally (s : Stats) : Tally where
  taken := s.snapshotsTaken
  discarded := s.snapshotsDiscarded
  passes := s.passes
  resurrected := s.resurrectedPasses

structure Collector.Tallied (c : Collector) : Prop where
  inPass : c.snapshot?.isSome = c.phase.inPass
  taken : c.stats.tally.taken = c.stats.tally.discarded + if c.snapshot?.isSome then 1 else 0
  passes : c.stats.tally.passes = c.stats.tally.discarded
  resurrected : c.stats.tally.resurrected ≤ c.stats.tally.passes

theorem Collector.Tallied.start (options : Options) : Tallied { options } where
  inPass := rfl
  taken := rfl
  passes := rfl
  resurrected := Nat.le_refl 0

theorem Collector.Tallied.congr {c c' : Collector} (tallied : c.Tallied)
    (tally : c'.stats.tally = c.stats.tally) (present : c'.snapshot?.isSome = c.snapshot?.isSome)
    (inPass : c'.phase.inPass = c.phase.inPass) : c'.Tallied where
  inPass := by rw [present, inPass, tallied.inPass]
  taken := by rw [tally, present, tallied.taken]
  passes := by rw [tally, tallied.passes]
  resurrected := by
    rw [tally]
    exact tallied.resurrected

namespace World

variable {ρ : Type} [ForeignHeap ρ] {w w' : World ρ} {n : Nat} {o : ObjectId} {evidence : Evidence}
  {outcome : Outcome}

/-! ## The stages of a pass -/

theorem tally_of_prepareSets (prepared : w.prepareSets = .ok w') :
    w'.collector.stats.tally = w.collector.stats.tally :=
  prepareSets_induction (P := fun v => v.collector.stats.tally = w.collector.stats.tally)
    prepared rfl fun _ _ _ _ same => same

theorem tally_of_startPass (started : w.startPass = .ok w') :
    w.collector.snapshot? = none ∧ w'.collector.stats.tally =
      { w.collector.stats.tally with taken := w.collector.stats.tally.taken + 1 } := by
  unfold startPass at started
  split at started
  · simp at started
  · next absent =>
    simp only [bind_eq_ok, pure_eq_ok] at started
    obtain ⟨v, prepared, taken, -, snapshot, -, rfl⟩ := started
    refine ⟨by simpa using absent, ?_⟩
    rw [← tally_of_prepareSets prepared]
    rfl

omit [ForeignHeap ρ] in
theorem tally_of_markStep (marked : w.markStep = .ok w') :
    w'.collector.stats.tally = w.collector.stats.tally := by
  unfold markStep at marked
  split at marked
  · simp at marked
  · simp only [bind_eq_ok, pure_eq_ok] at marked
    obtain ⟨⟨progress, m⟩, -, rfl⟩ := marked
    rfl

theorem tally_of_keepLegacy (kept : w.keepLegacy = .ok (n, w')) :
    w'.collector.stats.tally = w.collector.stats.tally := by
  simp only [keepLegacy, bind_eq_ok, pure_eq_ok] at kept
  obtain ⟨legacy, -, reached, -, kept⟩ := kept
  obtain ⟨-, rfl⟩ := Prod.mk.inj kept
  rfl

theorem tally_of_isolateFinalizable (isolated : w.isolateFinalizable = .ok (n, w')) :
    w'.collector.stats.tally = w.collector.stats.tally := by
  simp only [isolateFinalizable, bind_eq_ok] at isolated
  obtain ⟨finalizable, -, isolated⟩ := isolated
  split at isolated <;> obtain ⟨-, rfl⟩ := Prod.mk.inj (pure_eq_ok.1 isolated) <;> rfl

theorem tally_of_markBorder (marked : w.markBorder evidence = .ok w') :
    w'.collector.stats.tally = w.collector.stats.tally := by
  simp only [markBorder, bind_eq_ok, pure_eq_ok] at marked
  obtain ⟨_, -, _, -, _, -, rfl⟩ := marked
  rfl

theorem tally_of_releaseStaged (released : w.releaseStaged = .ok (n, w')) :
    w'.collector.stats.tally = w.collector.stats.tally := by
  simp only [releaseStaged, bind_eq_ok, pure_eq_ok] at released
  obtain ⟨foreign, -, released⟩ := released
  obtain ⟨-, rfl⟩ := Prod.mk.inj released
  rfl

theorem tally_of_disposeStaged (disposed : w.disposeStaged = .ok (outcome, w')) :
    w'.collector.stats.tally = w.collector.stats.tally := by
  obtain ⟨_, w₁, _, w₂, w₃, _, kept, isolated, marked, released, -⟩ :=
    disposeStaged_eq_ok.1 disposed
  calc w'.collector.stats.tally
    _ = w₃.collector.stats.tally := tally_of_releaseStaged released
    _ = w₂.collector.stats.tally := tally_of_markBorder marked
    _ = w₁.collector.stats.tally := tally_of_isolateFinalizable isolated
    _ = w.collector.stats.tally := tally_of_keepLegacy kept

/-- A pass that ends is counted once, and its snapshot with it, whatever its outcome. -/
theorem tally_of_finishPass (finished : w.finishPass = .ok w') :
    w.collector.snapshot?.isSome ∧ w'.collector.stats.tally =
      { taken := w.collector.stats.tally.taken
        discarded := w.collector.stats.tally.discarded + 1
        passes := w.collector.stats.tally.passes + 1
        resurrected := w.collector.stats.tally.resurrected +
          if w'.collector.lastOutcome = some .resurrected then 1 else 0 } := by
  obtain ⟨snapshot, verdict, sets, outcome, v, taken, -, disposed, rfl⟩ := finishPass_eq_ok finished
  have same := tally_of_disposeStaged disposed
  simp only [Stats.tally, discardSnapshot, Tally.mk.injEq] at same
  obtain ⟨taken_eq, discarded_eq, passes_eq, resurrected_eq⟩ := same
  refine ⟨by simp [taken], ?_⟩
  simp [endPass, Stats.tally, taken_eq, discarded_eq, passes_eq, resurrected_eq]

theorem tally_of_sweep (swept : w.sweep = .ok w') :
    w'.collector.stats.tally = w.collector.stats.tally := by
  simp only [sweep, bind_eq_ok, pure_eq_ok] at swept
  obtain ⟨v, marked, rfl⟩ := swept
  have same := tally_of_markBorder marked
  exact same

/-! ## What every run keeps -/

theorem Stages.tallied (stages : Stages w w') (tallied : w.collector.Tallied) :
    w'.collector.Tallied := by
  cases stages with
  | start idle started =>
    obtain ⟨absent, tally⟩ := tally_of_startPass started
    have taken := tallied.taken
    rw [absent] at taken
    obtain ⟨_, _, _, _, -, -, -, -, rfl⟩ := startPass_eq_ok started
    refine ⟨rfl, ?_, ?_, ?_⟩
    · simpa [tally] using taken
    · simpa only [tally] using tallied.passes
    · simpa only [tally] using tallied.resurrected
  | mark marking marked =>
    have tally := tally_of_markStep marked
    obtain ⟨_, progress, m, _, present, -, -, rfl⟩ := markStep_eq_ok marked
    refine tallied.congr tally (by simp [present]) ?_
    rw [marking]
    dsimp only
    split <;> rfl
  | finish marked finished =>
    obtain ⟨present, tally⟩ := tally_of_finishPass finished
    obtain ⟨absent, idle⟩ := snapshot_of_finishPass finished
    have taken := tallied.taken
    rw [if_pos present] at taken
    refine ⟨by simp [absent, idle, Phase.inPass], ?_, ?_, ?_⟩
    · simpa [tally, absent] using taken
    · simpa [tally] using tallied.passes
    · have resurrected := tallied.resurrected
      rw [tally]
      dsimp only
      split <;> omega
  | sweep outside swept =>
    have tally := tally_of_sweep swept
    obtain ⟨host, stats, -, rfl⟩ := sweep_eq_ok swept
    exact tallied.congr tally rfl outside.symm

/-- Whatever happens in a world, the counters go along with it. -/
theorem Moves.tallied (moves : Moves w w') (tallied : w.collector.Tallied) :
    w'.collector.Tallied := by
  cases moves with
  | heaps => exact tallied
  | track _ tracked =>
    obtain ⟨_, -, rfl⟩ := Collector.track_eq_ok.1 tracked
    exact tallied.congr rfl rfl rfl
  | untrack _ untracked =>
    obtain ⟨-, rfl⟩ := Collector.untrack_eq_ok.1 untracked
    exact tallied.congr rfl rfl rfl
  | finalizersDone _ done =>
    obtain ⟨-, rfl⟩ := Collector.finalizersDone_eq_ok.1 done
    exact tallied.congr rfl rfl rfl
  | setCycleDetection on => exact tallied.congr rfl rfl rfl
  | requestSweep =>
    unfold Collector.requestSweep
    split
    · next idle => exact tallied.congr rfl rfl (by rw [idle]; rfl)
    · exact tallied
  | step stages => exact stages.tallied tallied

theorem tallied_of_run {actions : List (Action ρ)} (ran : w.run actions = .ok w')
    (tallied : w.collector.Tallied) : w'.collector.Tallied :=
  foldlM_induction (P := fun w => w.collector.Tallied) ran tallied
    fun _ _ _ _ tallied acted => (moves_of_act acted).tallied tallied

theorem Stages.follows (stages : Stages w w') :
    w.collector.phase.Follows w'.collector.phase := by
  cases stages with
  | start idle started => exact idle ▸ (unprocessed_of_startPass started).1 ▸ .start
  | mark marking marked =>
    rw [marking]
    rcases markStep_progress marked with ended | ⟨goes, -⟩
    · exact ended ▸ .mark
    · exact goes ▸ .stay _
  | finish marked finished => exact marked ▸ (snapshot_of_finishPass finished).2 ▸ .finish
  | sweep outside swept =>
    obtain ⟨host, stats, -, rfl⟩ := sweep_eq_ok swept
    cases phase : w.collector.phase with
    | idle => exact .stay _
    | sweepDue => exact .sweep
    | marking => simp [phase, Phase.inPass] at outside
    | marked => simp [phase, Phase.inPass] at outside

theorem Moves.follows (moves : Moves w w') : w.collector.phase.Follows w'.collector.phase := by
  cases moves with
  | heaps => exact .stay _
  | track _ tracked =>
    obtain ⟨_, -, rfl⟩ := Collector.track_eq_ok.1 tracked
    exact .stay _
  | untrack _ untracked =>
    obtain ⟨-, rfl⟩ := Collector.untrack_eq_ok.1 untracked
    exact .stay _
  | finalizersDone _ done =>
    obtain ⟨-, rfl⟩ := Collector.finalizersDone_eq_ok.1 done
    exact .stay _
  | setCycleDetection on => exact .stay _
  | requestSweep =>
    unfold Collector.requestSweep
    split
    · next idle => exact idle ▸ .request
    · exact .stay _
  | step stages => exact stages.follows

/-- Only steps lead into a pass or out of it. -/
theorem phase_of_act {a : Action ρ} (acted : w.act a = .ok w') (other : a ≠ .step) :
    w'.collector.phase = w.collector.phase ∨ w'.collector.phase = .sweepDue := by
  cases a with
  | step => exact absurd rfl other
  | foreign => exact Except.ok.inj acted ▸ .inl rfl
  | host => exact Except.ok.inj acted ▸ .inl rfl
  | setCycleDetection => exact Except.ok.inj acted ▸ .inl rfl
  | requestSweep =>
    obtain rfl := Except.ok.inj acted
    unfold Collector.requestSweep
    split
    · exact .inr rfl
    · exact .inl rfl
  | track o =>
    obtain rfl := Except.ok.inj acted
    refine .inl (request_induction rfl fun c granted => ?_)
    obtain ⟨_, -, rfl⟩ := Collector.track_eq_ok.1 granted
    rfl
  | untrack o =>
    obtain rfl := Except.ok.inj acted
    refine .inl (request_induction rfl fun c granted => ?_)
    obtain ⟨-, rfl⟩ := Collector.untrack_eq_ok.1 granted
    rfl
  | finalizersDone o =>
    obtain rfl := Except.ok.inj acted
    refine .inl (request_induction rfl fun c granted => ?_)
    obtain ⟨-, rfl⟩ := Collector.finalizersDone_eq_ok.1 granted
    rfl

/-- A step says that it ended a pass or sweep exactly if the collector is idle after it. -/
theorem finished_iff_idle {finished : Bool} (stepped : w.step = .ok (finished, w')) :
    finished = true ↔ w'.collector.phase = .idle := by
  cases step_eq_ok.1 stepped with
  | start _ _ started => simp [(unprocessed_of_startPass started).1]
  | mark _ marked =>
    rcases markStep_progress marked with ended | ⟨goes, -⟩
    · simp [ended]
    · simp [goes]
  | finish _ ended => simp [(snapshot_of_finishPass ended).2]
  | sweep _ swept =>
    obtain ⟨host, stats, -, rfl⟩ := sweep_eq_ok swept
    simp

def phases (w : World ρ) : List (Action ρ) → List Phase
  | [] => []
  | a :: actions =>
    match w.act a with
    | .error _ => []
    | .ok u => u.collector.phase :: u.phases actions

theorem isChain_phases (w : World ρ) (actions : List (Action ρ)) :
    List.IsChain Phase.Follows (w.collector.phase :: w.phases actions) := by
  induction actions generalizing w with
  | nil => exact .singleton _
  | cons a actions ih =>
    unfold phases
    split
    · exact .singleton _
    · next u acted => exact .cons_cons (moves_of_act acted).follows (ih u)

/-! ## Whole collections -/

/-- The actions of a whole collection: steps, each with a drain of the host heap after it. -/
def collectActions (w : World ρ) : List (Action ρ) :=
  match _ : w.step with
  | .error _ => [.step]
  | .ok (finished, u) =>
    match _ : u.host.drain with
    | .error _ => [.step]
    | .ok host =>
      .step :: .host host :: if _ : finished = true then [] else collectActions { u with host }
termination_by w.workAhead
decreasing_by
  have goes : finished = false := Bool.eq_false_iff.2 ‹_›
  exact workAhead_lt_of_step (goes ▸ ‹w.step = _›) ‹_›

inductive Operation (ρ : Type) where
  | act (a : Action ρ)
  | collect
deriving DecidableEq, Repr

def operate (w : World ρ) : Operation ρ → Except Fault (World ρ)
  | .act a => w.act a
  | .collect => Prod.snd <$> w.collect

def operateAll (w : World ρ) (operations : List (Operation ρ)) : Except Fault (World ρ) :=
  operations.foldlM operate w

def actionsOf (w : World ρ) : Operation ρ → List (Action ρ)
  | .act a => [a]
  | .collect => w.collectActions

/-- The actions that some operations consist of, up to the first fault. -/
def script (w : World ρ) : List (Operation ρ) → List (Action ρ)
  | [] => []
  | operation :: operations =>
    w.actionsOf operation ++
      match w.operate operation with
      | .error _ => []
      | .ok u => u.script operations

theorem run_collectActions (collected : w.collect = .ok (n, w')) :
    w.run w.collectActions = .ok w' := by
  have step : ∀ {u v : World ρ} {finished : Bool} {host : HostHeap} (later : List (Action ρ)),
      u.step = .ok (finished, v) →
      u.run (.step :: .host host :: later) = run { v with host } later := by
    intro u v finished host later stepped
    have acted : u.act .step = .ok v := map_eq_ok.2 ⟨(finished, v), stepped, rfl⟩
    calc u.run (.step :: .host host :: later)
      _ = v.run (.host host :: later) := by rw [run_cons, acted]; rfl
      _ = run { v with host } later := run_cons
  induction completes_of_collect collected generalizing n with
  | last stepped drained =>
    rw [collectActions]
    split
    · next fault => simp [stepped] at fault
    · next same =>
      obtain ⟨rfl, rfl⟩ := Prod.mk.inj (Except.ok.inj (stepped.symm.trans same))
      split
      · next fault => simp [drained] at fault
      · next same =>
        obtain rfl := Except.ok.inj (drained.symm.trans same)
        rw [dif_pos rfl, step [] stepped]
        rfl
  | more stepped drained completes ih =>
    obtain ⟨n, rest⟩ := completes.exists_collect
    rw [collectActions]
    split
    · next fault => simp [stepped] at fault
    · next same =>
      obtain ⟨rfl, rfl⟩ := Prod.mk.inj (Except.ok.inj (stepped.symm.trans same))
      split
      · next fault => simp [drained] at fault
      · next same =>
        obtain rfl := Except.ok.inj (drained.symm.trans same)
        rw [dif_neg (by decide), step _ stepped]
        exact ih rest

/-- Any operations that go through are a run of the actions that they consist of. -/
theorem run_script {operations : List (Operation ρ)} (ran : w.operateAll operations = .ok w') :
    w.run (w.script operations) = .ok w' := by
  induction operations generalizing w with
  | nil => exact ran
  | cons operation operations ih =>
    rw [operateAll, List.foldlM_cons, bind_eq_ok] at ran
    obtain ⟨u, operated, ran⟩ := ran
    have first : w.run (w.actionsOf operation) = .ok u := by
      cases operation with
      | act a => rw [actionsOf, run_cons, show w.act a = .ok u from operated]; rfl
      | collect =>
        obtain ⟨⟨n, _⟩, collected, rfl⟩ := map_eq_ok.1 operated
        exact run_collectActions collected
    rw [script, run_append, first, operated]
    exact ih ran

/-! ## Faults -/

section Faults

variable {P : Fault → Prop}

/-- A step of a tallied world finds a snapshot where it needs one, and none where it takes one. -/
theorem stopsBy_step_of_tallied (excuses : Excuses ρ P) (negative : ∀ o, P (.negativeExternal o))
    (tallied : w.collector.Tallied) : StopsBy P w.step := by
  have inPass := tallied.inPass
  have returns : w.Returns P := fun foreign os _ _ _ => excuses.stopsBy_releaseAll os foreign
  refine w.stopsBy_step excuses.answers returns (fun idle present => ?_) (fun marking absent => ?_)
    (fun marked absent => ?_) fun _ taken _ _ => taken.stopsBy_collectRoots negative
  · simp [idle, present, Phase.inPass] at inPass
  · simp [marking, absent, Phase.inPass] at inPass
  · simp [marked, absent, Phase.inPass] at inPass

theorem stopsBy_collect_of_tallied (excuses : Excuses ρ P)
    (negative : ∀ o, P (.negativeExternal o)) (tallied : w.collector.Tallied) :
    StopsBy P w.collect :=
  stopsBy_collect (I := fun v => v.collector.Tallied) tallied excuses.bounds
    (fun _ tallied => stopsBy_step_of_tallied excuses negative tallied)
    fun _ _ _ _ tallied stepped => (stages_of_step stepped).tallied tallied

/-- In a tallied world an operation stops only at a question to one of the heaps or at its roots. -/
theorem stopsBy_operate (excuses : Excuses ρ P) (negative : ∀ o, P (.negativeExternal o))
    (tallied : w.collector.Tallied) (operation : Operation ρ) :
    StopsBy P (w.operate operation) := by
  cases operation with
  | collect => exact stopsBy_map.2 (stopsBy_collect_of_tallied excuses negative tallied)
  | act a =>
    cases a with
    | step => exact stopsBy_map.2 (stopsBy_step_of_tallied excuses negative tallied)
    | _ => exact stopsBy_ok _

/-- Between an arena and a host heap the snapshot is never the matter. -/
theorem concernsSnapshot_of_operate {w : World Arena} (tallied : w.collector.Tallied)
    {operation : Operation Arena} {fault : Fault} (stopped : w.operate operation = .error fault) :
    fault.concernsSnapshot = false :=
  stopsBy_operate (P := fun fault => fault.concernsSnapshot = false)
    (Arena.excuses (fun _ _ => rfl) fun _ => rfl) (fun _ => rfl) tallied operation fault stopped

end Faults

/-! ## All together -/

/-- Whatever is done in a world, whole collections included: there is a snapshot exactly while a
pass is being marked or waits marked, and the counters agree with that; a step says that it ended a
pass exactly if the collector is idle after it; a pass that has started goes through marking to
marked and then to its end, whatever happens meanwhile; and if the next operation stops, then with a
fault of the foreign heap, of the host heap, or of the roots. -/
theorem lifecycle_of_operateAll {options : Options} {foreign : ρ} {host : HostHeap}
    {operations : List (Operation ρ)}
    (ran : operateAll { collector := { options }, foreign, host } operations = .ok w) :
    (w.collector.snapshot?.isSome ↔
      w.collector.phase = .marking ∨ w.collector.phase = .marked) ∧
    w.collector.stats.snapshotsTaken =
      w.collector.stats.snapshotsDiscarded + (if w.collector.snapshot?.isSome then 1 else 0) ∧
    w.collector.stats.passes = w.collector.stats.snapshotsDiscarded ∧
    w.collector.stats.resurrectedPasses ≤ w.collector.stats.passes ∧
    (∀ finished w', w.step = .ok (finished, w') →
      (finished = true ↔ w'.collector.phase = .idle)) ∧
    (w.collector.phase = .marking → ∀ later, ∃ m n rest, w.phases (w.script later) =
      List.replicate m .marking ++ List.replicate n .marked ++ rest ∧
        (rest = [] ∨ 0 < n ∧ rest.head? = some .idle)) ∧
    ∀ operation fault, w.operate operation = .error fault → ForeignHeap.Raises ρ fault ∨
      (∃ length index, fault = .outOfBounds length index) ∨ ∃ o, fault = .negativeExternal o := by
  have tallied := tallied_of_run (run_script ran) (.start options)
  refine ⟨?_, tallied.taken, tallied.passes, tallied.resurrected, fun _ _ => finished_iff_idle,
    fun marking later => ?_, fun operation => ?_⟩
  · rw [tallied.inPass]
    cases w.collector.phase <;> simp [Phase.inPass]
  · have chain := isChain_phases w (w.script later)
    rw [marking] at chain
    exact Phase.marking_of_isChain chain
  · refine stopsBy_operate ⟨fun fault raises => .inl raises, fun length index => ?_⟩ (fun o => ?_)
      tallied operation
    · exact .inr (.inl ⟨length, index, rfl⟩)
    · exact .inr (.inr ⟨o, rfl⟩)

/-- A ring of one that is untracked in the middle of its pass, while the program turns the search
for cycles off and asks for a sweep; then a whole collection, and the start of a third pass. -/
theorem lifecycle_of_operateAll_ring :
    let ring : World Arena :=
      { foreign := { cells := #[{ refcount := 1, references := [⟨0⟩] }] } }
    let operations : List (Operation Arena) := [.act (.track ⟨0⟩), .act .step,
      .act (.setCycleDetection false), .act .requestSweep, .act .step, .act (.untrack ⟨0⟩),
      .act .step, .act (.setCycleDetection true), .act (.track ⟨0⟩), .collect, .act .step]
    let later : List (Operation Arena) := [.act .requestSweep, .collect, .act .requestSweep]
    ∃ w, ring.operateAll operations = .ok w ∧
      w.collector.stats.snapshotsTaken = 3 ∧ w.collector.stats.snapshotsDiscarded = 2 ∧
      w.collector.stats.passes = 2 ∧ w.collector.stats.resurrectedPasses = 1 ∧
      w.collector.snapshot?.isSome ∧
      w.phases (w.script later) = [.marking, .marked, .marked, .idle, .idle, .sweepDue] ∧
      (∃ m n rest, w.phases (w.script later) =
        List.replicate m .marking ++ List.replicate n .marked ++ rest ∧
          (rest = [] ∨ 0 < n ∧ rest.head? = some .idle)) ∧
      ∀ operation, w.operate operation ≠ .error .snapshotAllocatedTwice ∧
        w.operate operation ≠ .error .markingWithoutSnapshot ∧
        w.operate operation ≠ .error .snapshotDiscardedTwice := by
  intro ring operations later
  have evaluated : ((ring.operateAll operations).toOption.any fun w =>
      w.collector.phase = .marking ∧ w.collector.stats.tally.discarded = 2 ∧
        w.collector.stats.tally.resurrected = 1 ∧
        w.phases (w.script later) = [.marking, .marked, .marked, .idle, .idle, .sweepDue]) =
      true := by decide +kernel
  cases ran : ring.operateAll operations with
  | error fault => simp [ran, Except.toOption] at evaluated
  | ok w =>
    simp only [ran, Except.toOption, Option.any_some, decide_eq_true_eq] at evaluated
    obtain ⟨marking, discarded, resurrected, phases⟩ := evaluated
    obtain ⟨present, taken, passes, -, -, visited, faults⟩ := lifecycle_of_operateAll ran
    have snapshot := present.2 (.inl marking)
    have raised : ∀ fault, ForeignHeap.Raises Arena fault → fault.concernsSnapshot = false :=
      (Arena.excuses (P := fun fault => fault.concernsSnapshot = false)
        (fun _ _ => rfl) fun _ => rfl).foreign
    have harmless : ∀ operation fault, w.operate operation = .error fault →
        fault.concernsSnapshot = false := by
      intro operation fault stopped
      obtain raises | ⟨_, _, rfl⟩ | ⟨_, rfl⟩ := faults operation fault stopped
      · exact raised fault raises
      · rfl
      · rfl
    refine ⟨w, rfl, ?_, discarded, passes.trans discarded, resurrected, snapshot, phases,
      visited marking later, fun operation => ⟨?_, ?_, ?_⟩⟩
    · rw [taken, if_pos snapshot, show w.collector.stats.snapshotsDiscarded = 2 from discarded]
    all_goals exact fun stopped => absurd (harmless operation _ stopped) (by decide)

end World

end CycleCollector
