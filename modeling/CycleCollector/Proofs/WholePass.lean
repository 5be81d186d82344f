import CycleCollector.Proofs.Runs
import CycleCollector.World.Collect
/-!
# Undisturbed passes

A pass that nobody disturbs is a start, then marking steps with a drain after each, then an end.
Until the end neither the foreign heap nor the tracked sets change. What every visit and every drain
keeps therefore holds when marking has ended, and by then the snapshot is quiet and the host heap
has nothing left to trace.

## Main definitions

* `World.Completes`: the steps of an undisturbed pass or sweep.
* `World.Nears`: the steps up to the end of marking.
* `World.MarkedFrom`: a world where marking has ended.
* `World.Surveys`, `World.Passes`: a pass up to the end of marking, and from start to end.

## Main statements

* `World.completes_of_collect`: `World.collect` takes these steps.
* `World.Completes.markedFrom`: what holds when marking has ended.
* `World.passes_of_collect`: an idle collector sweeps, or it goes through a pass.
* `World.Surveys.consistent`, `World.Surveys.concludes`: a pass that nobody disturbs does not fail,
  and how it ends.
* `World.collected_of_collect`: an idle collector that nobody disturbs ends a pass with a
  collection.
-/

namespace CycleCollector

theorem HostHeap.objects_of_drain {g g' : HostHeap} (drained : g.isDrained = true)
    (h : g.drain = .ok g') : g'.objects = g.objects := by
  obtain ⟨os, ran, rfl⟩ := drain_eq_ok.1 h
  rw [List.isEmpty_iff.1 drained, trace_nil] at ran
  exact (Except.ok.inj ran).symm

theorem HostHeap.reaches_congr {g g' : HostHeap} (same : g'.objects = g.objects)
    (bridge : Option HostRef) : g'.reaches bridge = g.reaches bridge := by
  cases bridge with
  | none => rfl
  | some h => simp only [reaches, isReachable, object, same]

namespace World

variable {ρ : Type} [ForeignHeap ρ] {w w' : World ρ} {n : Nat} {s : Snapshot}

/-! ## The steps of a pass -/

inductive Completes : World ρ → World ρ → Prop
  | last {w w₁ : World ρ} {host : HostHeap} : w.step = .ok (true, w₁) →
      w₁.host.drain = .ok host → Completes w { w₁ with host }
  | more {w w₁ w' : World ρ} {host : HostHeap} : w.step = .ok (false, w₁) →
      w₁.host.drain = .ok host → Completes { w₁ with host } w' → Completes w w'

/-- The loop, one round at a time. -/
theorem collectWith_eq (program : Phase → ρ → Except Fault ρ) (w : World ρ) :
    w.collectWith program = do
      let foreign ← program w.collector.phase w.foreign
      let (finished, w) ← step { w with foreign }
      let host ← w.host.drain
      if finished then return (1, { w with host })
      else
        let (steps, w) ← collectWith program { w with host }
        return (steps + 1, w) := by
  rw [collectWith]
  split
  · next acted => simp [acted, bind, Except.bind]
  · next foreign acted =>
    split
    · next stepped => simp [acted, stepped, bind, Except.bind]
    · next w₁ stepped => simp [acted, stepped, bind, Except.bind]
    · next w₁ stepped =>
      split
      · next drained => simp [acted, stepped, drained, bind, Except.bind]
      · next host drained => simp [acted, stepped, drained, bind, Except.bind]

theorem collect_eq (w : World ρ) : w.collect = do
    let (finished, w) ← w.step
    let host ← w.host.drain
    if finished then return (1, { w with host })
    else
      let (steps, w) ← World.collect { w with host }
      return (steps + 1, w) :=
  collectWith_eq (fun _ foreign => .ok foreign) w

theorem completes_of_collect (collected : w.collect = .ok (n, w')) : Completes w w' := by
  induction n using Nat.strongRecOn generalizing w with
  | _ n ih =>
    rw [collect_eq] at collected
    simp only [bind_eq_ok] at collected
    obtain ⟨⟨finished, w₁⟩, stepped, host, drained, collected⟩ := collected
    cases finished with
    | true =>
      obtain ⟨-, rfl⟩ := Prod.mk.inj (pure_eq_ok.1 collected)
      exact .last stepped drained
    | false =>
      simp only [Bool.false_eq_true, if_false, bind_eq_ok, pure_eq_ok] at collected
      obtain ⟨⟨steps, w₂⟩, others, collected⟩ := collected
      obtain ⟨rfl, rfl⟩ := Prod.mk.inj collected
      exact .more stepped drained (ih steps (Nat.lt_succ_self steps) others)

theorem Completes.exists_collect (completes : Completes w w') : ∃ n, w.collect = .ok (n, w') := by
  induction completes with
  | last stepped drained =>
    rw [collect_eq]
    simp only [stepped, drained, bind, Except.bind]
    exact ⟨1, rfl⟩
  | more stepped drained _ ih =>
    obtain ⟨n, collected⟩ := ih
    rw [collect_eq]
    simp only [stepped, drained, collected, bind, Except.bind]
    exact ⟨n + 1, rfl⟩

theorem Completes.orderly (completes : Completes w w') (orderly : w.collector.Orderly) :
    w'.collector.Orderly := by
  induction completes with
  | last stepped => exact (stages_of_step stepped).orderly orderly
  | more stepped _ _ ih => exact ih ((stages_of_step stepped).orderly orderly)

theorem Completes.options (completes : Completes w w') :
    w'.collector.options = w.collector.options := by
  induction completes with
  | last stepped => exact (stages_of_step stepped).options
  | more stepped _ _ ih => exact ih.trans (stages_of_step stepped).options

/-- Where a collection of the host heap leads if the program rests and there is no fault. -/
def collected (w : World ρ) : World ρ :=
  match collect { w with host := w.host.beginCollection } with
  | .ok (_, w') => w'
  | .error _ => w

/-! ## The end of marking -/

/-- Marking that began with `w` has ended with `w'`: only the snapshot and the host heap changed,
what visits and drains keep still holds, and nothing more can be found. -/
structure MarkedFrom (P : Snapshot → HostHeap → Prop) (w w' : World ρ) (s : Snapshot) : Prop where
  phase : w'.collector.phase = .marked
  snapshot : w'.collector.snapshot? = some s
  foreign : w'.foreign = w.foreign
  sets : w'.collector.sets = w.collector.sets
  invalidated : w'.collector.invalidated = w.collector.invalidated
  orderly : w'.collector.Orderly
  kept : P s w'.host
  quiet : s.Quiet w'.host
  drained : w'.host.worklist = []

/-- `n` steps with a drain after each, up to the world in which marking has ended. -/
inductive Nears : Nat → World ρ → World ρ → Prop
  | here {w : World ρ} : w.collector.phase = .marked → Nears 0 w w
  | step {n : Nat} {w w₁ w' : World ρ} {host : HostHeap} : w.collector.phase ≠ .marked →
      w.step = .ok (false, w₁) → w₁.host.drain = .ok host → Nears n { w₁ with host } w' →
      Nears (n + 1) w w'

theorem Completes.of_marked (completes : Completes w w') (marked : w.collector.phase = .marked) :
    ∃ w₁ host, w.finishPass = .ok w₁ ∧ w₁.host.drain = .ok host ∧ w' = { w₁ with host } := by
  cases completes with
  | @last _ w₁ host stepped drained =>
    cases step_eq_ok.1 stepped with
    | finish _ finished => exact ⟨_, host, finished, drained, rfl⟩
    | sweep due => simp [marked] at due
  | more stepped =>
    cases step_eq_ok.1 stepped with
    | start idle => simp [marked] at idle
    | mark marking => simp [marked] at marking

omit [ForeignHeap ρ] in
/-- After a marking step and a drain marking has ended, or it goes on, and what is to come may as
well be told from where the step began. -/
theorem markedFrom_of_markStep {P : Snapshot → HostHeap → Prop} {w₁ : World ρ} {host : HostHeap}
    (orderly : w.collector.Orderly) (taken : w.collector.snapshot? = some s) (start : P s w.host)
    (visit : ∀ eager m i m', P m.snapshot m.host → Marking.Visits eager m i m' →
      P m'.snapshot m'.host)
    (drain : ∀ s g g', P s g → g.drain = .ok g' → P s g')
    (marked : w.markStep = .ok w₁) (drained : w₁.host.drain = .ok host) :
    ∃ s₁, w₁.collector.snapshot? = some s₁ ∧ P s₁ host ∧ w₁.collector.Orderly ∧
      (MarkedFrom P w { w₁ with host } s₁ ∨ w₁.collector.phase = .marking ∧
        ∀ w₂ s₂, MarkedFrom P { w₁ with host } w₂ s₂ → MarkedFrom P w w₂ s₂) := by
  have still := orderly_of_markStep orderly marked
  obtain ⟨_, progress, m, stats, taken', ran, -, rfl⟩ := markStep_eq_ok marked
  obtain rfl := Option.some.inj (taken.symm.trans taken')
  have kept := drain _ _ _ (Marking.run_induction ran start (visit _)) drained
  refine ⟨m.snapshot, rfl, kept, still, ?_⟩
  by_cases ended : progress = .fixedPoint ∧ m.host.isDrained = true
  · obtain ⟨rfl, empty⟩ := ended
    have same := HostHeap.objects_of_drain empty drained
    have quiet : m.snapshot.Quiet host := fun r mem => by
      rw [HostHeap.reaches_congr same]
      exact Marking.quiet_of_run ran r mem
    exact .inl ⟨if_pos ⟨rfl, empty⟩, rfl, rfl, rfl, rfl, still, kept, quiet,
      HostHeap.worklist_of_drain drained⟩
  · exact .inr ⟨if_neg ended, fun w₂ s₂ from_ => ⟨from_.phase, from_.snapshot, from_.foreign,
      from_.sets, from_.invalidated, from_.orderly, from_.kept, from_.quiet, from_.drained⟩⟩

/-- An undisturbed pass comes to the end of marking, and then to its own end. -/
theorem Completes.markedFrom {P : Snapshot → HostHeap → Prop} (completes : Completes w w')
    (orderly : w.collector.Orderly) (marking : w.collector.phase = .marking)
    (taken : w.collector.snapshot? = some s) (start : P s w.host)
    (visit : ∀ eager m i m', P m.snapshot m.host → Marking.Visits eager m i m' →
      P m'.snapshot m'.host)
    (drain : ∀ s g g', P s g → g.drain = .ok g' → P s g') :
    ∃ k w₁ s₁ w₂ host, Nears k w w₁ ∧ MarkedFrom P w w₁ s₁ ∧ w₁.finishPass = .ok w₂ ∧
      w₂.host.drain = .ok host ∧ w' = { w₂ with host } := by
  induction completes generalizing s with
  | last stepped =>
    cases step_eq_ok.1 stepped with
    | finish marked => simp [marking] at marked
    | sweep due => simp [marking] at due
  | @more w w₁ w' host stepped drained completes ih =>
    have marked : w.markStep = .ok w₁ := by
      cases step_eq_ok.1 stepped with
      | start idle => simp [marking] at idle
      | mark _ marked => exact marked
    have ongoing : w.collector.phase ≠ .marked := by simp [marking]
    obtain ⟨s₁, taken₁, kept, still, ended | ⟨goes, frame⟩⟩ :=
      markedFrom_of_markStep orderly taken start visit drain marked drained
    · obtain ⟨w₂, host', finished, last, rfl⟩ := completes.of_marked ended.phase
      exact ⟨1, _, s₁, w₂, host', .step ongoing stepped drained (.here ended.phase), ended,
        finished, last, rfl⟩
    · obtain ⟨k, w₂, s₂, w₃, host', nears, from_, rest⟩ := ih still goes taken₁ kept
      exact ⟨k + 1, w₂, s₂, w₃, host', .step ongoing stepped drained nears, frame w₂ s₂ from_, rest⟩

/-! ## Passes from start to end -/

/-- An undisturbed pass from `w` up to the end of marking: it started with `v`, whose snapshot left
the roots `s₀`, and with `w₁` it had marked all of it. -/
structure Surveys (w v : World ρ) (s₀ s : Snapshot) (w₁ : World ρ) : Prop where
  prepared : w.prepareSets = .ok v
  taken : ∃ taken, Snapshot.take (v.collector.sets.merged .new .inCollection) v.foreign v.host =
    .ok taken ∧ taken.collectRoots = .ok s₀
  phase : w₁.collector.phase = .marked
  snapshot : w₁.collector.snapshot? = some s
  foreign : w₁.foreign = v.foreign
  sets : w₁.collector.sets = v.collector.sets.merged .new .inCollection
  valid : w₁.collector.invalidated = false
  orderly : w₁.collector.Orderly
  spreads : Marking.Spreads s₀ w.host s w₁.host
  quiet : s.Quiet w₁.host
  drained : w₁.host.worklist = []

structure Passes (w v : World ρ) (s₀ s : Snapshot) (w₁ w' : World ρ) : Prop
    extends Surveys w v s₀ s w₁ where
  ended : ∃ w₂ host, w₁.finishPass = .ok w₂ ∧ w₂.host.drain = .ok host ∧ w' = { w₂ with host }

/-- An idle collector sweeps, or it goes through a pass and comes to the end of marking on the
way. -/
theorem nears_of_collect (orderly : w.collector.Orderly) (idle : w.collector.phase = .idle)
    (collected : w.collect = .ok (n, w')) :
    (w.collector.options.cycleDetection = false ∧ w'.foreign = w.foreign) ∨
      w.collector.options.cycleDetection = true ∧
        ∃ k v s₀ s w₁, Nears k w w₁ ∧ Passes w v s₀ s w₁ w' := by
  cases completes_of_collect collected with
  | last stepped =>
    cases step_eq_ok.1 stepped with
    | finish marked => simp [idle] at marked
    | sweep due swept =>
      obtain ⟨host, stats, -, rfl⟩ := sweep_eq_ok swept
      exact .inl ⟨by simpa [idle] using due, rfl⟩
  | @more _ w₁ _ host stepped drained completes =>
    cases step_eq_ok.1 stepped with
    | mark marking => simp [idle] at marking
    | start _ on started =>
      have still := orderly_of_startPass orderly started
      obtain ⟨v, taken, s₀, stats, prepared, htaken, roots, -, rfl⟩ := startPass_eq_ok started
      have prepares := prepares_of_prepareSets prepared
      obtain ⟨-, fresh⟩ := Snapshot.balanced_of_take htaken roots
      have start := (Marking.Spreads.start fresh w.host).drain (prepares.host ▸ drained)
      obtain ⟨k, w₂, s, w₃, host', nears, from_, finished, last, rfl⟩ := completes.markedFrom still
        rfl rfl start (fun _ _ _ _ spreads visits => spreads.visit visits) fun _ _ _ => .drain
      refine .inr ⟨on, k + 1, v, s₀, s, w₂, .step (by simp [idle]) stepped drained nears, ?_⟩
      exact ⟨⟨prepared, ⟨taken, htaken, roots⟩, from_.phase, from_.snapshot, from_.foreign,
        from_.sets, from_.invalidated, from_.orderly, from_.kept, from_.quiet, from_.drained⟩,
        w₃, host', finished, last, rfl⟩

/-- An idle collector sweeps, or it goes through a pass. -/
theorem passes_of_collect (orderly : w.collector.Orderly) (idle : w.collector.phase = .idle)
    (collected : w.collect = .ok (n, w')) :
    (w.collector.options.cycleDetection = false ∧ w'.foreign = w.foreign) ∨
      w.collector.options.cycleDetection = true ∧ ∃ v s₀ s w₁, Passes w v s₀ s w₁ w' :=
  (nears_of_collect orderly idle collected).imp_right fun ⟨on, _, v, s₀, s, w₁, _, passes⟩ =>
    ⟨on, v, s₀, s, w₁, passes⟩

section Passes

variable {v w₁ : World ρ} {s₀ : Snapshot} {r : Snapshot.Record} {h k : HostRef}

/-- What the snapshot says of an object is what the foreign heap said when the pass started. -/
theorem Surveys.describes (surveys : Surveys w v s₀ s w₁) (mem : r ∈ s.records) :
    ∃ q, q.frozen = r.frozen ∧ Snapshot.Describes (w₁.collector.sets.members .inCollection)
      v.foreign v.host r.object q := by
  obtain ⟨taken, htaken, roots⟩ := surveys.taken
  obtain ⟨i, hi⟩ := Array.mem_iff_getElem?.1 mem
  have frozen := surveys.spreads.course.frozen.trans (Snapshot.frozen_collectRoots roots)
  obtain ⟨q, hq, same⟩ := Snapshot.exists_of_frozen_eq frozen.symm hi
  have object : q.object = r.object := (congrArg Snapshot.Record.object same :)
  refine ⟨q, same, ?_⟩
  rw [surveys.sets, ← object]
  exact Snapshot.describes_of_take htaken (Array.mem_of_getElem? hq)

theorem Surveys.objects_eq (surveys : Surveys w v s₀ s w₁) :
    s.objects = w₁.collector.sets.members .inCollection := by
  obtain ⟨taken, htaken, roots⟩ := surveys.taken
  have frozen := surveys.spreads.course.frozen.trans (Snapshot.frozen_collectRoots roots)
  rw [Snapshot.objects_congr frozen, Snapshot.objects_take htaken, surveys.sets]

/-- What takes part in a pass that nobody disturbs is in collection. -/
theorem Surveys.takesPart_iff (surveys : Surveys w v s₀ s w₁) (o : ObjectId) :
    w₁.collector.sets.takesPart o = true ↔ o ∈ w₁.collector.sets.members .inCollection := by
  refine ⟨fun part => ?_, Snapshot.takesPart_of_mem_inCollection⟩
  obtain ⟨role, mem, waits⟩ := TrackedSets.takesPart_iff.1 part
  cases role with
  | inCollection => exact mem
  | isolated => exact absurd rfl waits
  | staged => simp [surveys.orderly.staged] at mem
  | new => simp [surveys.sets, TrackedSets.members_merged] at mem

/-- Nothing differs from its record in a pass that nobody disturbs. -/
theorem Surveys.consistent (surveys : Surveys w v s₀ s w₁) {verdict : Verdict} {sets : TrackedSets}
    (judged : s.judge w₁.collector.sets w₁.foreign w₁.host w₁.collector.invalidated =
      .ok (verdict, sets)) : verdict = .consistent := by
  have records := surveys.orderly.records s surveys.snapshot
  cases verdict with
  | consistent => rfl
  | inconsistent =>
    obtain ⟨invalid | ⟨o, -, r, found, dead, differs⟩, -⟩ :=
      Snapshot.judge_inconsistent surveys.orderly.staged judged
    · simp [surveys.valid] at invalid
    obtain ⟨mem, rfl⟩ := (Snapshot.recordOf_eq_some records.wellformed.nodup).1 found
    obtain ⟨q, same, describes⟩ := surveys.describes mem
    rw [← surveys.foreign] at describes
    rcases differs with ⟨n, count, ne⟩ | reached | ⟨os, refs, ne⟩
    · have recorded : q.refcount = r.refcount := (congrArg Snapshot.Record.refcount same :)
      exact absurd ((Except.ok.inj (count.symm.trans describes.refcount)).trans recorded) ne
    · rcases surveys.quiet r mem with processed | ⟨-, unreached⟩
      · exact absurd dead (Nat.ne_of_gt (records.balanced.alive r mem processed))
      · simp [unreached] at reached
    · obtain ⟨targets, refs', edges⟩ := describes.edges
      obtain rfl := Except.ok.inj (refs.symm.trans refs')
      refine absurd ?_ ne
      have recorded : q.edges = r.edges := (congrArg Snapshot.Record.edges same :)
      rw [← recorded, edges, Snapshot.objectsAt_eq, surveys.objects_eq,
        Snapshot.filterMap_filterMap_idxOf? (TrackedSets.nodup_members ..)]
      refine List.filter_congr fun p _ => ?_
      rw [Bool.eq_iff_iff, surveys.takesPart_iff, decide_eq_true_eq]

/-- When marking has ended, what a marked host object points to is marked. -/
theorem Surveys.marked_of_points (surveys : Surveys w v s₀ s w₁)
    (fresh : ∀ h, ¬HostHeap.Marked w.host.objects h) (marked : HostHeap.Marked w₁.host.objects h)
    (edge : HostHeap.Points w₁.host.objects h k) : HostHeap.Marked w₁.host.objects k := by
  have onward := surveys.spreads.course.onward
  have traced := onward.traced h k marked ((HostHeap.points_congr onward.same).1 edge)
  simpa [fresh h, surveys.drained] using traced

theorem Surveys.marked_of_leads (surveys : Surveys w v s₀ s w₁)
    (fresh : ∀ h, ¬HostHeap.Marked w.host.objects h) (marked : HostHeap.Marked w₁.host.objects h)
    (path : HostHeap.Leads w₁.host.objects h k) : HostHeap.Marked w₁.host.objects k := by
  induction path with
  | refl => exact marked
  | step _ edge ih => exact surveys.marked_of_points fresh ih edge

/-- When marking has ended, an object that is found alive has a counterpart that is marked. -/
theorem Surveys.marked_of_alive (surveys : Surveys w v s₀ s w₁) (mem : r ∈ s.records)
    (alive : 0 < r.external) (bridged : r.bridge = some h) : HostHeap.Marked w₁.host.objects h := by
  have processed : r.processed = true := by
    rcases surveys.quiet r mem with processed | ⟨dead, -⟩
    · exact processed
    · omega
  simpa [surveys.drained] using surveys.spreads.course.handed r mem processed h bridged

/-- The recorded bridges and references of the objects in collection can be asked for again. -/
theorem Surveys.exists_judge (surveys : Surveys w v s₀ s w₁) : ∃ sets,
    s.judge w₁.collector.sets w₁.foreign w₁.host w₁.collector.invalidated =
      .ok (.consistent, sets) := by
  have size := HostHeap.size_of_map_unmarked surveys.spreads.course.onward.same
  have records := surveys.orderly.records s surveys.snapshot
  have judges : ∃ verdict sets, s.judge w₁.collector.sets w₁.foreign w₁.host
      w₁.collector.invalidated = .ok (verdict, sets) := by
    refine s.exists_judge _ fun o _ r found _ => ?_
    obtain ⟨recorded, rfl⟩ := (Snapshot.recordOf_eq_some records.wellformed.nodup).1 found
    obtain ⟨q, same, describes⟩ := surveys.describes recorded
    obtain ⟨targets, references, -⟩ := describes.edges
    have bridge : q.bridge = r.bridge := (congrArg Snapshot.Record.bridge same :)
    have reached := describes.rooted
    rw [bridge, (prepares_of_prepareSets surveys.prepared).host] at reached
    have reaches : ∃ b, w₁.host.reaches r.bridge = .ok b := HostHeap.exists_reaches
      fun h bridged => size ▸ HostHeap.lt_size_of_reaches (bridged ▸ reached)
    obtain ⟨b, reaches⟩ := reaches
    rw [← surveys.foreign] at describes references
    exact Snapshot.exists_isUnchanged describes.refcount reaches references
  obtain ⟨verdict, sets, judged⟩ := judges
  obtain rfl := surveys.consistent judged
  exact ⟨sets, judged⟩

/-- A pass that nobody disturbs stages what it found dead and disposes of it. Its outcome tells how
many objects were released, and how many were isolated. -/
theorem Surveys.concludes (surveys : Surveys w v s₀ s w₁) {w₂ : World ρ}
    (finished : w₁.finishPass = .ok w₂) : ∃ sets u kept isolated released reported legacy,
      s.judge w₁.collector.sets w₁.foreign w₁.host w₁.collector.invalidated =
        .ok (.consistent, sets) ∧
      Disposes (w₁.discardSnapshot sets) kept isolated released reported u ∧
      w₂ = u.endPass (.collected released.length isolated.length legacy) := by
  obtain ⟨s', verdict, sets, outcome, u, taken, judged, disposed, rfl⟩ := finishPass_eq_ok finished
  obtain rfl := Option.some.inj (surveys.snapshot.symm.trans taken)
  obtain rfl := surveys.consistent judged
  obtain ⟨kept, isolated, released, reported, disposes, legacy, rfl⟩ :=
    exists_disposes_of_disposeStaged disposed
  exact ⟨sets, u, kept, isolated, released, reported, legacy, judged, disposes, rfl⟩

/-- Beyond what marking reached, such a pass marks what the border leads to. -/
theorem Passes.concludes (passes : Passes w v s₀ s w₁ w')
    (fresh : ∀ h, ¬HostHeap.Marked w.host.objects h) :
    ∃ sets u kept isolated released reported legacy,
      s.judge w₁.collector.sets w₁.foreign w₁.host w₁.collector.invalidated =
        .ok (.consistent, sets) ∧
      Disposes (w₁.discardSnapshot sets) kept isolated released reported u ∧
      w'.collector.lastOutcome = some (.collected released.length isolated.length legacy) ∧
      w'.foreign = u.foreign ∧ w'.collector.sets = u.collector.sets ∧
      ∀ h, HostHeap.Marked w'.host.objects h ↔ HostHeap.Marked w₁.host.objects h ∨
        ∃ k, Marks { u with foreign := reported }
          (if isolated = [] then .cyclicCount else .rawCount) k ∧
            HostHeap.Leads w₁.host.objects k h := by
  obtain ⟨w₂, host, finished, last, rfl⟩ := passes.ended
  obtain ⟨sets, u, kept, isolated, released, reported, legacy, judged, disposes, rfl⟩ :=
    passes.toSurveys.concludes finished
  refine ⟨sets, u, kept, isolated, released, reported, legacy, judged, disposes, rfl, rfl, rfl, ?_⟩
  obtain ⟨bridges, handed, mem_bridges⟩ := disposes.border
  have drained : (w₁.host.promoteAll bridges).drain = .ok host := by
    rw [host_discardSnapshot] at handed
    exact handed ▸ last
  intro h
  rw [HostHeap.marked_drain_promoteAll passes.drained
    (fun _ _ => passes.marked_of_points fresh) drained]
  simp only [mem_bridges]

theorem Passes.idle (passes : Passes w v s₀ s w₁ w') : w'.collector.phase = .idle := by
  obtain ⟨w₂, host, finished, -, rfl⟩ := passes.ended
  obtain ⟨s', verdict, sets, outcome, u, -, -, -, rfl⟩ := finishPass_eq_ok finished
  rfl

/-- The end of a pass only hands bridges to the host heap. -/
theorem onward_of_finishPass (finished : w.finishPass = .ok w') :
    HostHeap.Onward w.host w'.host := by
  obtain ⟨s', verdict, sets, outcome, u, taken, judged, disposed, rfl⟩ := finishPass_eq_ok finished
  obtain ⟨⟨kept, isolated, released, reported, disposes⟩, -⟩ := disposes_of_disposeStaged disposed
  obtain ⟨bridges, handed, -⟩ := disposes.border
  exact (handed ▸ HostHeap.onward_promoteAll w.host bridges : HostHeap.Onward w.host u.host)

/-- What an undisturbed pass does to the host heap. -/
theorem Passes.onward (passes : Passes w v s₀ s w₁ w') : HostHeap.Onward w.host w'.host := by
  obtain ⟨w₂, host, finished, last, rfl⟩ := passes.ended
  exact (passes.spreads.course.onward.trans (onward_of_finishPass finished)).trans
    (HostHeap.onward_drain last)

theorem Passes.disposes (passes : Passes w v s₀ s w₁ w')
    (fresh : ∀ h, ¬HostHeap.Marked w.host.objects h) :
    ∃ sets u kept isolated released reported,
      s.judge w₁.collector.sets w₁.foreign w₁.host w₁.collector.invalidated =
        .ok (.consistent, sets) ∧
      Disposes (w₁.discardSnapshot sets) kept isolated released reported u ∧
      w'.foreign = u.foreign ∧ w'.collector.sets = u.collector.sets ∧
      ∀ h, HostHeap.Marked w'.host.objects h ↔ HostHeap.Marked w₁.host.objects h ∨
        ∃ k, Marks { u with foreign := reported }
          (if isolated = [] then .cyclicCount else .rawCount) k ∧
            HostHeap.Leads w₁.host.objects k h := by
  obtain ⟨sets, u, kept, isolated, released, reported, legacy, judged, disposes, -, rest⟩ :=
    passes.concludes fresh
  exact ⟨sets, u, kept, isolated, released, reported, judged, disposes, rest⟩

/-- Where the objects are after a pass that nobody disturbed. -/
theorem Surveys.members_of_disposes (surveys : Surveys w v s₀ s w₁) {sets : TrackedSets}
    {u : World ρ} {kept isolated released : List ObjectId} {reported : ρ}
    (judged : s.judge w₁.collector.sets w₁.foreign w₁.host w₁.collector.invalidated =
      .ok (.consistent, sets))
    (disposes : Disposes (w₁.discardSnapshot sets) kept isolated released reported u) :
    u.collector.sets.members .new = [] ∧
      (∀ o, o ∈ u.collector.sets.members .inCollection ↔
        (o ∈ w₁.collector.sets.members .inCollection ∧ s.findsDead o = false) ∨ o ∈ kept) ∧
      u.collector.sets.members .isolated = w₁.collector.sets.members .isolated ++ isolated := by
  obtain ⟨-, -, rfl⟩ := Snapshot.judge_consistent judged
  have members := Snapshot.members_enterAll_inCollection s surveys.orderly.staged
  refine ⟨?_, fun o => ?_, ?_⟩
  · rw [disposes.new, sets_discardSnapshot, members, surveys.sets]
    simp [TrackedSets.members_merged]
  · rw [disposes.inCollection, sets_discardSnapshot, members]
    simp
  · rw [disposes.waiting, sets_discardSnapshot, members]
    simp

/-- A pass that nobody disturbs does not fail. -/
theorem Passes.collected (passes : Passes w v s₀ s w₁ w') : ∃ released isolated legacy,
    w'.collector.lastOutcome = some (.collected released isolated legacy) := by
  obtain ⟨w₂, host, finished, -, rfl⟩ := passes.ended
  obtain ⟨_, _, _, isolated, released, _, legacy, -, -, rfl⟩ := passes.toSurveys.concludes finished
  exact ⟨released.length, isolated.length, legacy, rfl⟩

end Passes

/-- If the search for cycles is on and an idle collector goes undisturbed through a whole pass, it
finds the graph as in its snapshot: whatever the counts say and the objects refer to, and wherever
the host heap has got to by then. -/
theorem collected_of_collect {options : Options} {foreign : ρ} {host : HostHeap}
    {actions : List (Action ρ)}
    (ran : run { collector := { options }, foreign, host } actions = .ok w)
    (idle : w.collector.phase = .idle) (on : w.collector.options.cycleDetection = true)
    (done : w.collect = .ok (n, w')) : ∃ released isolated legacy,
      w'.collector.lastOutcome = some (.collected released isolated legacy) := by
  obtain ⟨off, -⟩ | ⟨-, v, s₀, s, w₁, passes⟩ :=
    passes_of_collect (orderly_of_run ran (.start options)) idle done
  · simp [on] at off
  · exact passes.collected

/-- A foreign heap whose books are wrong, for a collector that takes small steps. The first object
refers twice to the second, to one that will not be tracked and to one that does not exist. The
third is an immutable container, and the next three have finalizers. -/
def tangle : World Arena where
  collector := { options := { scansPerStep := some 1, eagerHostTrace := false } }
  foreign := { cells := #[
    { refcount := 7, references := [⟨1⟩, ⟨6⟩, ⟨1⟩, ⟨9⟩] },
    { refcount := 2, references := [⟨2⟩], bridge := some ⟨0⟩ },
    { refcount := 1, references := [⟨6⟩], atomic := true },
    { refcount := 0, references := [⟨9⟩, ⟨5⟩], bridge := some ⟨1⟩, finalizer := .legacy },
    { refcount := 1, references := [⟨4⟩, ⟨5⟩], bridge := some ⟨2⟩, finalizer := .modern },
    { refcount := 0, finalizer := .modern },
    { refcount := 3 }] }
  host := { objects := #[{ edges := [⟨0⟩] }, { edges := [⟨0⟩] }, {}], roots := [⟨0⟩] }

/-- The sixth object waits for its finalizer and the host heap has work left when the pass
begins. -/
theorem collected_of_collect_tangle :
    let w := tangle.after [.track ⟨5⟩, .step, .step, .step, .track ⟨0⟩, .track ⟨1⟩, .track ⟨2⟩,
      .track ⟨3⟩, .track ⟨4⟩, .host tangle.host.beginCollection]
    w.collector.sets.members .isolated = [⟨5⟩] ∧ w.host.isDrained = false ∧
      w.collect = .ok (4, w.collected) ∧ ∃ released isolated legacy,
        w.collected.collector.lastOutcome = some (.collected released isolated legacy) := by
  intro w
  have ran : tangle.run [.track ⟨5⟩, .step, .step, .step, .track ⟨0⟩, .track ⟨1⟩, .track ⟨2⟩,
      .track ⟨3⟩, .track ⟨4⟩, .host tangle.host.beginCollection] = .ok w := by decide +kernel
  have idle : w.collector.phase = .idle := by decide +kernel
  have on : w.collector.options.cycleDetection = true := by decide +kernel
  have done : w.collect = .ok (4, w.collected) := by decide +kernel
  exact ⟨by decide +kernel, by decide +kernel, done, collected_of_collect ran idle on done⟩

end World

end CycleCollector
