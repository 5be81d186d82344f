import Mathlib.Data.List.Induction
import Mathlib.Data.List.Perm.Subperm
import CycleCollector.Proofs.Roles
import CycleCollector.Proofs.Resurrection
import CycleCollector.Proofs.Lifecycle
/-!
# Since the snapshot

A collector in a pass has come there by a step that took a snapshot, and has not left the pass
since. What the program untracked meanwhile is missing among the objects in collection, everything
else is still there. What it began to track meanwhile is new, and a new object is nobody's business
until the next snapshot: it is not released, not isolated, and the foreign heap hears nothing of it.

## Main definitions

* `World.Began`: how the pass that is in progress began.
* `ForeignHeap.Handles`: releases of and reports about some objects.
* `World.Snaps`: some action took a snapshot.

## Main statements

* `World.exists_began`: every pass in progress began.
* `World.handles_of_step`: a step that takes no snapshot handles objects in collection only.
* `World.roles_of_run`: roles, counts and order in every run, and what becomes of new objects.
-/

namespace CycleCollector

def Collector.snapshotDue (c : Collector) : Bool := c.phase = .idle && c.options.cycleDetection

/-- From one state of a foreign heap to another by releases of and reports about objects that
satisfy `P`. -/
inductive ForeignHeap.Handles {ρ : Type} [ForeignHeap ρ] (P : ObjectId → Prop) (foreign : ρ) :
    ρ → Prop
  | refl : Handles P foreign foreign
  | untracked {other : ρ} {o : ObjectId} :
      Handles P foreign other → P o → Handles P foreign (noteUntracked other o)
  | legacy {other : ρ} {o : ObjectId} :
      Handles P foreign other → P o → Handles P foreign (noteLegacyGarbage other o)
  | scheduled {other : ρ} {os : List ObjectId} :
      Handles P foreign other → (∀ o ∈ os, P o) → Handles P foreign (scheduleFinalizers other os)
  | released {other other' : ρ} {o : ObjectId} :
      Handles P foreign other → P o → release other o = .ok other' → Handles P foreign other'

namespace ForeignHeap

variable {ρ : Type} [ForeignHeap ρ] {P Q : ObjectId → Prop} {foreign other other' : ρ}
  {os : List ObjectId}

theorem Handles.mono (handles : Handles P foreign other) (imp : ∀ o, P o → Q o) :
    Handles Q foreign other := by
  induction handles with
  | refl => exact .refl
  | untracked _ holds ih => exact ih.untracked (imp _ holds)
  | legacy _ holds ih => exact ih.legacy (imp _ holds)
  | scheduled _ holds ih => exact ih.scheduled fun o mem => imp o (holds o mem)
  | released _ holds done ih => exact ih.released (imp _ holds) done

theorem Handles.legacyAll (handles : Handles P foreign other) (holds : ∀ o ∈ os, P o) :
    Handles P foreign (os.foldl noteLegacyGarbage other) := by
  induction os generalizing other with
  | nil => exact handles
  | cons o os ih =>
    exact ih (handles.legacy (holds o (by simp))) fun p mem => holds p (by simp [mem])

theorem Handles.releaseAll (handles : Handles P foreign other) (holds : ∀ o ∈ os, P o)
    (done : ForeignHeap.releaseAll other os = .ok other') : Handles P foreign other' :=
  foldlM_induction (P := Handles P foreign) done handles
    fun o mem _ _ handles step => handles.released (holds o mem) step

end ForeignHeap

/-- The logs of an arena say nothing new about an object that was not handled. -/
theorem Arena.count_of_handles {a b : Arena} {o : ObjectId}
    (handles : ForeignHeap.Handles (· ≠ o) a b) :
    b.released.count o = a.released.count o ∧
      b.legacyGarbage.count o = a.legacyGarbage.count o ∧
      b.scheduled.count o = a.scheduled.count o ∧ b.untracked.count o = a.untracked.count o := by
  induction handles with
  | refl => exact ⟨rfl, rfl, rfl, rfl⟩
  | untracked _ other ih =>
    obtain ⟨released, legacy, scheduled, untracked⟩ := ih
    exact ⟨released, legacy, scheduled, by simp [ForeignHeap.noteUntracked, untracked, other]⟩
  | legacy _ other ih =>
    obtain ⟨released, legacy, scheduled, untracked⟩ := ih
    exact ⟨released, by simp [ForeignHeap.noteLegacyGarbage, legacy, other], scheduled, untracked⟩
  | @scheduled _ os _ others ih =>
    obtain ⟨released, legacy, scheduled, untracked⟩ := ih
    have apart : os.count o = 0 := List.count_eq_zero.2 fun mem => others o mem rfl
    exact ⟨released, legacy, by simp [ForeignHeap.scheduleFinalizers, scheduled, apart], untracked⟩
  | @released a₁ a₂ p _ other done ih =>
    obtain ⟨c, -, -, a₃, uncounted, rfl⟩ := release_eq_ok.1 done
    have logs : a₃.released = a₁.released ∧ a₃.legacyGarbage = a₁.legacyGarbage ∧
        a₃.scheduled = a₁.scheduled ∧ a₃.untracked = a₁.untracked :=
      decrefAll_induction (P := fun b => b.released = a₁.released ∧
        b.legacyGarbage = a₁.legacyGarbage ∧ b.scheduled = a₁.scheduled ∧
        b.untracked = a₁.untracked) uncounted ⟨rfl, rfl, rfl, rfl⟩ fun _ _ _ _ same _ => same
    simpa [logs, other] using ih

namespace World

variable {ρ : Type} [ForeignHeap ρ] {w w' u v start : World ρ} {a : Action ρ}
  {actions earlier since : List (Action ρ)} {s : Snapshot} {o : ObjectId} {outcome : Outcome}

/-! ## How a pass began -/

/-- After `earlier` the next step took a snapshot and led to `v`; the pass that it started went on
throughout `since`, up to `w`. -/
structure Began (start : World ρ) (earlier : List (Action ρ)) (v : World ρ)
    (since : List (Action ρ)) (w : World ρ) : Prop where
  started : ∃ u, start.run earlier = .ok u ∧ u.collector.phase = .idle ∧ u.step = .ok (false, v)
  ran : v.run since = .ok w
  ongoing : ∀ past, past <+: since → ∀ u, v.run past = .ok u → u.collector.phase.inPass = true

theorem run_concat_eq_ok :
    w.run (actions ++ [a]) = .ok w' ↔ ∃ u, w.run actions = .ok u ∧ u.act a = .ok w' := by
  have single : ∀ u : World ρ, u.run [a] = u.act a := fun u => by
    rw [run_cons]
    cases u.act a <;> rfl
  rw [run_append, bind_eq_ok]
  simp only [single]

/-- A pass starts with a step of an idle collector. -/
theorem step_of_act (outside : w.collector.phase.inPass = false) (acted : w.act a = .ok w')
    (inPass : w'.collector.phase.inPass = true) :
    a = .step ∧ w.collector.phase = .idle ∧ w.step = .ok (false, w') := by
  obtain rfl : a = .step := by
    by_contra other
    rcases phase_of_act acted other with same | due
    · simp [same, outside] at inPass
    · simp [due, Phase.inPass] at inPass
  have idle : w.collector.phase = .idle := by
    have follows := (moves_of_act acted).follows
    generalize w.collector.phase = p at *
    generalize w'.collector.phase = q at *
    cases follows <;> simp_all [Phase.inPass]
  obtain ⟨⟨finished, _⟩, stepped, rfl⟩ := map_eq_ok.1 acted
  cases finished with
  | false => exact ⟨rfl, idle, stepped⟩
  | true => simp [(finished_iff_idle stepped).1 rfl, Phase.inPass] at inPass

/-- A pass that is in progress began. -/
theorem exists_began (outside : start.collector.phase.inPass = false)
    (ran : start.run actions = .ok w) (inPass : w.collector.phase.inPass = true) :
    ∃ earlier v since, actions = earlier ++ .step :: since ∧ Began start earlier v since w := by
  induction actions using List.reverseRecOn generalizing w with
  | nil =>
    obtain rfl := pure_eq_ok.1 ran
    simp [outside] at inPass
  | append_singleton actions a ih =>
    obtain ⟨u, before, acted⟩ := run_concat_eq_ok.1 ran
    cases goes : u.collector.phase.inPass with
    | true =>
      obtain ⟨earlier, v, since, rfl, began⟩ := ih before goes
      have whole : v.run (since ++ [a]) = .ok w := run_concat_eq_ok.2 ⟨u, began.ran, acted⟩
      refine ⟨earlier, v, since ++ [a], by simp, began.started, whole,
        fun past first x reached => ?_⟩
      rcases List.prefix_concat_iff.1 first with rfl | first
      · obtain rfl := Except.ok.inj (whole.symm.trans reached)
        exact inPass
      · exact began.ongoing past first x reached
    | false =>
      obtain ⟨rfl, idle, stepped⟩ := step_of_act goes acted inPass
      refine ⟨actions, w, [], rfl, ⟨u, before, idle, stepped⟩, rfl, fun past first x reached => ?_⟩
      obtain rfl := List.prefix_nil.1 first
      obtain rfl := pure_eq_ok.1 reached
      exact inPass

theorem Began.taken (began : Began start earlier v since w) :
    ∃ s, v.collector.snapshot? = some s ∧ v.collector.invalidated = false := by
  obtain ⟨u, -, idle, stepped⟩ := began.started
  cases step_eq_ok.1 stepped with
  | mark marking => simp [idle] at marking
  | start _ _ started =>
    obtain ⟨_, _, snapshot, _, -, -, -, -, rfl⟩ := startPass_eq_ok started
    exact ⟨snapshot, rfl, rfl⟩

/-- As long as no object of the snapshot is untracked, the objects in collection are those of the
snapshot. -/
theorem Began.members_eq (began : Began start earlier v since w) (settled : w.collector.Settled)
    (taken : w.collector.snapshot? = some s) (kept : ¬v.Untracks s since) :
    w.collector.sets.members .inCollection = s.objects := by
  obtain ⟨s₀, first, intact⟩ := began.taken
  obtain ⟨⟨s', taken', same⟩, -⟩ := invalidated_run first rfl began.ran began.ongoing
  obtain rfl := Option.some.inj (taken.symm.trans taken')
  obtain ⟨-, invalidated⟩ := invalidated_run first same.symm began.ran began.ongoing
  have valid : w.collector.invalidated = false := by
    rw [← Bool.not_eq_true, invalidated, intact]
    simpa using kept
  have records := settled.records s taken
  have length := (List.Nodup.subperm records.wellformed.nodup (records.complete valid)).length_le
  exact (settled.inOrder s taken).eq_of_length_le length

/-! ## New objects -/

def Snaps (w : World ρ) (actions : List (Action ρ)) : Prop :=
  ∃ before after u, actions = before ++ .step :: after ∧ w.run before = .ok u ∧
    u.collector.snapshotDue = true

theorem not_snaps_cons (acted : w.act a = .ok u) (none : ¬w.Snaps (a :: actions)) :
    (a = .step → w.collector.snapshotDue = false) ∧ ¬u.Snaps actions := by
  constructor
  · rintro rfl
    by_contra due
    exact none ⟨[], actions, w, rfl, rfl, by simpa using due⟩
  · rintro ⟨before, after, x, rfl, ran, due⟩
    refine none ⟨a :: before, after, x, rfl, ?_, due⟩
    rw [run_cons, acted]
    exact ran

/-- Disposing handles staged objects only. -/
theorem handles_of_disposeStaged (disposed : w.disposeStaged = .ok (outcome, w')) :
    ForeignHeap.Handles (· ∈ w.collector.sets.members .staged) w.foreign w'.foreign := by
  obtain ⟨_, w₁, _, w₂, w₃, _, kept, isolated, marked, released, -⟩ :=
    disposeStaged_eq_ok.1 disposed
  obtain ⟨_, keeps⟩ := keeps_of_keepLegacy kept
  have left : ∀ o ∈ w₁.collector.sets.members .staged, o ∈ w.collector.sets.members .staged :=
    fun o mem => (List.mem_filter.1 (keeps.staged ▸ mem)).1
  obtain ⟨legacy, _, _, found, -, -, rfl⟩ := keepLegacy_eq_ok kept
  have reported : ForeignHeap.Handles (· ∈ w.collector.sets.members .staged) w.foreign
      (legacy.foldl ForeignHeap.noteLegacyGarbage w.foreign) :=
    ForeignHeap.Handles.refl.legacyAll fun o mem => ((ForeignHeap.mem_withFinalizer found).1 mem).1
  obtain ⟨finalizable, modern, isolated⟩ := isolateFinalizable_eq_ok isolated
  obtain ⟨bridges, _, -, rfl⟩ := marks_of_markBorder marked
  obtain ⟨foreign, _, -, done, rfl⟩ := releaseStaged_eq_ok released
  obtain ⟨-, -, rfl⟩ | ⟨-, -, _, rfl⟩ := isolated
  · exact reported.releaseAll left done
  · have scheduled := reported.scheduled
      fun o mem => left o ((ForeignHeap.mem_withFinalizer modern).1 mem).1
    refine scheduled.releaseAll (fun o mem => ?_) done
    simp [TrackedSets.members_merged] at mem

/-- A verdict stages objects in collection, and moves nothing else. -/
theorem members_of_judge {sets sets' : TrackedSets} {foreign : ρ} {host : HostHeap}
    {invalidated : Bool} {verdict : Verdict} (staged : sets.members .staged = [])
    (judged : s.judge sets foreign host invalidated = .ok (verdict, sets')) :
    sets'.members .new = sets.members .new ∧ sets'.members .isolated = sets.members .isolated ∧
      ∀ o ∈ sets'.members .staged, o ∈ sets.members .inCollection := by
  cases verdict with
  | consistent =>
    obtain ⟨-, -, rfl⟩ := Snapshot.judge_consistent judged
    simp +contextual [s.members_enterAll_inCollection staged]
  | inconsistent =>
    obtain ⟨-, undone⟩ := Snapshot.judge_inconsistent staged judged
    exact ⟨undone.new, undone.isolated, by simp [undone.staged]⟩

/-- A step that takes no snapshot keeps the new objects, and the foreign heap hears of objects in
collection only. -/
theorem handles_of_step {finished : Bool} (stepped : w.step = .ok (finished, w'))
    (due : w.collector.snapshotDue = false) (orderly : w.collector.Orderly) :
    w'.collector.sets.members .new = w.collector.sets.members .new ∧
      ForeignHeap.Handles (· ∈ w.collector.sets.members .inCollection) w.foreign w'.foreign := by
  cases step_eq_ok.1 stepped with
  | start idle on => simp [Collector.snapshotDue, idle, on] at due
  | mark _ marked =>
    obtain ⟨_, _, _, _, -, -, -, rfl⟩ := markStep_eq_ok marked
    exact ⟨rfl, .refl⟩
  | finish _ ended =>
    obtain ⟨_, _, sets, _, _, -, judged, disposed, rfl⟩ := finishPass_eq_ok ended
    obtain ⟨new, -, staged⟩ := members_of_judge orderly.staged judged
    obtain ⟨⟨_, _, _, _, disposes⟩, -⟩ := disposes_of_disposeStaged disposed
    exact ⟨disposes.new.trans new, (handles_of_disposeStaged disposed).mono staged⟩
  | sweep _ swept =>
    obtain ⟨_, _, -, rfl⟩ := sweep_eq_ok swept
    exact ⟨rfl, .refl⟩

/-- A new object stays new, unless it is untracked, until a snapshot is taken. -/
theorem mem_new_of_act (acted : w.act a = .ok w') (orderly : w.collector.Orderly)
    (tracked : a ≠ .untrack o) (due : a = .step → w.collector.snapshotDue = false)
    (new : o ∈ w.collector.sets.members .new) : o ∈ w'.collector.sets.members .new := by
  cases a with
  | step =>
    obtain ⟨⟨_, _⟩, stepped, rfl⟩ := map_eq_ok.1 acted
    rwa [(handles_of_step stepped (due rfl) orderly).1]
  | foreign => exact Except.ok.inj acted ▸ new
  | host => exact Except.ok.inj acted ▸ new
  | setCycleDetection => exact Except.ok.inj acted ▸ new
  | requestSweep =>
    obtain rfl := Except.ok.inj acted
    unfold Collector.requestSweep
    split <;> exact new
  | track p =>
    obtain rfl := Except.ok.inj acted
    refine request_induction new fun c granted => ?_
    obtain ⟨_, inserted, rfl⟩ := Collector.track_eq_ok.1 granted
    simp [TrackedSets.members_insert? inserted, new]
  | untrack p =>
    have other : o ≠ p := fun same => tracked (same ▸ rfl)
    obtain rfl := Except.ok.inj acted
    refine request_induction new fun c granted => ?_
    obtain ⟨-, rfl⟩ := Collector.untrack_eq_ok.1 granted
    simp [new, other]
  | finalizersDone p =>
    obtain rfl := Except.ok.inj acted
    refine request_induction new fun c granted => ?_
    obtain ⟨isolated, rfl⟩ := Collector.finalizersDone_eq_ok.1 granted
    have members := TrackedSets.members_moved (TrackedSets.contains_of_mem_members isolated) .new
    by_cases same : o = p <;> simp [members, new, same]

theorem mem_new_of_run (ran : w.run since = .ok w') (orderly : w.collector.Orderly)
    (tracked : .untrack o ∉ since) (none : ¬w.Snaps since)
    (new : o ∈ w.collector.sets.members .new) : o ∈ w'.collector.sets.members .new := by
  induction since generalizing w with
  | nil => exact pure_eq_ok.1 ran ▸ new
  | cons a since ih =>
    rw [run_cons, bind_eq_ok] at ran
    obtain ⟨u, acted, ran⟩ := ran
    obtain ⟨here, later⟩ := not_snaps_cons acted none
    rw [List.mem_cons, not_or] at tracked
    have first := mem_new_of_act acted orderly (Ne.symm tracked.1) here new
    exact ih ran ((moves_of_act acted).orderly orderly) tracked.2 later first

omit [ForeignHeap ρ] in
/-- Asking the collector to track an object, or telling it that the finalizers of an object have
run, makes the object new if it is granted. -/
theorem mem_new_of_granted {c : Collector}
    (granted : w.collector.track o = .ok c ∨ w.collector.finalizersDone o = .ok c) :
    o ∈ c.sets.members .new := by
  rcases granted with tracked | done
  · obtain ⟨_, inserted, rfl⟩ := Collector.track_eq_ok.1 tracked
    simp [TrackedSets.members_insert? inserted]
  · obtain ⟨isolated, rfl⟩ := Collector.finalizersDone_eq_ok.1 done
    have members := TrackedSets.members_moved (TrackedSets.contains_of_mem_members isolated) .new
    simp [members]

/-! ## All together -/

/-- In every run nothing is staged between two actions, new objects have the count one, those in
collection a positive one, and isolated ones none. While there is a snapshot, the objects in
collection are objects of the snapshot in its order; it was taken by one of the steps of the run,
and unless one of its objects was untracked since then, they are all of them. An object that is
tracked or comes back from its finalizers is new, and unless it is untracked it stays so until a
step takes the next snapshot; and no step before that one handles it. -/
theorem roles_of_run {options : Options} {foreign : ρ} {host : HostHeap}
    (ran : run { collector := { options }, foreign, host } actions = .ok w) :
    w.collector.sets.members .staged = [] ∧
    (∀ o ∈ w.collector.sets.members .new, w.collector.sets.gcRefs o = some 1) ∧
    (∀ o ∈ w.collector.sets.members .inCollection,
      ∃ n, w.collector.sets.gcRefs o = some n ∧ 1 ≤ n) ∧
    (∀ o ∈ w.collector.sets.members .isolated, w.collector.sets.gcRefs o = some 0) ∧
    (∀ s, w.collector.snapshot? = some s →
      (w.collector.sets.members .inCollection).Sublist s.objects ∧
      ∃ earlier v since, actions = earlier ++ .step :: since ∧
        Began { collector := { options }, foreign, host } earlier v since w ∧
        (¬v.Untracks s since → w.collector.sets.members .inCollection = s.objects)) ∧
    ∀ o c, w.collector.track o = .ok c ∨ w.collector.finalizersDone o = .ok c →
      ∀ since v, run { w with collector := c } since = .ok v → .untrack o ∉ since →
        ¬Snaps { w with collector := c } since →
        o ∈ v.collector.sets.members .new ∧
        ∀ finished v', v.step = .ok (finished, v') → v.collector.snapshotDue = false →
          ForeignHeap.Handles (· ≠ o) v.foreign v'.foreign := by
  have settled := settled_of_run ran (.start options)
  refine ⟨settled.staged, ?_, settled.counted .inCollection, ?_, fun s taken => ?_, ?_⟩
  · intro o mem
    obtain ⟨n, count, rfl⟩ := settled.counted .new o mem
    exact count
  · intro o mem
    obtain ⟨n, count, rfl⟩ := settled.counted .isolated o mem
    exact count
  · have inPass : w.collector.phase.inPass = true := by
      rw [← settled.inPass, taken]
      rfl
    obtain ⟨earlier, v, since, split, began⟩ := exists_began rfl ran inPass
    exact ⟨settled.inOrder s taken, earlier, v, since, split, began, began.members_eq settled taken⟩
  · intro o c granted since v ran tracked none
    have moves : Moves w { w with collector := c } := by
      rcases granted with tracked | done
      · exact .track o tracked
      · exact .finalizersDone o done
    have orderly := moves.orderly settled.toOrderly
    have new := mem_new_of_run ran orderly tracked none (mem_new_of_granted granted)
    refine ⟨new, fun finished v' stepped due => ?_⟩
    have handles := (handles_of_step stepped due (orderly_of_run ran orderly)).2
    refine handles.mono fun p collected => ?_
    rintro rfl
    rw [TrackedSets.mem_members] at collected new
    simp [collected] at new

/-- One object of each role in the middle of a pass. The isolated one comes back from its finalizer
and stays new, although the pass then ends and releases a ring. -/
theorem roles_of_run_arena :
    let arena : Arena := { cells := #[
      { refcount := 1 },
      { refcount := 1, references := [⟨1⟩], finalizer := .modern },
      { refcount := 1, references := [⟨2⟩] },
      { refcount := 1 }] }
    let start : World Arena := { foreign := arena }
    let w :=
      start.after [.track ⟨0⟩, .track ⟨1⟩, .step, .step, .step, .track ⟨2⟩, .step, .track ⟨3⟩]
    let v := w.after [.finalizersDone ⟨1⟩, .step]
    w.collector.sets.members .new = [⟨3⟩] ∧ w.collector.sets.gcRefs ⟨3⟩ = some 1 ∧
    w.collector.sets.members .isolated = [⟨1⟩] ∧ w.collector.sets.gcRefs ⟨1⟩ = some 0 ∧
    (∃ s, w.collector.snapshot? = some s ∧ s.objects = [⟨0⟩, ⟨2⟩] ∧
      w.collector.sets.members .inCollection = s.objects) ∧
    ⟨1⟩ ∈ v.collector.sets.members .new ∧
    ∃ v', v.step = .ok (true, v') ∧ v'.foreign.released = [⟨2⟩] ∧
      v'.foreign.released.count ⟨1⟩ = v.foreign.released.count ⟨1⟩ := by
  intro arena start w v
  have ran : start.run [.track ⟨0⟩, .track ⟨1⟩, .step, .step, .step, .track ⟨2⟩, .step,
      .track ⟨3⟩] = .ok w := by decide +kernel
  obtain ⟨-, new, -, isolated, snapshot, newcomers⟩ := roles_of_run ran
  have recorded : (w.collector.snapshot?.any fun s => s.objects = [⟨0⟩, ⟨2⟩]) = true := by
    decide +kernel
  obtain ⟨s, taken, objects⟩ := (Option.any_eq_true ..).1 recorded
  obtain ⟨-, earlier, x, since, split, -, whole⟩ := snapshot s taken
  have kept : ¬x.Untracks s since := by
    rintro ⟨before, o, after, y, rfl, -⟩
    have mem : Action.untrack o ∈ earlier ++ .step :: (before ++ .untrack o :: after) := by simp
    rw [← split] at mem
    simp at mem
  let c := (w.after [.finalizersDone ⟨1⟩]).collector
  have back : w.collector.finalizersDone ⟨1⟩ = .ok c := by decide +kernel
  have marked : run { w with collector := c } [.step] = .ok v := by decide +kernel
  have before : ¬Snaps { w with collector := c } [.step] := by
    rintro ⟨before, after, y, split, reached, due⟩
    cases before with
    | nil =>
      obtain rfl := pure_eq_ok.1 reached
      exact absurd due (by decide +kernel)
    | cons => simp at split
  obtain ⟨stays, handles⟩ := newcomers ⟨1⟩ c (.inr back) [.step] v marked (by simp) before
  have last : v.step = .ok (true, v.after [.step]) := by decide +kernel
  have apart := handles _ _ last (by decide +kernel)
  refine ⟨by decide +kernel, new _ (by decide +kernel), by decide +kernel,
    isolated _ (by decide +kernel), ⟨s, taken, by simpa using objects, whole kept⟩, stays,
    _, last, by decide +kernel, (Arena.count_of_handles apart).1⟩

end World

end CycleCollector
