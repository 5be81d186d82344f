import CycleCollector.Proofs.Accounts
import CycleCollector.Proofs.Census
import CycleCollector.Proofs.ReleaseOrder
import CycleCollector.Proofs.SinceSnapshot
/-!
# Isolated objects are held back

A pass that isolates an object hands it to its finalizer, and from then on the collector leaves it
alone until the program says that the finalizer has run, or untracks the object. Passes, sweeps and
failed passes only add isolated objects behind those that are there. A snapshot is taken of objects
in collection, so no isolated object is in one, and steps handle new objects and objects in
collection only.

If the program keeps the books, what an isolated object refers to stays as well. All references to
an object that is released are stored in objects that are released with it, and an isolated object
is not; that already holds of the pass that isolates it.

## Main definitions

* `World.Action.frees`, `World.waits`: what ends the wait of an isolated object.
* `Collector.Apart`: no isolated object is in the snapshot.
* `World.Holds`: isolated objects stay isolated, and what tracked objects refer to is not released.

## Main statements

* `World.isolated_of_step`, `World.isolated_of_run`: what becomes of the isolated objects.
* `World.Sound.refers_of_step`: what tracked objects refer to is not released.
* `World.isolated_heldBack`: all of this for every run.
-/

namespace CycleCollector

namespace World

variable {ρ : Type}

/-- The action ends the wait of an isolated object: the object is untracked, or its finalizers are
done. If the object is isolated such a request is granted. -/
def Action.frees (a : Action ρ) (o : ObjectId) : Bool :=
  match a with
  | .untrack p | .finalizersDone p => p = o
  | _ => false

def waits (actions : List (Action ρ)) (o : ObjectId) : Bool := actions.all fun a => !a.frees o

variable [ForeignHeap ρ] {w w' v : World ρ} {a : Action ρ} {since : List (Action ρ)} {o : ObjectId}
  {finished : Bool}

/-! ## The list of isolated objects -/

/-- A step only adds isolated objects, behind those that are there. -/
theorem isolated_of_step (stepped : w.step = .ok (finished, w')) (orderly : w.collector.Orderly) :
    ∃ later, w'.collector.sets.members .isolated =
      w.collector.sets.members .isolated ++ later := by
  cases step_eq_ok.1 stepped with
  | start _ _ started =>
    obtain ⟨v, _, _, _, prepared, -, -, -, rfl⟩ := startPass_eq_ok started
    refine ⟨[], ?_⟩
    simp [TrackedSets.members_merged, (prepares_of_prepareSets prepared).others]
  | mark _ marked =>
    obtain ⟨_, _, _, _, -, -, -, rfl⟩ := markStep_eq_ok marked
    exact ⟨[], (List.append_nil _).symm⟩
  | finish _ ended =>
    obtain ⟨_, _, sets, _, _, -, judged, disposed, rfl⟩ := finishPass_eq_ok ended
    obtain ⟨-, isolated, -⟩ := members_of_judge orderly.staged judged
    obtain ⟨⟨_, late, _, _, disposes⟩, -⟩ := disposes_of_disposeStaged disposed
    exact ⟨late, disposes.waiting.trans (by rw [sets_discardSnapshot, isolated])⟩
  | sweep _ swept =>
    obtain ⟨_, _, -, rfl⟩ := sweep_eq_ok swept
    exact ⟨[], (List.append_nil _).symm⟩

/-- An action takes out the objects whose wait it ends, and a step adds others behind. -/
theorem isolated_of_act (acted : w.act a = .ok w') (orderly : w.collector.Orderly) :
    ∃ later, w'.collector.sets.members .isolated =
      (w.collector.sets.members .isolated).filter (fun o => !a.frees o) ++ later := by
  have rest : ∀ p, p ∉ w.collector.sets.members .isolated →
      (w.collector.sets.members .isolated).filter (· ≠ p) =
        w.collector.sets.members .isolated := by
    intro p free
    refine List.filter_eq_self.2 fun o mem => ?_
    simpa using fun same : o = p => free (same ▸ mem)
  cases a with
  | step =>
    obtain ⟨⟨_, _⟩, stepped, rfl⟩ := map_eq_ok.1 acted
    simpa [Action.frees] using isolated_of_step stepped orderly
  | foreign => exact Except.ok.inj acted ▸ ⟨[], by simp [Action.frees]⟩
  | host => exact Except.ok.inj acted ▸ ⟨[], by simp [Action.frees]⟩
  | setCycleDetection =>
    exact Except.ok.inj acted ▸ ⟨[], by simp [Action.frees, Collector.setCycleDetection]⟩
  | requestSweep =>
    obtain rfl := Except.ok.inj acted
    refine ⟨[], ?_⟩
    unfold Collector.requestSweep
    split <;> simp [Action.frees]
  | track p =>
    obtain rfl := Except.ok.inj acted
    refine ⟨[], request_induction (by simp [Action.frees]) fun c granted => ?_⟩
    obtain ⟨_, inserted, rfl⟩ := Collector.track_eq_ok.1 granted
    simp [Action.frees, TrackedSets.members_insert? inserted]
  | untrack p =>
    obtain rfl := Except.ok.inj acted
    refine ⟨[], ?_⟩
    simp only [Action.frees, ← decide_not, eq_comm (a := p), List.append_nil]
    cases answer : w.collector.untrack p with
    | error refusal =>
      refine (rest p fun mem => ?_).symm
      have granted := Collector.untrack_eq_ok.2 ⟨TrackedSets.contains_of_mem_members mem, rfl⟩
      simp [answer] at granted
    | ok c =>
      obtain ⟨-, rfl⟩ := Collector.untrack_eq_ok.1 answer
      exact TrackedSets.members_erase ..
  | finalizersDone p =>
    obtain rfl := Except.ok.inj acted
    refine ⟨[], ?_⟩
    simp only [Action.frees, ← decide_not, eq_comm (a := p), List.append_nil]
    cases answer : w.collector.finalizersDone p with
    | error refusal =>
      refine (rest p fun mem => ?_).symm
      have granted := Collector.finalizersDone_eq_ok.2 ⟨mem, rfl⟩
      simp [answer] at granted
    | ok c =>
      obtain ⟨isolated, rfl⟩ := Collector.finalizersDone_eq_ok.1 answer
      have members := TrackedSets.members_moved (TrackedSets.contains_of_mem_members isolated) .new
      simp [request, resolve, Collector.resolve, members]

theorem isolated_of_run (ran : w.run since = .ok v) (orderly : w.collector.Orderly) :
    ∃ later, v.collector.sets.members .isolated =
      (w.collector.sets.members .isolated).filter (waits since) ++ later := by
  induction since generalizing w with
  | nil =>
    obtain rfl := pure_eq_ok.1 ran
    exact ⟨[], ((List.append_nil _).trans (List.filter_eq_self.2 fun _ _ => rfl)).symm⟩
  | cons a since ih =>
    rw [run_cons, bind_eq_ok] at ran
    obtain ⟨u, acted, ran⟩ := ran
    obtain ⟨late, first⟩ := isolated_of_act acted orderly
    obtain ⟨later, others⟩ := ih ran ((moves_of_act acted).orderly orderly)
    refine ⟨late.filter (waits since) ++ later, ?_⟩
    have both : ∀ o ∈ w.collector.sets.members .isolated,
        (waits since o && !a.frees o) = waits (a :: since) o := fun o _ => Bool.and_comm ..
    rw [others, first, List.filter_append, List.filter_filter, List.append_assoc,
      List.filter_congr both]

/-! ## Snapshots and reports -/

/-- A step handles new objects and objects in collection only. -/
theorem handles_of_stepped (stepped : w.step = .ok (finished, w')) (orderly : w.collector.Orderly) :
    ForeignHeap.Handles
      (fun p => p ∈ w.collector.sets.members .new ∨ p ∈ w.collector.sets.members .inCollection)
      w.foreign w'.foreign := by
  cases due : w.collector.snapshotDue with
  | false => exact (handles_of_step stepped due orderly).2.mono fun _ => .inr
  | true =>
    simp only [Collector.snapshotDue, Bool.and_eq_true, decide_eq_true_eq] at due
    cases step_eq_ok.1 stepped with
    | start _ _ started =>
      obtain ⟨v, _, _, _, prepared, -, -, -, rfl⟩ := startPass_eq_ok started
      have let_go : ForeignHeap.Handles (fun p => p ∈ w.collector.sets.members .new ∨
          p ∈ w.collector.sets.members .inCollection) w.foreign v.foreign :=
        prepareSets_induction (P := fun u => ForeignHeap.Handles _ w.foreign u.foreign) prepared
          .refl fun o new _ _ handles => handles.untracked (.inl new)
      exact let_go
    | mark marking => simp [due.1] at marking
    | finish marked => simp [due.1] at marked
    | sweep swept => simp [due] at swept

end World

def Collector.Apart (c : Collector) : Prop :=
  ∀ s, c.snapshot? = some s → ∀ o ∈ c.sets.members .isolated, o ∉ s.objects

namespace World

variable {ρ : Type} [ForeignHeap ρ] {w w' v : World ρ} {actions : List (Action ρ)} {o : ObjectId}
  {finished : Bool}

/-- In a pass no object becomes isolated before its end. -/
theorem Stages.apart (stages : Stages w w') (apart : w.collector.Apart) : w'.collector.Apart := by
  cases stages with
  | start _ started =>
    obtain ⟨v, taken, snapshot, _, _, htaken, collected, -, rfl⟩ := startPass_eq_ok started
    intro s same o isolated recorded
    obtain rfl := Option.some.inj same
    rw [Snapshot.objects_congr (Snapshot.frozen_collectRoots collected),
      Snapshot.objects_take htaken] at recorded
    have role := TrackedSets.mem_members.1 isolated
    rw [TrackedSets.mem_members.1 recorded] at role
    simp at role
  | mark _ marked =>
    obtain ⟨snapshot, _, m, _, taken, ran, -, rfl⟩ := markStep_eq_ok marked
    intro s same o isolated
    obtain rfl := Option.some.inj same
    have frozen := Marking.run_induction (P := fun s _ => s.frozen = snapshot.frozen) ran rfl
      fun _ _ _ frozen visits => visits.frozen.trans frozen
    rw [Snapshot.objects_congr frozen]
    exact apart snapshot taken o isolated
  | finish _ finished =>
    intro s taken
    simp [(snapshot_of_finishPass finished).1] at taken
  | sweep _ swept =>
    obtain ⟨_, _, -, rfl⟩ := sweep_eq_ok swept
    exact apart

theorem Moves.apart (moves : Moves w w') (apart : w.collector.Apart) : w'.collector.Apart := by
  cases moves with
  | heaps => exact apart
  | track _ tracked =>
    obtain ⟨_, inserted, rfl⟩ := Collector.track_eq_ok.1 tracked
    intro s taken o isolated
    exact apart s taken o (by simpa [TrackedSets.members_insert? inserted] using isolated)
  | untrack _ untracked =>
    obtain ⟨-, rfl⟩ := Collector.untrack_eq_ok.1 untracked
    intro s taken o isolated
    rw [TrackedSets.members_erase] at isolated
    exact apart s taken o (List.mem_filter.1 isolated).1
  | finalizersDone _ done =>
    obtain ⟨here, rfl⟩ := Collector.finalizersDone_eq_ok.1 done
    intro s taken o isolated
    have members := TrackedSets.members_moved (TrackedSets.contains_of_mem_members here) .new
    simp only [TrackedSets.members_withGcRefs, members, reduceCtorEq, if_false,
      List.append_nil] at isolated
    exact apart s taken o (List.mem_filter.1 isolated).1
  | setCycleDetection => exact apart
  | requestSweep =>
    unfold Collector.requestSweep
    split <;> exact apart
  | step stages => exact stages.apart apart

theorem apart_of_run (ran : w.run actions = .ok w') (apart : w.collector.Apart) :
    w'.collector.Apart :=
  foldlM_induction (P := fun w => w.collector.Apart) ran apart
    fun _ _ _ _ apart acted => (moves_of_act acted).apart apart

end World

/-! ## What isolated objects refer to -/

namespace World

variable {w w' : World Arena} {l : Ledger} {o p : ObjectId} {finished : Bool}

/-- While the books are in order no step releases what an object refers to that is still tracked
after it. -/
theorem Sound.refers_of_step (sound : w.Sound l) (refers : p ∈ w.foreign.referencesOf o)
    (tracked : w'.collector.sets.contains o = true) (stepped : w.step = .ok (finished, w')) :
    p ∈ w'.foreign.referencesOf o ∧ w'.foreign.released.count p = w.foreign.released.count p := by
  cases step_eq_ok.1 stepped with
  | start _ _ started =>
    obtain ⟨v, _, _, _, prepared, -, -, -, rfl⟩ := startPass_eq_ok started
    obtain ⟨cells, log⟩ := Arena.cells_of_informed (prepares_of_prepareSets prepared).informed
    exact ⟨by simpa only [Arena.referencesOf_congr cells] using refers, by rw [log]⟩
  | mark _ marked =>
    obtain ⟨_, _, _, _, -, -, -, rfl⟩ := markStep_eq_ok marked
    exact ⟨refers, rfl⟩
  | sweep _ swept =>
    obtain ⟨_, _, -, rfl⟩ := sweep_eq_ok swept
    exact ⟨refers, rfl⟩
  | finish marked ended =>
    obtain ⟨a, released, cells, log, done, -, unreferenced⟩ :=
      sound.unreferenced_of_finishPass marked ended
    have logged : w'.foreign.released = w.foreign.released ++ released := by
      rw [Arena.released_of_releaseAll done, log]
    obtain ⟨changes, undergoes, -⟩ := undergoes_finishPass sound.orderly ended
    have same : changes.released = released :=
      List.append_cancel_left (undergoes.releasedLog.symm.trans logged)
    have spared : o ∉ released := same ▸ (undergoes.left o tracked).2
    obtain ⟨c, hc, refers'⟩ := Arena.mem_referencesOf.1 refers
    have kept : p ∉ released := fun mem => spared ((unreferenced p mem).stored o c hc refers')
    refine ⟨?_, by rw [logged, List.count_append, List.count_eq_zero.2 kept, Nat.add_zero]⟩
    rw [Arena.referencesOf_releaseAll done spared, Arena.referencesOf_congr cells]
    exact refers

/-- Between `w` and `w'` isolated objects stay isolated, no object becomes tracked, and what a
tracked object refers to is not released. -/
structure Holds (w w' : World Arena) : Prop where
  isolated : ∀ o ∈ w.collector.sets.members .isolated, o ∈ w'.collector.sets.members .isolated
  tracked : ∀ o, w'.collector.sets.contains o = true → w.collector.sets.contains o = true
  refers : ∀ o p, w'.collector.sets.contains o = true → p ∈ w.foreign.referencesOf o →
    p ∈ w'.foreign.referencesOf o ∧ w'.foreign.released.count p = w.foreign.released.count p

theorem Holds.refl (w : World Arena) : w.Holds w :=
  ⟨fun _ isolated => isolated, fun _ tracked => tracked, fun _ _ _ refers => ⟨refers, rfl⟩⟩

theorem Holds.trans {v : World Arena} (first : w.Holds v) (second : v.Holds w') : w.Holds w' where
  isolated o isolated := second.isolated o (first.isolated o isolated)
  tracked o tracked := first.tracked o (second.tracked o tracked)
  refers o p tracked refers := by
    obtain ⟨still, same⟩ := first.refers o p (second.tracked o tracked) refers
    obtain ⟨stays, same'⟩ := second.refers o p tracked still
    exact ⟨stays, same'.trans same⟩

theorem Sound.holds_of_step (sound : w.Sound l) (stepped : w.step = .ok (finished, w'))
    (host : HostHeap) : w.Holds { w' with host } where
  isolated o isolated := by
    obtain ⟨later, same⟩ := isolated_of_step stepped sound.orderly
    exact same ▸ List.mem_append_left later isolated
  tracked o tracked := by
    obtain ⟨_, undergoes, -⟩ := undergoes_step sound.orderly stepped
    exact (undergoes.left o tracked).1
  refers o _ tracked refers := by
    have stays : w'.collector.sets.contains o = true := tracked
    have held := sound.refers_of_step refers stays stepped
    exact held

theorem Sound.holds_of_completes (sound : w.Sound l) (completes : Completes w w') : w.Holds w' := by
  induction completes with
  | last stepped => exact sound.holds_of_step stepped _
  | more stepped _ _ ih =>
    exact (sound.holds_of_step stepped _).trans (ih ((sound.stage (stages_of_step stepped)).host _))

theorem Sound.holds_of_advance {target : Phase} {limit : Nat} {ended : List Bool}
    (sound : w.Sound l) (advanced : w.advance target limit = .ok (ended, w')) : w.Holds w' := by
  induction limit generalizing w ended with
  | zero =>
    obtain ⟨-, rfl⟩ := Prod.mk.inj (Except.ok.inj advanced)
    exact .refl w
  | succ limit ih =>
    unfold World.advance at advanced
    split at advanced
    · obtain ⟨-, rfl⟩ := Prod.mk.inj (Except.ok.inj advanced)
      exact .refl w
    · simp only [bind_eq_ok, pure_eq_ok, World.drain] at advanced
      obtain ⟨⟨_, w₁⟩, stepped, _, ⟨host, -, rfl⟩, ⟨_, w₂⟩, others, advanced⟩ := advanced
      obtain ⟨-, rfl⟩ := Prod.mk.inj advanced
      exact (sound.holds_of_step stepped host).trans
        (ih ((sound.stage (stages_of_step stepped)).host host) others)

end World

/-- No command that keeps the books releases what an object refers to that is isolated before it or
after it. -/
theorem AccountedRun.refers_of_exec {options : Options} {s s' : Session} {l : Ledger}
    {command : Command} {reply : Reply} {o p : ObjectId} (run : AccountedRun options s l)
    (keeps : l.Keeps command) (done : s.exec command = .ok (reply, s'))
    (isolated : o ∈ s.world.collector.sets.members .isolated ∨
      o ∈ s'.world.collector.sets.members .isolated)
    (refers : p ∈ s.world.foreign.referencesOf o) :
    s'.world.foreign.released.count p = s.world.foreign.released.count p := by
  obtain ⟨full, sound⟩ := run.sound
  have held : ∀ {w : World Arena}, s'.world = w → s.world.Holds w →
      s'.world.foreign.released.count p = s.world.foreign.released.count p := by
    rintro _ rfl holds
    have still := isolated.elim (holds.isolated o) id
    exact (holds.refers o p (TrackedSets.contains_of_mem_members still) refers).2
  cases command with
  | foreign m =>
    simp only [Session.exec, bind_eq_ok, pure_eq_ok] at done
    obtain ⟨⟨_, a⟩, applied, done⟩ := done
    obtain ⟨-, rfl⟩ := Prod.mk.inj done
    have other : ∀ q, m ≠ .release q := by
      rintro q rfl
      exact keeps
    rw [(Arena.keepsLogs_of_apply other applied).released]
  | host x =>
    simp only [Session.exec, bind_eq_ok, pure_eq_ok] at done
    obtain ⟨⟨_, g⟩, -, done⟩ := done
    obtain ⟨-, rfl⟩ := Prod.mk.inj done
    rfl
  | collector action =>
    simp only [Session.exec, full, bind_eq_ok, pure_eq_ok] at done
    obtain ⟨⟨_, w⟩, applied, done⟩ := done
    obtain ⟨-, rfl⟩ := Prod.mk.inj done
    cases action with
    | step =>
      simp only [CollectorAction.apply, bind_eq_ok, pure_eq_ok] at applied
      obtain ⟨⟨finished, _⟩, stepped, applied⟩ := applied
      obtain ⟨-, rfl⟩ := Prod.mk.inj applied
      exact held rfl (sound.holds_of_step stepped _)
    | collect =>
      simp only [CollectorAction.apply, bind_eq_ok, pure_eq_ok] at applied
      obtain ⟨⟨_, w₁⟩, collected, applied⟩ := applied
      obtain ⟨-, rfl⟩ := Prod.mk.inj applied
      exact held rfl (sound.holds_of_completes (World.completes_of_collect collected))
    | advance target limit =>
      simp only [CollectorAction.apply, bind_eq_ok, pure_eq_ok] at applied
      obtain ⟨⟨_, w₁⟩, advanced, applied⟩ := applied
      obtain ⟨-, rfl⟩ := Prod.mk.inj applied
      exact held rfl (sound.holds_of_advance advanced)
    | _ =>
      obtain ⟨-, rfl⟩ := Prod.mk.inj (Except.ok.inj applied)
      rfl

/-- Until its wait is ended an isolated object stays isolated, in its place among the others that
wait; it is in no snapshot, and no step releases it or tells the foreign heap of it. In a run that
keeps the books nothing that it refers to is released meanwhile, not even by the pass that isolates
it. -/
theorem World.isolated_heldBack :
    (∀ {ρ : Type} [ForeignHeap ρ] (options : Options) (foreign : ρ) (host : HostHeap)
        (actions since : List (Action ρ)) (w v : World ρ) (o : ObjectId),
      ({ collector := { options }, foreign, host } : World ρ).run actions = .ok w →
      w.run since = .ok v → o ∈ w.collector.sets.members .isolated → waits since o = true →
      o ∈ v.collector.sets.members .isolated ∧
      (∃ later, v.collector.sets.members .isolated =
        (w.collector.sets.members .isolated).filter (waits since) ++ later) ∧
      (∀ s, v.collector.snapshot? = some s → o ∉ s.objects) ∧
      ∀ finished v', v.step = .ok (finished, v') →
        ForeignHeap.Handles (· ≠ o) v.foreign v'.foreign) ∧
    ∀ (options : Options) (s s' : Session) (l : Ledger) (command : Command) (reply : Reply)
        (o p : ObjectId), AccountedRun options s l → l.Keeps command →
      s.exec command = .ok (reply, s') →
      (o ∈ s.world.collector.sets.members .isolated ∨
        o ∈ s'.world.collector.sets.members .isolated) →
      p ∈ s.world.foreign.referencesOf o →
      s'.world.foreign.released.count p = s.world.foreign.released.count p := by
  refine ⟨fun {ρ} _ options foreign host actions since w v o ran later isolated waiting => ?_,
    fun _ _ _ _ _ _ _ _ run keeps done isolated refers =>
      run.refers_of_exec keeps done isolated refers⟩
  have orderly := orderly_of_run ran (.start options)
  have apart := apart_of_run later (apart_of_run ran (by simp [Collector.Apart]))
  obtain ⟨others, same⟩ := isolated_of_run later orderly
  have stays : o ∈ v.collector.sets.members .isolated :=
    same ▸ List.mem_append_left _ (List.mem_filter.2 ⟨isolated, waiting⟩)
  refine ⟨stays, ⟨others, same⟩, fun s taken => apart s taken o stays,
    fun finished v' stepped => ?_⟩
  refine (handles_of_stepped stepped (orderly_of_run later orderly)).mono fun q role here => ?_
  have held := TrackedSets.mem_members.1 stays
  simp only [here, TrackedSets.mem_members, held] at role
  simp at role

/-- The first of two isolated objects comes back and is isolated again, with a third one, behind the
second; and an object that an isolated one refers to outlives a pass. -/
theorem World.isolated_heldBack_twice :
    let loop (o : ObjectId) : Cell :=
      { refcount := 1, references := [o], finalizer := .modern }
    let start : World Arena := { foreign := { cells := #[loop ⟨0⟩, loop ⟨1⟩, loop ⟨2⟩] } }
    let w := start.after [.track ⟨0⟩, .track ⟨1⟩, .step, .step, .step]
    let v := w.after [.finalizersDone ⟨0⟩, .track ⟨2⟩, .step, .step, .step, .step]
    let commands : List Command := [.foreign (.alloc 2), .foreign (.addRef ⟨0⟩ ⟨0⟩),
      .foreign (.addRef ⟨0⟩ ⟨1⟩), .foreign (.setFinalizer ⟨0⟩ .modern),
      .collector (.trackAll [⟨0⟩, ⟨1⟩]), .collector .collect, .collector (.finalizersDone ⟨1⟩)]
    let s := (Session.start .full {}).after commands
    let s' := s.after [.collector .collect]
    w.collector.sets.members .isolated = [⟨0⟩, ⟨1⟩] ∧
    (∃ later, v.collector.sets.members .isolated = ⟨1⟩ :: later) ∧
    (∀ snapshot, v.collector.snapshot? = some snapshot → ⟨1⟩ ∉ snapshot.objects) ∧
    s.world.collector.sets.members .isolated = [⟨0⟩] ∧
    s'.world.foreign.released.count ⟨1⟩ = s.world.foreign.released.count ⟨1⟩ := by
  intro loop start w v commands s s'
  have ran : start.run [.track ⟨0⟩, .track ⟨1⟩, .step, .step, .step] = .ok w := by decide +kernel
  have later : w.run [.finalizersDone ⟨0⟩, .track ⟨2⟩, .step, .step, .step, .step] = .ok v := by
    decide +kernel
  have both : w.collector.sets.members .isolated = [⟨0⟩, ⟨1⟩] := by decide +kernel
  obtain ⟨-, ⟨others, same⟩, apart, -⟩ := isolated_heldBack.1 _ _ _ _ _ w v ⟨1⟩ ran later
    (by rw [both]; decide) (by decide)
  have booked : (Session.start .full {}).runBooked Ledger.Keeps {} commands = some (s, {}) := by
    decide +kernel
  have run : AccountedRun {} s {} := Session.runBooked_induction .exec .start booked
  refine ⟨both, ⟨others, ?_⟩, apart, by decide +kernel, ?_⟩
  · rw [same, both]
    rfl
  · exact isolated_heldBack.2 _ s s' _ (.collector .collect) (.collected 3) ⟨0⟩ ⟨1⟩ run trivial
      (by decide +kernel) (.inl (by decide +kernel)) (by decide +kernel)

end CycleCollector
