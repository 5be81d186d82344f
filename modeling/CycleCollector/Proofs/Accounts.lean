import CycleCollector.Proofs.CombinedGraph
import CycleCollector.Proofs.Soundness
import CycleCollector.Proofs.Solvency
/-!
# The accounts of whole runs

The commands that stand for a list of others keep the books as well: a whole pass, steps up to a
phase, and the tracking of many objects at once. A pass only drops references, so the program's
bound on their number holds at every moment of a pass if it holds before.

As long as the books are in order no snapshot has more edges to an object than the object counts
references. So the collection of roots, which is all that could stop a step that way, never does.

## Main definitions

* `Ledger.Keeps`: all commands that keep the books.
* `AccountedRun`: a run of such commands.

## Main statements

* `World.Sound.solvent_step`: a step of a sound world is solvent.
* `AccountedRun.sound`: every accounted run is sound.
* `AccountedRun.accurate_solvent`: in every accounted run the counts are right, and whatever comes
  next is solvent.
-/

namespace CycleCollector

namespace Ledger

/-- The commands that keep the books, those that stand for a list of others included. -/
def Keeps (l : Ledger) : Command → Prop
  | .collector _ => True
  | .foreign m => l.Admits (.foreign m)
  | .host x => l.Admits (.host x)

instance (l : Ledger) (command : Command) : Decidable (l.Keeps command) := by
  unfold Keeps
  split <;> infer_instance

end Ledger

/-- A run of commands that keep the books, from empty heaps on, in which no object ever has as many
references as would look like a bias. -/
inductive AccountedRun (options : Options) : Session → Ledger → Prop
  | start : AccountedRun options (.start .full options) {}
  | exec {s s' : Session} {l : Ledger} {command : Command} {reply : Reply} :
      AccountedRun options s l → l.Keeps command → s.exec command = .ok (reply, s') →
      s'.world.foreign.Small (l.after command) → AccountedRun options s' (l.after command)

/-! ## Passes drop references only -/

namespace Arena

variable {a b : Arena} {l : Ledger} {os : List ObjectId} {o : ObjectId}

theorem stored_decrefAll (done : a.decrefAll os = .ok b) (o : ObjectId) :
    b.stored o = a.stored o := by
  refine decrefAll_induction (P := fun b => b.stored o = a.stored o) done rfl ?_
  intro p _ a₁ c same hc
  have kept := stored_setCell hc { c with refcount := c.refcount - 1 } o
  dsimp only at kept
  omega

/-- A release drops the references of its object. -/
theorem stored_release_le (done : a.release o = .ok b) (p : ObjectId) :
    b.stored p ≤ a.stored p := by
  obtain ⟨c, hc, -, a₁, uncounted, rfl⟩ := release_eq_ok.1 done
  have dropped := stored_setCell hc { c with released := true, bridge := none, references := [] } p
  have logged : Arena.stored { a₁ with released := a₁.released ++ [o] } p = a₁.stored p :=
    stored_congr rfl p
  rw [logged, stored_decrefAll uncounted]
  simp only [List.count_nil] at dropped
  omega

theorem stored_releaseAll_le (done : ForeignHeap.releaseAll a os = .ok b) (o : ObjectId) :
    b.stored o ≤ a.stored o :=
  foldlM_induction (P := fun b => b.stored o ≤ a.stored o) done (Nat.le_refl _)
    fun _ _ _ _ less step => Nat.le_trans (stored_release_le step o) less

theorem Small.mono (small : a.Small l) (fewer : ∀ o, b.stored o ≤ a.stored o) : b.Small l :=
  fun o => Nat.lt_of_le_of_lt (Nat.add_le_add_right (fewer o) _) (small o)

end Arena

namespace World

variable {w w' v : World Arena} {l : Ledger} {taken : Snapshot}

/-- No stage of a pass stores a reference. -/
theorem Sound.stored_le (sound : w.Sound l) (stages : Stages w w') (o : ObjectId) :
    w'.foreign.stored o ≤ w.foreign.stored o := by
  cases stages with
  | start _ started =>
    obtain ⟨v, _, _, _, prepared, -, -, -, rfl⟩ := startPass_eq_ok started
    obtain ⟨cells, -⟩ := Arena.cells_of_informed (prepares_of_prepareSets prepared).informed
    exact Nat.le_of_eq (Arena.stored_congr cells o)
  | mark _ marked =>
    obtain ⟨_, _, _, _, -, -, -, rfl⟩ := markStep_eq_ok marked
    exact Nat.le_refl _
  | finish marked finished =>
    obtain ⟨a, released, cells, -, done, -, -⟩ :=
      sound.unreferenced_of_finishPass marked finished
    exact Arena.stored_congr cells o ▸ Arena.stored_releaseAll_le done o
  | sweep _ swept =>
    obtain ⟨_, _, -, rfl⟩ := sweep_eq_ok swept
    exact Nat.le_refl _

/-- A step keeps a world sound, and its bound needs no further attention. -/
theorem Sound.stage (sound : w.Sound l) (stages : Stages w w') : w'.Sound l :=
  sound.step stages (sound.small.mono (sound.stored_le stages))

theorem Sound.host (sound : w.Sound l) (host : HostHeap) :
    ({ w with host } : World Arena).Sound l :=
  ⟨sound.orderly, sound.books, sound.small, sound.recorded⟩

theorem Sound.completes (sound : w.Sound l) (completes : Completes w w') : w'.Sound l := by
  induction completes with
  | last stepped => exact (sound.stage (stages_of_step stepped)).host _
  | more stepped _ _ ih => exact ih ((sound.stage (stages_of_step stepped)).host _)

theorem Sound.advance {target : Phase} {limit : Nat} {finished : List Bool} (sound : w.Sound l)
    (advanced : w.advance target limit = .ok (finished, w')) : w'.Sound l := by
  induction limit generalizing w finished with
  | zero =>
    obtain ⟨-, rfl⟩ := Prod.mk.inj (Except.ok.inj advanced)
    exact sound
  | succ limit ih =>
    unfold World.advance at advanced
    split at advanced
    · obtain ⟨-, rfl⟩ := Prod.mk.inj (Except.ok.inj advanced)
      exact sound
    · simp only [bind_eq_ok, pure_eq_ok, World.drain] at advanced
      obtain ⟨⟨_, w₁⟩, stepped, _, ⟨host, -, rfl⟩, ⟨_, w₂⟩, others, advanced⟩ := advanced
      obtain ⟨-, rfl⟩ := Prod.mk.inj advanced
      exact ih ((sound.stage (stages_of_step stepped)).host host) others

theorem Sound.trackAll (sound : w.Sound l) (os : List ObjectId) :
    ({ w with collector := (w.collector.trackAll os).2 } : World Arena).Sound l := by
  induction os generalizing w with
  | nil => exact sound
  | cons o os ih =>
    have tracked : (w.request (w.collector.track o)).Sound l := sound.request fun c tracked =>
      ⟨sound.orderly.track tracked, Collector.snapshot_of_track tracked⟩
    exact ih tracked

/-! ## Roots -/

/-- While the books are in order, no more edges lead to a record than its object counts
references. -/
theorem Sound.exists_collectRoots (sound : w.Sound l) (prepared : w.prepareSets = .ok v)
    (taken_eq : Snapshot.take (v.collector.sets.merged .new .inCollection) v.foreign v.host =
      .ok taken) :
    ∃ s, taken.collectRoots = .ok s := by
  obtain ⟨cells, -⟩ := Arena.cells_of_informed (prepares_of_prepareSets prepared).informed
  have books := sound.books.congr cells
  have nodup := (v.collector.sets.merged .new .inCollection).nodup_members .inCollection
  refine Snapshot.exists_collectRoots fun j r hr => ?_
  have describes := Snapshot.describes_of_take taken_eq (Array.mem_of_getElem? hr)
  have small := sound.small.congr cells
  calc taken.edgeTable.count j
    _ = v.foreign.storedIn _ r.object := count_edgeTable_of_take taken_eq hr
    _ ≤ v.foreign.stored r.object := Arena.storedIn_le nodup r.object
    _ ≤ r.external := by
      rw [describes.external, Snapshot.Record.intrinsic,
        books.accurate.stripBias_eq small describes.refcount]
      omega

theorem Sound.solvent_step (sound : w.Sound l) : Solvent w.step := by
  refine w.solvent_step fun v taken prepared taken_eq => ?_
  obtain ⟨s, collected⟩ := sound.exists_collectRoots prepared taken_eq
  rw [collected]
  exact solvent_ok s

theorem Sound.solvent_collect (sound : w.Sound l) : Solvent w.collect :=
  solvent_iff_stopsBy.2 <| stopsBy_collect (I := fun v => v.Sound l) sound (by simp)
    (fun _ sound => solvent_iff_stopsBy.1 sound.solvent_step)
    fun _ _ _ host sound stepped => (sound.stage (stages_of_step stepped)).host host

theorem Sound.solvent_advance (sound : w.Sound l) (target : Phase) (limit : Nat) :
    Solvent (w.advance target limit) := by
  induction limit generalizing w with
  | zero => exact solvent_ok _
  | succ limit ih =>
    unfold World.advance
    split
    · exact solvent_ok _
    · simp only [solvent_bind, sound.solvent_step, solvent_drain, true_and]
      rintro ⟨finished, w₁⟩ stepped _ drained
      simp only [World.drain, bind_eq_ok, pure_eq_ok] at drained
      obtain ⟨host, -, rfl⟩ := drained
      exact ⟨ih ((sound.stage (stages_of_step stepped)).host host), fun _ _ => solvent_pure _⟩

end World

/-! ## Accounted runs -/

namespace AccountedRun

variable {options : Options} {s s' : Session} {l : Ledger} {reply : Reply} {command : Command}

/-- Every command that keeps the books keeps a world sound. -/
theorem sound_of_exec (full : s.interface = .full) (sound : s.world.Sound l)
    (keeps : l.Keeps command) (done : s.exec command = .ok (reply, s'))
    (small : s'.world.foreign.Small (l.after command)) :
    s'.interface = .full ∧ s'.world.Sound (l.after command) := by
  by_cases admits : l.Admits command
  · exact CountedRun.sound_of_exec full sound admits done small
  -- what is left are the commands that stand for others
  · cases command with
    | foreign => exact absurd keeps admits
    | host => exact absurd keeps admits
    | collector action =>
      simp only [Session.exec, full, bind_eq_ok, pure_eq_ok] at done
      obtain ⟨⟨_, w⟩, applied, done⟩ := done
      obtain ⟨-, rfl⟩ := Prod.mk.inj done
      refine ⟨rfl, ?_⟩
      cases action with
      | trackAll os =>
        obtain ⟨-, rfl⟩ := Prod.mk.inj (Except.ok.inj applied)
        exact sound.trackAll os
      | collect =>
        simp only [CollectorAction.apply, bind_eq_ok, pure_eq_ok] at applied
        obtain ⟨⟨_, w₁⟩, collected, applied⟩ := applied
        obtain ⟨-, rfl⟩ := Prod.mk.inj applied
        exact sound.completes (World.completes_of_collect collected)
      | advance target limit =>
        simp only [CollectorAction.apply, bind_eq_ok, pure_eq_ok] at applied
        obtain ⟨⟨_, w₁⟩, advanced, applied⟩ := applied
        obtain ⟨-, rfl⟩ := Prod.mk.inj applied
        exact sound.advance advanced
      | _ => exact absurd trivial admits

theorem sound (run : AccountedRun options s l) : s.interface = .full ∧ s.world.Sound l := by
  induction run with
  | start => exact CountedRun.sound .start
  | exec _ keeps done small ih => exact sound_of_exec ih.1 ih.2 keeps done small

theorem solvent_exec (full : s.interface = .full) (sound : s.world.Sound l) (command : Command) :
    Solvent (s.exec command) := by
  cases command with
  | foreign m => simp [Session.exec, Arena.solvent_apply]
  | host x => simp [Session.exec, HostHeap.solvent_apply]
  | collector action =>
    simp only [Session.exec, full, solvent_bind, solvent_pure, implies_true, and_true]
    cases action with
    | step => simp [CollectorAction.apply, sound.solvent_step]
    | collect => simp [CollectorAction.apply, sound.solvent_collect]
    | advance target limit => simp [CollectorAction.apply, sound.solvent_advance]
    | _ => exact solvent_ok _

/-- After every command of a run that keeps the books each count is the bias, the references that
are stored and those that the program holds; and no command, whatever comes next, stops because an
object counts fewer references than are stored. -/
theorem accurate_solvent (run : AccountedRun options s l) :
    (∀ o c, s.world.foreign.cell o = .ok c →
      c.refcount = l.bias o + s.world.foreign.stored o + l.held.count o) ∧
    ∀ command o, s.exec command ≠ .error (.negativeExternal o) := by
  obtain ⟨full, sound⟩ := run.sound
  exact ⟨sound.books.accurate, solvent_exec full sound⟩

/-- A ring that nothing holds any more is released by a whole pass; what it referred to keeps the
count of the program's own hold. -/
theorem accurate_solvent_ring :
    let commands : List Command := [.foreign (.allocRing 2), .foreign (.alloc 1),
      .foreign (.addRef ⟨0⟩ ⟨2⟩), .foreign (.addRef ⟨1⟩ ⟨2⟩), .foreign (.incref ⟨2⟩),
      .host (.alloc 1), .foreign (.link ⟨0⟩ ⟨0⟩), .collector (.trackAll [⟨0⟩, ⟨1⟩, ⟨2⟩]),
      .collector .collect]
    let s := (Session.start .full {}).after commands
    s.world.foreign.released = [⟨0⟩, ⟨1⟩] ∧
      (∀ c, s.world.foreign.cell ⟨2⟩ = .ok c → c.refcount = 1) ∧
      ∀ o, s.exec (.collector .collect) ≠ .error (.negativeExternal o) := by
  intro commands s
  let l : Ledger := { held := [⟨2⟩], linked := [⟨0⟩] }
  have booked : (Session.start .full {}).runBooked Ledger.Keeps {} commands = some (s, l) := by
    decide +kernel
  have run : AccountedRun {} s l := Session.runBooked_induction .exec .start booked
  obtain ⟨accurate, solvent⟩ := accurate_solvent run
  refine ⟨by decide +kernel, fun c hc => ?_, solvent _⟩
  have stored : s.world.foreign.stored ⟨2⟩ = 0 := by decide +kernel
  rw [accurate ⟨2⟩ c hc, stored]
  rfl

end AccountedRun

end CycleCollector
