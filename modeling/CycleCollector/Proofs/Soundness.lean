import CycleCollector.Proofs.Garbage
import CycleCollector.Proofs.Mutations
import CycleCollector.Session.Basic
/-!
# Nothing is released that is still referred to

In a run that keeps the books the program and the collector take turns in any order: objects and
references come and go between the snapshot of a pass and its end. Still, whatever a step releases
is referred to by nothing but what it releases with it.

The books make the raw counts right at the end of the pass. The one thing that the verdict does not
look at again is the bridge of an object; but an object that was linked since the snapshot has a
bias on its count that the recorded count lacks, so it does not pass for unchanged.

## Main definitions

* `Ledger.Admits`, `Ledger.after`: the commands that keep the books, and what they enter.
* `Session.runBooked`: commands carried out and entered, as long as they keep the books.
* `CountedRun`: a run of such commands.
* `World.Sound`: what such a run keeps.

## Main statements

* `CountedRun.sound`: every counted run is sound.
* `CountedRun.unreferenced_of_step`: what a step releases.
-/

namespace CycleCollector

namespace Ledger

/-- The commands that keep the books: references are counted when they are stored and uncounted when
they are dropped, a hold is given up by who has it, and no object is linked twice. Commands that
stand for a list of others are left out. -/
def Admits (l : Ledger) : Command → Prop
  | .foreign (.addUncounted ..) | .foreign (.forgetRef ..) | .foreign (.setRefcount ..)
  | .foreign (.release ..) => False
  | .foreign (.decref o) => o ∈ l.held
  | .foreign (.link o _) => o ∉ l.linked
  | .collector (.trackAll ..) | .collector .collect | .collector (.advance ..) => False
  | _ => True

instance (l : Ledger) (command : Command) : Decidable (l.Admits command) := by
  unfold Admits
  split <;> infer_instance

def after (l : Ledger) : Command → Ledger
  | .foreign (.incref o) => { l with held := o :: l.held }
  | .foreign (.decref o) => { l with held := l.held.erase o }
  | .foreign (.link o _) => { l with linked := o :: l.linked }
  | _ => l

end Ledger

def Session.after (s : Session) (commands : List Command) : Session :=
  match s.run commands with
  | .ok (_, s') => s'
  | .error _ => s

namespace Session

variable (keeps : Ledger → Command → Prop) [∀ l command, Decidable (keeps l command)]

/-- Carries out commands and enters them. Nothing if one of them does not keep the books or is a
fault, or if so many references are stored that a count could look like a bias. -/
def runBooked : Session → Ledger → List Command → Option (Session × Ledger)
  | s, l, [] => some (s, l)
  | s, l, command :: commands =>
    match s.exec command with
    | .error _ => none
    | .ok (_, s') =>
      if keeps l command ∧ (s'.world.foreign.cells.toList.map fun c => c.references.length).sum +
          (l.after command).held.length < Refcount.hostBias then
        s'.runBooked (l.after command) commands
      else none

variable {keeps} {s s' : Session} {l l' : Ledger} {commands : List Command}

theorem runBooked_induction {P : Session → Ledger → Prop}
    (step : ∀ {s l command reply s'}, P s l → keeps l command → s.exec command = .ok (reply, s') →
      s'.world.foreign.Small (l.after command) → P s' (l.after command))
    (start : P s l) (booked : s.runBooked keeps l commands = some (s', l')) : P s' l' := by
  induction commands generalizing s l with
  | nil =>
    obtain ⟨rfl, rfl⟩ := Prod.mk.inj (Option.some.inj booked)
    exact start
  | cons command commands ih =>
    unfold runBooked at booked
    split at booked
    · simp at booked
    · next reply s₁ done =>
      split at booked
      · next kept => exact ih (step start kept.1 done (Arena.small_of_length kept.2)) booked
      · simp at booked

end Session

/-- A run of commands that keep the books, from empty heaps on, in which no object ever has as many
references as would look like a bias. -/
inductive CountedRun (options : Options) : Session → Ledger → Prop
  | start : CountedRun options (.start .full options) {}
  | exec {s s' : Session} {l : Ledger} {command : Command} {reply : Reply} :
      CountedRun options s l → l.Admits command → s.exec command = .ok (reply, s') →
      s'.world.foreign.Small (l.after command) → CountedRun options s' (l.after command)

namespace Arena

variable {a b : Arena} {l : Ledger} {m : Mutation} {reply : Reply} {r : Snapshot.Record}
  {o p : ObjectId}

theorem Books.apply (books : a.Books l []) (admits : l.Admits (.foreign m))
    (done : m.apply a = .ok (reply, b)) : b.Books (l.after (.foreign m)) [] := by
  cases m with
  | alloc count =>
    obtain ⟨-, rfl⟩ := Prod.mk.inj (Except.ok.inj done)
    exact books.alloc count
  | allocRing count =>
    simp only [Mutation.apply, bind_eq_ok, pure_eq_ok] at done
    obtain ⟨⟨os, _⟩, tied, done⟩ := done
    obtain ⟨-, rfl⟩ := Prod.mk.inj done
    exact books.allocRing tied
  | addRef source target =>
    obtain ⟨_, added, done⟩ := map_eq_ok.1 done
    exact (Prod.mk.inj done).2 ▸ books.addRef added
  | removeRef source target =>
    simp only [Mutation.apply, bind_eq_ok, pure_eq_ok] at done
    obtain ⟨⟨found, _⟩, removed, done⟩ := done
    obtain ⟨-, rfl⟩ := Prod.mk.inj done
    exact books.removeRef removed
  | retarget o slot target =>
    obtain ⟨_, pointed, done⟩ := map_eq_ok.1 done
    exact (Prod.mk.inj done).2 ▸ books.retarget pointed
  | incref o =>
    obtain ⟨_, counted, done⟩ := map_eq_ok.1 done
    exact (Prod.mk.inj done).2 ▸ books.hold counted
  | decref o =>
    obtain ⟨_, uncounted, done⟩ := map_eq_ok.1 done
    obtain rfl := (Prod.mk.inj done).2
    have held : o ∈ l.held := admits
    have reordered : a.Books { l with held := o :: l.held.erase o } [] := by
      obtain ⟨tally, stored, holds, linked⟩ := books
      refine ⟨fun p c hc => ?_, stored, fun p mem => holds p ?_, linked⟩
      · rw [tally p c hc, (List.perm_cons_erase held).count_eq]
        rfl
      · exact (List.perm_cons_erase held).mem_iff.2 mem
    exact Books.decref (l := { l with held := l.held.erase o }) reordered uncounted
  | link o h =>
    obtain ⟨_, linked, done⟩ := map_eq_ok.1 done
    exact (Prod.mk.inj done).2 ▸ books.link admits linked
  | setFinalizer o kind =>
    obtain ⟨_, set, done⟩ := map_eq_ok.1 done
    exact (Prod.mk.inj done).2 ▸ books.modify set (fun _ => rfl) fun _ => rfl
  | setAtomic o =>
    obtain ⟨_, set, done⟩ := map_eq_ok.1 done
    exact (Prod.mk.inj done).2 ▸ books.modify set (fun _ => rfl) fun _ => rfl
  | addUncounted | forgetRef | setRefcount | release => exact admits.elim

theorem bridge_of_link {h : HostRef} (ne : p ≠ o) (done : a.link o h = .ok b) :
    b.bridge p = a.bridge p := by
  simp only [link, bind_eq_ok] at done
  obtain ⟨a₁, bridged, biased⟩ := done
  obtain ⟨c, hc, rfl⟩ := modify_eq_ok.1 bridged
  obtain ⟨d, hd, -, rfl⟩ := raise_eq_ok.1 biased
  rw [bridge_setCell hd, if_neg ne, bridge_setCell hc, if_neg ne]

/-! ## Bridges since the snapshot -/

/-- The object of a record has its recorded bridge, unless it was linked since and its count is no
longer the recorded one. -/
structure Recorded (a : Arena) (l : Ledger) (r : Snapshot.Record) : Prop where
  unbiased : r.object ∉ l.linked → r.refcount < Refcount.hostBias
  bridge : a.bridge r.object = .ok r.bridge ∨
    r.object ∈ l.linked ∧ r.refcount < Refcount.hostBias

theorem Recorded.bridge_of_refcount (recorded : a.Recorded l r) (accurate : a.Accurate l)
    (count : a.refcount r.object = .ok r.refcount) : a.bridge r.object = .ok r.bridge := by
  rcases recorded.bridge with same | ⟨linked, less⟩
  · exact same
  · obtain ⟨c, hc, eq⟩ := refcount_eq_ok.1 count
    have tally := accurate r.object c hc
    rw [Ledger.bias, if_pos linked] at tally
    omega

theorem Recorded.apply (recorded : a.Recorded l r) (admits : l.Admits (.foreign m))
    (done : m.apply a = .ok (reply, b)) : b.Recorded (l.after (.foreign m)) r := by
  by_cases links : ∃ o h, m = .link o h
  · obtain ⟨o, h, rfl⟩ := links
    obtain ⟨_, linked, done⟩ := map_eq_ok.1 done
    obtain rfl := (Prod.mk.inj done).2
    have fresh : o ∉ l.linked := admits
    refine ⟨fun unlinked => recorded.unbiased fun old => unlinked (List.mem_cons_of_mem _ old), ?_⟩
    by_cases same : r.object = o
    · exact .inr ⟨same ▸ List.mem_cons_self, recorded.unbiased (same ▸ fresh)⟩
    · rw [bridge_of_link same linked]
      exact recorded.bridge.imp_right fun ⟨old, less⟩ => ⟨List.mem_cons_of_mem _ old, less⟩
  · have other : ∀ o h, m ≠ .link o h := fun o h same => links ⟨o, h, same⟩
    have linked : (l.after (.foreign m)).linked = l.linked := by
      cases m with
      | link o h => exact absurd rfl (other o h)
      | _ => rfl
    obtain ⟨unbiased, bridge⟩ := recorded
    rw [← linked] at unbiased bridge
    have kept : KeepsBridges a b :=
      keepsBridges_of_apply (fun o same => by subst same; exact admits) other done
    exact ⟨unbiased, bridge.imp_left (kept _ _)⟩

theorem Recorded.congr {r' : Snapshot.Record} (recorded : a.Recorded l r)
    (same : r'.frozen = r.frozen) (cells : b.cells = a.cells) : b.Recorded l r' := by
  have object : r'.object = r.object := (congrArg Snapshot.Record.object same :)
  have refcount : r'.refcount = r.refcount := (congrArg Snapshot.Record.refcount same :)
  have bridge : r'.bridge = r.bridge := (congrArg Snapshot.Record.bridge same :)
  have bridges := bridge_congr cells
  refine ⟨?_, ?_⟩
  · rw [object, refcount]
    exact recorded.unbiased
  · rw [bridges, object, refcount, bridge]
    exact recorded.bridge

end Arena

namespace World

variable {w w' : World Arena} {l : Ledger} {o : ObjectId} {c : Collector}

/-- What a counted run keeps: order in the collector, the books, and the bridges of the objects of
the snapshot. -/
structure Sound (w : World Arena) (l : Ledger) : Prop where
  orderly : w.collector.Orderly
  books : w.foreign.Books l []
  small : w.foreign.Small l
  recorded : ∀ s, w.collector.snapshot? = some s → ∀ r ∈ s.records, w.foreign.Recorded l r

theorem sound_of_startPass (sound : w.Sound l) (started : w.startPass = .ok w')
    (orderly : w'.collector.Orderly) (small : w'.foreign.Small l) : w'.Sound l := by
  obtain ⟨v, taken, snapshot, stats, prepared, htaken, collected, -, rfl⟩ := startPass_eq_ok started
  have prepares := prepares_of_prepareSets prepared
  obtain ⟨cells, -⟩ := Arena.cells_of_informed prepares.informed
  have books := sound.books.congr cells
  refine ⟨orderly, books, small, fun s same r mem => ?_⟩
  obtain rfl := Option.some.inj same
  obtain ⟨i, hi⟩ := Array.mem_iff_getElem?.1 mem
  obtain ⟨r₀, hr₀, frozen⟩ :=
    Snapshot.exists_of_frozen_eq (Snapshot.frozen_collectRoots collected).symm hi
  have describes := Snapshot.describes_of_take htaken (Array.mem_of_getElem? hr₀)
  have recorded : v.foreign.Recorded l r₀ := by
    refine ⟨fun unlinked => ?_, .inl describes.bridge⟩
    obtain ⟨c, hc, count⟩ := Arena.refcount_eq_ok.1 describes.refcount
    have tally := books.accurate r₀.object c hc
    have less := small r₀.object
    simp only [Ledger.bias, if_neg unlinked] at tally less
    omega
  exact recorded.congr frozen.symm rfl

theorem sound_of_markStep (sound : w.Sound l) (marked : w.markStep = .ok w')
    (orderly : w'.collector.Orderly) : w'.Sound l := by
  obtain ⟨snapshot, progress, m, stats, taken, ran, -, rfl⟩ := markStep_eq_ok marked
  refine ⟨orderly, sound.books, sound.small, fun s same r mem => ?_⟩
  obtain rfl := Option.some.inj same
  have frozen := Marking.run_induction (P := fun s _ => s.frozen = snapshot.frozen) ran rfl
    fun _ _ _ frozen visits => visits.frozen.trans frozen
  obtain ⟨i, hi⟩ := Array.mem_iff_getElem?.1 mem
  obtain ⟨r₀, hr₀, eq⟩ := Snapshot.exists_of_frozen_eq frozen.symm hi
  exact (sound.recorded snapshot taken r₀ (Array.mem_of_getElem? hr₀)).congr eq.symm rfl

/-- The end of a pass over a sound world releases objects that nothing holds but they themselves. -/
theorem Sound.unreferenced_of_finishPass (sound : w.Sound l)
    (marked : w.collector.phase = .marked) (finished : w.finishPass = .ok w') :
    ∃ a released, a.cells = w.foreign.cells ∧ a.released = w.foreign.released ∧
      ForeignHeap.releaseAll a released = .ok w'.foreign ∧ w'.host.objects = w.host.objects ∧
      ∀ o ∈ released, w.Unreferenced l released o :=
  World.unreferenced_of_finishPass sound.orderly marked sound.books.accurate sound.small
    (fun s taken r mem => (sound.recorded s taken r mem).bridge_of_refcount sound.books.accurate)
    finished

/-- A step keeps a world sound. -/
theorem Sound.step (sound : w.Sound l) (stages : Stages w w') (small : w'.foreign.Small l) :
    w'.Sound l := by
  have orderly := stages.orderly sound.orderly
  cases stages with
  | start _ started => exact sound_of_startPass sound started orderly small
  | mark _ marked => exact sound_of_markStep sound marked orderly
  | finish marked finished =>
    obtain ⟨a, released, cells, -, released, -, -⟩ :=
      sound.unreferenced_of_finishPass marked finished
    obtain ⟨none, -⟩ := snapshot_of_finishPass finished
    exact ⟨orderly, (sound.books.congr cells).releaseAll released, small, by simp [none]⟩
  | sweep _ swept =>
    obtain ⟨host, stats, -, rfl⟩ := sweep_eq_ok swept
    exact ⟨orderly, sound.books, sound.small, sound.recorded⟩

/-- A request keeps a world sound if it keeps order in the collector and leaves the snapshot
alone. -/
theorem Sound.request {answer : Except TrackError Collector} (sound : w.Sound l)
    (granted : ∀ c, answer = .ok c → c.Orderly ∧ c.snapshot? = w.collector.snapshot?) :
    (w.request answer).Sound l := by
  cases answer with
  | error => exact sound
  | ok c =>
    obtain ⟨orderly, same⟩ := granted c rfl
    exact ⟨orderly, sound.books, sound.small, fun s taken => sound.recorded s (same ▸ taken)⟩

end World

namespace Collector

variable {c c' : Collector} {o : ObjectId}

theorem snapshot_of_track (tracked : c.track o = .ok c') : c'.snapshot? = c.snapshot? := by
  unfold track at tracked
  split at tracked
  · exact Except.ok.inj tracked ▸ rfl
  · simp at tracked

theorem snapshot_of_untrack (untracked : c.untrack o = .ok c') : c'.snapshot? = c.snapshot? := by
  unfold untrack at untracked
  split at untracked
  · exact Except.ok.inj untracked ▸ rfl
  · simp at untracked

theorem snapshot_of_finalizersDone (done : c.finalizersDone o = .ok c') :
    c'.snapshot? = c.snapshot? := by
  unfold finalizersDone at done
  split at done
  · exact Except.ok.inj done ▸ rfl
  · simp at done
  · simp at done

@[simp] theorem snapshot_requestSweep (c : Collector) :
    c.requestSweep.snapshot? = c.snapshot? := by
  unfold requestSweep
  split <;> rfl

end Collector

/-! ## Counted runs -/

namespace CountedRun

variable {options : Options} {s s' : Session} {l : Ledger} {reply : Reply} {command : Command}

theorem sound_of_exec (full : s.interface = .full) (sound : s.world.Sound l)
    (admits : l.Admits command) (done : s.exec command = .ok (reply, s'))
    (small : s'.world.foreign.Small (l.after command)) :
    s'.interface = .full ∧ s'.world.Sound (l.after command) := by
  cases command with
  | foreign m =>
    simp only [Session.exec, bind_eq_ok, pure_eq_ok] at done
    obtain ⟨⟨_, a⟩, applied, done⟩ := done
    obtain ⟨-, rfl⟩ := Prod.mk.inj done
    refine ⟨full, sound.orderly, sound.books.apply admits applied, small,
      fun snapshot taken r mem => ?_⟩
    exact (sound.recorded snapshot taken r mem).apply admits applied
  | host x =>
    simp only [Session.exec, bind_eq_ok, pure_eq_ok] at done
    obtain ⟨⟨_, g⟩, applied, done⟩ := done
    obtain ⟨-, rfl⟩ := Prod.mk.inj done
    exact ⟨full, sound.orderly, sound.books, sound.small, sound.recorded⟩
  | collector action =>
    simp only [Session.exec, full, bind_eq_ok, pure_eq_ok] at done
    obtain ⟨⟨_, w⟩, applied, done⟩ := done
    obtain ⟨-, rfl⟩ := Prod.mk.inj done
    refine ⟨rfl, ?_⟩
    have orderly := sound.orderly
    cases action with
    | track o =>
      obtain ⟨-, rfl⟩ := Prod.mk.inj (Except.ok.inj applied)
      exact sound.request fun c tracked =>
        ⟨orderly.track tracked, Collector.snapshot_of_track tracked⟩
    | untrack o =>
      obtain ⟨-, rfl⟩ := Prod.mk.inj (Except.ok.inj applied)
      exact sound.request fun c untracked =>
        ⟨orderly.untrack untracked, Collector.snapshot_of_untrack untracked⟩
    | finalizersDone o =>
      obtain ⟨-, rfl⟩ := Prod.mk.inj (Except.ok.inj applied)
      exact sound.request fun c done =>
        ⟨orderly.finalizersDone done, Collector.snapshot_of_finalizersDone done⟩
    | setCycleDetection on =>
      obtain ⟨-, rfl⟩ := Prod.mk.inj (Except.ok.inj applied)
      exact ⟨orderly.setCycleDetection on, sound.books, sound.small, sound.recorded⟩
    | requestSweep =>
      obtain ⟨-, rfl⟩ := Prod.mk.inj (Except.ok.inj applied)
      refine ⟨orderly.requestSweep, sound.books, sound.small, fun s taken => ?_⟩
      exact sound.recorded s (by simpa using taken)
    | step =>
      simp only [CollectorAction.apply, bind_eq_ok, pure_eq_ok] at applied
      obtain ⟨⟨finished, _⟩, stepped, applied⟩ := applied
      obtain ⟨-, rfl⟩ := Prod.mk.inj applied
      exact sound.step (World.stages_of_step stepped) small
    | trackAll | collect | advance => exact admits.elim

theorem sound (run : CountedRun options s l) : s.interface = .full ∧ s.world.Sound l := by
  induction run with
  | start =>
    refine ⟨rfl, .start options, ⟨?_, ?_, by simp, by simp⟩, ?_, by simp [Session.start]⟩
    · intro o c hc
      simp [Session.start, Arena.cell_eq_ok] at hc
    · intro o c hc
      simp [Session.start, Arena.cell_eq_ok] at hc
    · intro o
      simp [Session.start, Arena.stored]
      decide
  | exec _ admits done small ih => exact sound_of_exec ih.1 ih.2 admits done small

/-- Whatever a step releases is referred to only by what it releases with it: just before the
releases, all references to a released object are stored in released objects, the program holds none
of them, and the host heap reaches none of their bridges. -/
theorem unreferenced_of_step (run : CountedRun options s l)
    (stepped : s.exec (.collector .step) = .ok (reply, s')) :
    ∃ a released, a.cells = s.world.foreign.cells ∧
      ForeignHeap.releaseAll a released = .ok s'.world.foreign ∧
      s'.world.foreign.released = s.world.foreign.released ++ released ∧
      ∀ o ∈ released, (∀ p c, a.cell p = .ok c → o ∈ c.references → p ∈ released) ∧ o ∉ l.held ∧
        ∀ h, a.bridge o = .ok (some h) → s'.world.host.isReachable h = .ok false := by
  obtain ⟨full, sound⟩ := run.sound
  simp only [Session.exec, full, CollectorAction.apply, bind_eq_ok, pure_eq_ok] at stepped
  obtain ⟨⟨_, w⟩, ⟨⟨finished, _⟩, stepped, applied⟩, done⟩ := stepped
  obtain ⟨-, rfl⟩ := Prod.mk.inj applied
  obtain ⟨-, rfl⟩ := Prod.mk.inj done
  cases World.stages_of_step stepped with
  | start _ started =>
    obtain ⟨v, _, _, _, prepared, -, -, -, rfl⟩ := World.startPass_eq_ok started
    have prepares := World.prepares_of_prepareSets prepared
    obtain ⟨cells, log⟩ := Arena.cells_of_informed prepares.informed
    exact ⟨_, [], cells, rfl, by simp [log], by simp⟩
  | mark _ marked =>
    obtain ⟨_, _, _, _, -, -, -, rfl⟩ := World.markStep_eq_ok marked
    exact ⟨_, [], rfl, rfl, by simp, by simp⟩
  | sweep _ swept =>
    obtain ⟨_, _, -, rfl⟩ := World.sweep_eq_ok swept
    exact ⟨_, [], rfl, rfl, by simp, by simp⟩
  | finish marked finished =>
    obtain ⟨a, released, cells, log, done, host, unreferenced⟩ :=
      sound.unreferenced_of_finishPass marked finished
    refine ⟨a, released, cells, done, ?_, fun o mem => ?_⟩
    · rw [Arena.released_of_releaseAll done, log]
    · obtain ⟨stored, held, bridge⟩ := unreferenced o mem
      refine ⟨fun p c hc => stored p c ?_, held, fun h bridged => ?_⟩
      · simpa only [Arena.cell, cells] using hc
      · have unreached := bridge h (by simpa only [Arena.bridge, Arena.cell, cells] using bridged)
        simpa only [HostHeap.isReachable, HostHeap.object, host] using unreached

/-- A ring with a bridge is released although it refers to an object that the program holds, and
although that object gains and loses a reference while the pass is under way. Between the snapshot
and the verdict the program also takes a hold on a new object. -/
theorem unreferenced_of_step_ring :
    let commands : List Command := [.foreign (.allocRing 2), .foreign (.alloc 1),
      .foreign (.addRef ⟨0⟩ ⟨2⟩), .foreign (.incref ⟨2⟩), .host (.alloc 1),
      .foreign (.link ⟨0⟩ ⟨0⟩), .collector (.track ⟨0⟩), .collector (.track ⟨1⟩),
      .collector (.track ⟨2⟩), .collector .step,
      .foreign (.alloc 1), .foreign (.addRef ⟨2⟩ ⟨3⟩), .foreign (.incref ⟨3⟩), .collector .step,
      .foreign (.removeRef ⟨2⟩ ⟨3⟩)]
    let s := (Session.start .full {}).after commands
    let s' := s.after [.collector .step]
    let ring : List ObjectId := [⟨0⟩, ⟨1⟩]
    let l : Ledger := { held := [⟨3⟩, ⟨2⟩], linked := [⟨0⟩] }
    ∃ a, ForeignHeap.releaseAll a ring = .ok s'.world.foreign ∧
      (∀ o ∈ ring, (∀ p c, a.cell p = .ok c → o ∈ c.references → p ∈ ring) ∧ o ∉ l.held) ∧
      a.bridge ⟨0⟩ = .ok (some ⟨0⟩) ∧ s'.world.host.isReachable ⟨0⟩ = .ok false := by
  intro commands s s' ring l
  have booked : (Session.start .full {}).runBooked Ledger.Admits {} commands = some (s, l) := by
    decide +kernel
  have run : CountedRun {} s l := Session.runBooked_induction .exec .start booked
  have stepped : s.exec (.collector .step) = .ok (.stepped [true], s') := by decide +kernel
  obtain ⟨a, released, cells, done, log, unreferenced⟩ := unreferenced_of_step run stepped
  obtain rfl : released = ring := by
    have before : s.world.foreign.released = [] := by decide +kernel
    have after : s'.world.foreign.released = ring := by decide +kernel
    rw [after, before] at log
    exact log.symm
  have bridge : a.bridge ⟨0⟩ = .ok (some ⟨0⟩) := by
    rw [Arena.bridge_congr cells]
    decide +kernel
  obtain ⟨-, -, unreached⟩ := unreferenced ⟨0⟩ (by simp [ring])
  exact ⟨a, done, fun o mem => ⟨(unreferenced o mem).1, (unreferenced o mem).2.1⟩, bridge,
    unreached ⟨0⟩ bridge⟩

end CountedRun

end CycleCollector
