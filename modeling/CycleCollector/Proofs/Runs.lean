import CycleCollector.Proofs.Disposal
import CycleCollector.Proofs.FixedPoint
import CycleCollector.Proofs.Verdict
import CycleCollector.Session.Command
/-!
# Runs of a world

In a run the collector is stepped and told about objects in any order, and between any two of these
actions the program may leave both heaps in another state. The collector keeps its own books through
all of it: nothing stays staged, and in a pass the objects in collection are objects of the
snapshot, all of them unless one was untracked.

## Main definitions

* `World.Action`, `World.act`, `World.run`: what happens in a world.
* `World.Stages`, `World.Moves`: what a step can do, and what an action can do.
* `World.Departs`: how containers leave before a pass.
* `Collector.Records`, `Collector.Orderly`: what every run keeps.

## Main statements

* `World.moves_of_act`: an action is one of the moves.
* `World.orderly_of_run`: every run keeps a collector orderly.
-/

namespace CycleCollector

namespace World

variable {ρ : Type}

inductive Action (ρ : Type) where
  /-- The program leaves the foreign heap in this state. -/
  | foreign (foreign : ρ)
  /-- The program, or the host heap by itself, leaves the host heap in this state. -/
  | host (host : HostHeap)
  | track (o : ObjectId)
  | untrack (o : ObjectId)
  | finalizersDone (o : ObjectId)
  | setCycleDetection (on : Bool)
  | requestSweep
  | step
deriving DecidableEq, Repr

/-- The world after a request, which leaves it alone if it is refused. -/
def request (w : World ρ) (answer : Except TrackError Collector) : World ρ :=
  (w.resolve answer).2

variable [ForeignHeap ρ] {w w' : World ρ} {c : Collector} {o : ObjectId}

def act (w : World ρ) : Action ρ → Except Fault (World ρ)
  | .foreign foreign => .ok { w with foreign }
  | .host host => .ok { w with host }
  | .track o => .ok (w.request (w.collector.track o))
  | .untrack o => .ok (w.request (w.collector.untrack o))
  | .finalizersDone o => .ok (w.request (w.collector.finalizersDone o))
  | .setCycleDetection on => .ok { w with collector := w.collector.setCycleDetection on }
  | .requestSweep => .ok { w with collector := w.collector.requestSweep }
  | .step => Prod.snd <$> w.step

def run (w : World ρ) (actions : List (Action ρ)) : Except Fault (World ρ) := actions.foldlM act w

theorem run_cons {a : Action ρ} {actions : List (Action ρ)} :
    w.run (a :: actions) = w.act a >>= fun u => u.run actions :=
  List.foldlM_cons

theorem run_append {earlier later : List (Action ρ)} :
    w.run (earlier ++ later) = w.run earlier >>= fun u => u.run later :=
  List.foldlM_append ..

def after (w : World ρ) (actions : List (Action ρ)) : World ρ :=
  match w.run actions with
  | .ok w' => w'
  | .error _ => w

theorem after_eq {actions : List (Action ρ)} (ran : w.run actions = .ok w') :
    w.after actions = w' := by
  rw [after, ran]

/-! ## Moves -/

/-- What a step can do: a stage of a pass, or a sweep. -/
inductive Stages (w : World ρ) : World ρ → Prop
  | start {w' : World ρ} : w.collector.phase = .idle → w.startPass = .ok w' → Stages w w'
  | mark {w' : World ρ} : w.collector.phase = .marking → w.markStep = .ok w' → Stages w w'
  | finish {w' : World ρ} : w.collector.phase = .marked → w.finishPass = .ok w' → Stages w w'
  | sweep {w' : World ρ} : w.collector.phase.inPass = false → w.sweep = .ok w' → Stages w w'

/-- What one action can do: a change of the heaps, a request that is granted, or a step. -/
inductive Moves (w : World ρ) : World ρ → Prop
  | heaps (foreign : ρ) (host : HostHeap) : Moves w { w with foreign, host }
  | track {c : Collector} (o : ObjectId) :
      w.collector.track o = .ok c → Moves w { w with collector := c }
  | untrack {c : Collector} (o : ObjectId) :
      w.collector.untrack o = .ok c → Moves w { w with collector := c }
  | finalizersDone {c : Collector} (o : ObjectId) :
      w.collector.finalizersDone o = .ok c → Moves w { w with collector := c }
  | setCycleDetection (on : Bool) :
      Moves w { w with collector := w.collector.setCycleDetection on }
  | requestSweep : Moves w { w with collector := w.collector.requestSweep }
  | step {w' : World ρ} : Stages w w' → Moves w w'

theorem stages_of_step {finished : Bool} (stepped : w.step = .ok (finished, w')) : Stages w w' := by
  cases step_eq_ok.1 stepped with
  | start idle _ started => exact .start idle started
  | mark marking marked => exact .mark marking marked
  | finish marked ended => exact .finish marked ended
  | sweep due swept =>
    refine .sweep ?_ swept
    rcases due with due | ⟨idle, -⟩
    · rw [due]
      rfl
    · rw [idle]
      rfl

omit [ForeignHeap ρ] in
@[elab_as_elim]
theorem request_induction {answer : Except TrackError Collector} {motive : World ρ → Prop}
    (refused : motive w) (granted : ∀ c, answer = .ok c → motive { w with collector := c }) :
    motive (w.request answer) := by
  cases answer with
  | error => exact refused
  | ok c => exact granted c rfl

theorem moves_of_request {answer : Except TrackError Collector}
    (granted : ∀ c, answer = .ok c → Moves w { w with collector := c }) :
    Moves w (w.request answer) :=
  request_induction (.heaps w.foreign w.host) granted

theorem moves_of_act {a : Action ρ} (acted : w.act a = .ok w') : Moves w w' := by
  cases a with
  | foreign foreign => exact Except.ok.inj acted ▸ .heaps foreign w.host
  | host host => exact Except.ok.inj acted ▸ .heaps w.foreign host
  | track o => exact Except.ok.inj acted ▸ moves_of_request fun _ => .track o
  | untrack o => exact Except.ok.inj acted ▸ moves_of_request fun _ => .untrack o
  | finalizersDone o => exact Except.ok.inj acted ▸ moves_of_request fun _ => .finalizersDone o
  | setCycleDetection on => exact Except.ok.inj acted ▸ .setCycleDetection on
  | requestSweep => exact Except.ok.inj acted ▸ .requestSweep
  | step =>
    obtain ⟨⟨finished, _⟩, stepped, rfl⟩ := map_eq_ok.1 acted
    exact .step (stages_of_step stepped)

/-! ## The stages of a pass -/

/-- Before a pass only new objects leave, and the foreign heap learns of it. -/
structure Prepares (w w' : World ρ) : Prop where
  host : w'.host = w.host
  informed : ForeignHeap.Informed w.foreign w'.foreign
  options : w'.collector.options = w.collector.options
  taken : w'.collector.stats.snapshotsTaken = w.collector.stats.snapshotsTaken
  new : ∀ o ∈ w'.collector.sets.members .new, o ∈ w.collector.sets.members .new
  others : ∀ r, r ≠ .new → w'.collector.sets.members r = w.collector.sets.members r

theorem Prepares.refl (w : World ρ) : Prepares w w where
  host := rfl
  informed := .refl
  options := rfl
  taken := rfl
  new _ mem := mem
  others _ _ := rfl

/-- Containers leave `w` one after the other until `v` is left; `gone` are those that have left, the
last one first. Each is new and has no counterpart, and when its turn comes it refers to no object
that is still tracked. -/
inductive Departs (w : World ρ) : List ObjectId → World ρ → Prop
  | stay : Departs w [] w
  | leave {gone os : List ObjectId} {v : World ρ} {o : ObjectId} : Departs w gone v →
      o ∈ w.collector.sets.members .new → v.collector.sets.contains o = true →
      ForeignHeap.bridge w.foreign o = .ok none → ForeignHeap.references v.foreign o = .ok os →
      (∀ p ∈ os, v.collector.sets.contains p = false) →
      Departs w (o :: gone) { v with
        collector := { v.collector with
          sets := v.collector.sets.erase o
          stats := { v.collector.stats with
            untrackedContainers := v.collector.stats.untrackedContainers + 1 } }
        foreign := ForeignHeap.noteUntracked v.foreign o }

/-- Each container is still tracked when its turn comes, as none comes twice. -/
theorem Departs.of_foldlM {gone os : List ObjectId} {v : World ρ} (departs : Departs w gone v)
    (nodup : os.Nodup)
    (may : ∀ o ∈ os, o ∈ w.collector.sets.members .new ∧ ForeignHeap.bridge w.foreign o = .ok none)
    (tracked : ∀ o ∈ os, v.collector.sets.contains o = true)
    (done : os.foldlM untrackContainer v = .ok w') : ∃ gone, Departs w gone w' := by
  induction os generalizing v gone with
  | nil => exact ⟨gone, pure_eq_ok.1 done ▸ departs⟩
  | cons o os ih =>
    rw [List.foldlM_cons, bind_eq_ok] at done
    obtain ⟨u, step, others⟩ := done
    obtain ⟨once, nodup⟩ := List.nodup_cons.1 nodup
    simp only [List.forall_mem_cons] at may tracked
    simp only [untrackContainer, bind_eq_ok] at step
    obtain ⟨references, refs, step⟩ := step
    split at step
    · obtain rfl := pure_eq_ok.1 step
      exact ih departs nodup may.2 tracked.2 others
    · next apart =>
      obtain rfl := pure_eq_ok.1 step
      have apart : ∀ p ∈ references, v.collector.sets.contains p = false := by simpa using apart
      refine ih (departs.leave may.1.1 tracked.1 may.1.2 refs apart) nodup may.2 (fun p mem => ?_)
        others
      have ne : p ≠ o := fun same => once (same ▸ mem)
      obtain ⟨r, role⟩ := TrackedSets.contains_iff_exists_mem.1 (tracked.2 p mem)
      exact TrackedSets.contains_iff_exists_mem.2 ⟨r, by simp [role, ne]⟩

/-- When the sets are prepared, some containers leave. -/
theorem departs_of_prepareSets (prepared : w.prepareSets = .ok w') : ∃ gone, Departs w gone w' := by
  unfold prepareSets at prepared
  split at prepared
  · simp only [untrackContainers, bind_eq_ok] at prepared
    obtain ⟨candidates, selected, prepared⟩ := prepared
    have may : ∀ o ∈ candidates, o ∈ w.collector.sets.members .new ∧
        ForeignHeap.bridge w.foreign o = .ok none := by
      intro o mem
      obtain ⟨new, may⟩ := (ForeignHeap.mem_select selected).1 mem
      obtain ⟨atomic, -, may⟩ := bind_eq_ok.1 may
      split at may
      · obtain ⟨bridge, answer, none⟩ := bind_eq_ok.1 may
        exact ⟨new, by rwa [← Option.isNone_iff_eq_none.1 (pure_eq_ok.1 none)]⟩
      · simp [pure_eq_ok] at may
    refine Departs.of_foldlM .stay ?_ may (fun o mem => ?_) prepared
    · rw [(ForeignHeap.select_eq_ok.1 selected).2]
      exact (TrackedSets.nodup_members ..).filter _
    · exact TrackedSets.contains_of_mem_members (may o mem).1
  · exact ⟨[], Except.ok.inj prepared ▸ .stay⟩

/-- What holds at first and is kept when a new container leaves, holds when the sets are
prepared. -/
theorem prepareSets_induction {P : World ρ → Prop} (prepared : w.prepareSets = .ok w') (start : P w)
    (leave : ∀ o ∈ w.collector.sets.members .new, ∀ v, v.collector.sets.contains o = true → P v →
      P { v with
        collector := { v.collector with
          sets := v.collector.sets.erase o
          stats := { v.collector.stats with
            untrackedContainers := v.collector.stats.untrackedContainers + 1 } }
        foreign := ForeignHeap.noteUntracked v.foreign o }) : P w' := by
  obtain ⟨gone, departs⟩ := departs_of_prepareSets prepared
  clear prepared
  induction departs with
  | stay => exact start
  | leave _ new tracked _ _ _ ih => exact leave _ new _ tracked ih

theorem Prepares.contains (prepares : Prepares w w') (o : ObjectId)
    (tracked : w'.collector.sets.contains o = true) : w.collector.sets.contains o = true := by
  obtain ⟨r, mem⟩ := TrackedSets.contains_iff_exists_mem.1 tracked
  by_cases new : r = .new
  · exact TrackedSets.contains_of_mem_members (prepares.new o (new ▸ mem))
  · exact TrackedSets.contains_of_mem_members (prepares.others r new ▸ mem)

theorem prepares_of_prepareSets (prepared : w.prepareSets = .ok w') : Prepares w w' := by
  refine prepareSets_induction prepared (.refl w) fun o new v _ prepares => ?_
  refine ⟨prepares.host, prepares.informed.untracked o, prepares.options, prepares.taken, ?_, ?_⟩
  · intro p mem
    rw [TrackedSets.members_erase, List.mem_filter] at mem
    exact prepares.new p mem.1
  · intro r ne
    rw [TrackedSets.members_erase, prepares.others r ne, List.filter_eq_self]
    intro p mem
    have apart : p ≠ o := by
      rintro rfl
      have role := TrackedSets.mem_members.1 new
      rw [TrackedSets.mem_members.1 mem] at role
      exact ne (Option.some.inj role)
    simpa using apart

/-- A pass starts with a snapshot of all objects in collection, its roots collected. -/
theorem startPass_eq_ok (started : w.startPass = .ok w') : ∃ v taken snapshot stats,
    w.prepareSets = .ok v ∧
      Snapshot.take (v.collector.sets.merged .new .inCollection) v.foreign v.host = .ok taken ∧
      taken.collectRoots = .ok snapshot ∧
      stats.snapshotsTaken = w.collector.stats.snapshotsTaken + 1 ∧
      w' = { v with collector := { v.collector with
        sets := v.collector.sets.merged .new .inCollection
        snapshot? := some snapshot
        invalidated := false
        phase := .marking
        stats } } := by
  unfold startPass at started
  split at started
  · simp at started
  · simp only [bind_eq_ok, pure_eq_ok] at started
    obtain ⟨v, prepared, taken, htaken, snapshot, collected, rfl⟩ := started
    exact ⟨v, taken, snapshot, _, prepared, htaken, collected,
      congrArg (· + 1) (prepares_of_prepareSets prepared).taken, rfl⟩

omit [ForeignHeap ρ] in
theorem markStep_eq_ok (marked : w.markStep = .ok w') : ∃ snapshot progress m stats,
    w.collector.snapshot? = some snapshot ∧
      Marking.run w.collector.options.eagerHostTrace w.collector.options.scansPerStep
        { snapshot, host := w.host } = .ok (progress, m) ∧
      stats.snapshotsTaken = w.collector.stats.snapshotsTaken ∧
      w' = { w with
        host := m.host
        collector := { w.collector with
          snapshot? := some m.snapshot
          phase := if progress = .fixedPoint ∧ m.host.isDrained then .marked else .marking
          stats } } := by
  unfold markStep at marked
  split at marked
  · simp at marked
  · next snapshot taken =>
    simp only [bind_eq_ok, pure_eq_ok] at marked
    obtain ⟨⟨progress, m⟩, ran, rfl⟩ := marked
    refine ⟨snapshot, progress, m, _, taken, ran, ?_, rfl⟩
    rfl

/-- A pass ends with a verdict, by which the staged objects are disposed of. -/
theorem finishPass_eq_ok (finished : w.finishPass = .ok w') :
    ∃ snapshot verdict sets outcome v, w.collector.snapshot? = some snapshot ∧
      snapshot.judge w.collector.sets w.foreign w.host w.collector.invalidated =
        .ok (verdict, sets) ∧
      (w.discardSnapshot sets).disposeStaged = .ok (outcome, v) ∧
      w' = v.endPass (if verdict = .consistent then outcome else .resurrected) := by
  unfold finishPass at finished
  split at finished
  · simp at finished
  · next snapshot taken =>
    simp only [bind_eq_ok, pure_eq_ok] at finished
    obtain ⟨⟨verdict, sets⟩, judged, ⟨outcome, v⟩, disposed, rfl⟩ := finished
    exact ⟨snapshot, verdict, sets, outcome, v, taken, judged, disposed, rfl⟩

theorem finishPass_of_judge (taken : w.collector.snapshot? = some s)
    (judged : s.judge w.collector.sets w.foreign w.host w.collector.invalidated =
      .ok (verdict, sets))
    (disposed : (w.discardSnapshot sets).disposeStaged = .ok (outcome, v)) :
    w.finishPass = .ok (v.endPass (if verdict = .consistent then outcome else .resurrected)) := by
  simp only [finishPass, taken, judged, disposed, bind, Except.bind]
  rfl

theorem sweep_eq_ok (swept : w.sweep = .ok w') : ∃ host stats,
    stats.snapshotsTaken = w.collector.stats.snapshotsTaken ∧
      w' = { w with
        host
        collector := { w.collector with phase := .idle, lastOutcome := some .swept, stats } } := by
  simp only [sweep, bind_eq_ok, pure_eq_ok] at swept
  obtain ⟨v, marked, rfl⟩ := swept
  simp only [markBorder, bind_eq_ok, pure_eq_ok] at marked
  obtain ⟨_, -, _, -, _, -, rfl⟩ := marked
  refine ⟨_, _, ?_, rfl⟩
  rfl

end World

/-! ## Granted requests -/

namespace Collector

variable {c c' : Collector} {o : ObjectId}

theorem track_eq_ok : c.track o = .ok c' ↔
    ∃ sets, c.sets.insert? o .new = some sets ∧ c' = { c with sets } := by
  unfold track
  cases c.sets.insert? o .new <;> simp [eq_comm]

theorem untrack_eq_ok : c.untrack o = .ok c' ↔ c.sets.contains o = true ∧ c' = { c with
    sets := c.sets.erase o
    invalidated := c.invalidated || c.snapshot?.any (·.contains o) } := by
  unfold untrack
  split
  · next tracked => simp only [Except.ok.injEq, tracked, true_and, eq_comm]
  · next untracked => simp [untracked]

theorem finalizersDone_eq_ok : c.finalizersDone o = .ok c' ↔
    o ∈ c.sets.members .isolated ∧
      c' = { c with sets := (c.sets.moved o .new).withGcRefs o 1 } := by
  rw [TrackedSets.mem_members]
  unfold finalizersDone
  cases c.sets.roleOf o with
  | none => simp
  | some r => cases r <;> simp [eq_comm]

end Collector

/-! ## What every run keeps -/

namespace Collector

structure Records (c : Collector) (s : Snapshot) : Prop where
  wellformed : s.Wellformed
  balanced : s.Balanced
  collected : ∀ o ∈ c.sets.members .inCollection, o ∈ s.objects
  complete : c.invalidated = false → ∀ o ∈ s.objects, o ∈ c.sets.members .inCollection
  quiet : c.phase = .marked → ∀ r ∈ s.records, r.processed = true ∨ r.external = 0

structure Orderly (c : Collector) : Prop where
  staged : c.sets.members .staged = []
  inPass : c.snapshot?.isSome = c.phase.inPass
  records : ∀ s, c.snapshot? = some s → c.Records s

variable {c c' : Collector} {s : Snapshot} {o : ObjectId}

theorem Orderly.start (options : Options) : Orderly { options } where
  staged := rfl
  inPass := rfl
  records _ taken := nomatch taken

/-- In a pass that is marked, the dead records are those not found alive. -/
theorem Records.dead_iff (records : c.Records s) (marked : c.phase = .marked) {r : Snapshot.Record}
    (mem : r ∈ s.records) : r.external = 0 ↔ r.processed = false := by
  have alive := records.balanced.alive r mem
  have quiet := records.quiet marked r mem
  cases h : r.processed with
  | true =>
    have := alive h
    simp
    omega
  | false => simpa [h] using quiet

/-- Unless it is invalidated, a pass examines every record of its snapshot. -/
theorem Records.recordOf_of_mem (records : c.Records s) (valid : c.invalidated = false)
    {r : Snapshot.Record} (mem : r ∈ s.records) :
    r.object ∈ c.sets.members .inCollection ∧ s.recordOf r.object = some r := by
  refine ⟨records.complete valid _ ?_, ?_⟩
  · exact List.mem_map_of_mem (Array.mem_toList_iff.2 mem)
  · exact (Snapshot.recordOf_eq_some records.wellformed.nodup).2 ⟨mem, rfl⟩

/-- The snapshot is not concerned when objects outside it and outside the collection change. -/
theorem Orderly.congr (orderly : c.Orderly) (staged : c'.sets.members .staged = [])
    (phase : c'.phase.inPass = c.phase.inPass ∧ (c'.phase = .marked → c.phase = .marked))
    (snapshot : c'.snapshot? = c.snapshot?)
    (collected : ∀ o ∈ c'.sets.members .inCollection, o ∈ c.sets.members .inCollection)
    (complete : ∀ s, c.snapshot? = some s → c'.invalidated = false → c.invalidated = false ∧
      ∀ o ∈ s.objects, o ∈ c.sets.members .inCollection → o ∈ c'.sets.members .inCollection) :
    c'.Orderly where
  staged := staged
  inPass := by rw [snapshot, phase.1, orderly.inPass]
  records s taken := by
    rw [snapshot] at taken
    have records := orderly.records s taken
    refine ⟨records.wellformed, records.balanced, ?_, ?_, ?_⟩
    · exact fun o mem => records.collected o (collected o mem)
    · intro valid o mem
      obtain ⟨was_valid, stays⟩ := complete s taken valid
      exact stays o mem (records.complete was_valid o mem)
    · exact fun marked => records.quiet (phase.2 marked)

theorem Orderly.track (orderly : c.Orderly) (tracked : c.track o = .ok c') : c'.Orderly := by
  obtain ⟨sets, inserted, rfl⟩ := track_eq_ok.1 tracked
  have members := TrackedSets.members_insert? inserted
  refine orderly.congr ?_ ⟨rfl, id⟩ rfl ?_ fun s _ valid => ⟨valid, fun o _ mem => ?_⟩
  · simp [members, orderly.staged]
  · simp [members]
  · simpa [members] using mem

theorem Orderly.untrack (orderly : c.Orderly) (untracked : c.untrack o = .ok c') : c'.Orderly := by
  obtain ⟨-, rfl⟩ := untrack_eq_ok.1 untracked
  refine orderly.congr ?_ ⟨rfl, id⟩ rfl ?_ fun s taken valid => ?_
  · simp [orderly.staged]
  · simp +contextual
  · simp only [taken, Option.any_some, Bool.or_eq_false_iff] at valid
    refine ⟨valid.1, fun p recorded mem => ?_⟩
    have other : p ≠ o := by
      rintro rfl
      rw [Snapshot.contains_iff.2 recorded] at valid
      exact absurd valid.2 (by decide)
    simp [mem, other]

theorem Orderly.finalizersDone (orderly : c.Orderly) (done : c.finalizersDone o = .ok c') :
    c'.Orderly := by
  obtain ⟨isolated, rfl⟩ := finalizersDone_eq_ok.1 done
  have members := TrackedSets.members_moved (TrackedSets.contains_of_mem_members isolated) .new
  have apart : o ∉ c.sets.members .inCollection := by
    rw [TrackedSets.mem_members, TrackedSets.mem_members.1 isolated]
    simp
  refine orderly.congr ?_ ⟨rfl, id⟩ rfl ?_ fun s _ valid => ⟨valid, fun p _ mem => ?_⟩
  · simp [members, orderly.staged]
  · simp +contextual [members]
  · have other : p ≠ o := fun same => apart (same ▸ mem)
    simp [members, mem, other]

theorem Orderly.setCycleDetection (orderly : c.Orderly) (on : Bool) :
    (c.setCycleDetection on).Orderly :=
  orderly.congr orderly.staged ⟨rfl, id⟩ rfl (fun _ => id) fun _ _ valid => ⟨valid, fun _ _ => id⟩

theorem Orderly.requestSweep (orderly : c.Orderly) : c.requestSweep.Orderly := by
  unfold Collector.requestSweep
  split
  · next idle =>
    exact orderly.congr orderly.staged ⟨by simp [idle, Phase.inPass], by simp⟩ rfl (fun _ => id)
      fun _ _ valid => ⟨valid, fun _ _ => id⟩
  · exact orderly

end Collector

namespace World

variable {ρ : Type} [ForeignHeap ρ] {w w' : World ρ} {o : ObjectId}

theorem orderly_of_startPass (orderly : w.collector.Orderly) (started : w.startPass = .ok w') :
    w'.collector.Orderly := by
  obtain ⟨v, taken, snapshot, stats, prepared, htaken, collected, -, rfl⟩ := startPass_eq_ok started
  have prepares := prepares_of_prepareSets prepared
  have frozen := Snapshot.frozen_collectRoots collected
  have objects := (Snapshot.objects_congr frozen).trans (Snapshot.objects_take htaken)
  refine ⟨?_, rfl, fun s same => ?_⟩
  · simp [TrackedSets.members_merged, prepares.others, orderly.staged]
  · obtain rfl := Option.some.inj same
    refine ⟨?_, (Snapshot.balanced_of_take htaken collected).1, ?_, ?_, nofun⟩
    · exact (Snapshot.wellformed_take htaken).congr frozen
    · exact fun o mem => objects ▸ mem
    · exact fun _ o mem => objects ▸ mem

omit [ForeignHeap ρ] in
theorem orderly_of_markStep (orderly : w.collector.Orderly) (marked : w.markStep = .ok w') :
    w'.collector.Orderly := by
  obtain ⟨snapshot, progress, m, stats, taken, ran, -, rfl⟩ := markStep_eq_ok marked
  have records := orderly.records snapshot taken
  obtain ⟨frozen, balanced⟩ := Marking.run_induction
    (P := fun s _ => s.frozen = snapshot.frozen ∧ s.Balanced) ran ⟨rfl, records.balanced⟩
    fun _ _ _ ⟨frozen, balanced⟩ visits => ⟨visits.frozen.trans frozen, visits.balanced balanced⟩
  have objects := Snapshot.objects_congr frozen
  refine ⟨orderly.staged, ?_, fun s same => ?_⟩
  · dsimp only
    split <;> rfl
  · obtain rfl := Option.some.inj same
    refine ⟨records.wellformed.congr frozen, balanced, ?_, ?_, fun ended r mem => ?_⟩
    · exact fun o mem => objects ▸ records.collected o mem
    · exact fun valid o mem => records.complete valid o (objects ▸ mem)
    · dsimp only at ended
      split at ended
      · next fixed =>
        obtain ⟨rfl, -⟩ := fixed
        rcases Marking.quiet_of_run ran r mem with processed | ⟨dead, -⟩
        · exact .inl processed
        · exact .inr dead
      · simp at ended

theorem snapshot_of_finishPass (finished : w.finishPass = .ok w') :
    w'.collector.snapshot? = none ∧ w'.collector.phase = .idle := by
  obtain ⟨snapshot, verdict, sets, outcome, v, -, -, disposed, rfl⟩ := finishPass_eq_ok finished
  obtain ⟨⟨_, _, _, _, disposes⟩, -⟩ := disposes_of_disposeStaged disposed
  obtain ⟨stats, collector⟩ := disposes.collector
  exact ⟨by rw [endPass, collector]; rfl, rfl⟩

theorem orderly_of_finishPass (finished : w.finishPass = .ok w') : w'.collector.Orderly := by
  obtain ⟨none, idle⟩ := snapshot_of_finishPass finished
  refine ⟨?_, by simp [none, idle, Phase.inPass], by simp [none]⟩
  obtain ⟨snapshot, verdict, sets, outcome, v, -, -, disposed, rfl⟩ := finishPass_eq_ok finished
  obtain ⟨⟨_, _, _, _, disposes⟩, -⟩ := disposes_of_disposeStaged disposed
  exact disposes.staged

theorem Stages.orderly (stages : Stages w w') (orderly : w.collector.Orderly) :
    w'.collector.Orderly := by
  cases stages with
  | start _ started => exact orderly_of_startPass orderly started
  | mark _ marked => exact orderly_of_markStep orderly marked
  | finish _ finished => exact orderly_of_finishPass finished
  | sweep outside swept =>
    obtain ⟨host, stats, -, rfl⟩ := sweep_eq_ok swept
    exact orderly.congr orderly.staged ⟨outside.symm, by simp⟩ rfl (fun _ => id)
      fun _ _ valid => ⟨valid, fun _ _ => id⟩

theorem Stages.options (stages : Stages w w') : w'.collector.options = w.collector.options := by
  cases stages with
  | start _ started =>
    obtain ⟨v, _, _, _, prepared, -, -, -, rfl⟩ := startPass_eq_ok started
    exact (prepares_of_prepareSets prepared).options
  | mark _ marked =>
    obtain ⟨_, _, _, _, -, -, -, rfl⟩ := markStep_eq_ok marked
    rfl
  | finish _ finished =>
    obtain ⟨_, _, _, _, _, -, -, disposed, rfl⟩ := finishPass_eq_ok finished
    obtain ⟨⟨_, _, _, _, disposes⟩, -⟩ := disposes_of_disposeStaged disposed
    obtain ⟨_, collector⟩ := disposes.collector
    exact (congrArg Collector.options collector :)
  | sweep _ swept =>
    obtain ⟨_, _, -, rfl⟩ := sweep_eq_ok swept
    rfl

theorem Moves.orderly (moves : Moves w w') (orderly : w.collector.Orderly) :
    w'.collector.Orderly := by
  cases moves with
  | heaps => exact orderly
  | track _ tracked => exact orderly.track tracked
  | untrack _ untracked => exact orderly.untrack untracked
  | finalizersDone _ done => exact orderly.finalizersDone done
  | setCycleDetection on => exact orderly.setCycleDetection on
  | requestSweep => exact orderly.requestSweep
  | step stages => exact stages.orderly orderly

theorem orderly_of_run {actions : List (Action ρ)} (ran : w.run actions = .ok w')
    (orderly : w.collector.Orderly) : w'.collector.Orderly :=
  foldlM_induction (P := fun w => w.collector.Orderly) ran orderly
    fun _ _ _ _ orderly acted => (moves_of_act acted).orderly orderly

end World

end CycleCollector
