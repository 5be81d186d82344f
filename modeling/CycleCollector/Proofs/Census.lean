import CycleCollector.Proofs.Garbage
import CycleCollector.Proofs.Lifecycle
import CycleCollector.Proofs.Mutations
import CycleCollector.Proofs.Solvency
/-!
# Every tracked object is accounted for

An object leaves the tracked sets in one of three ways: the program untracks it, a pass lets go of
it as an immutable container, or a pass releases it. The collector counts the latter two and the
arena logs them, so whoever counts the requests that were granted and reads the outcomes of all
passes can check the statistics. They always agree, and no object is released twice.

What every stage of a pass does is told by the lists of objects that it dealt with. Stages add up,
and from the sum of a step the agreement follows at once.

## Main definitions

* `Changes`, `World.Undergoes`: the objects that a stage dealt with.
* `Census`: what is counted from outside.
* `World.Permits`: the operations of a program that does not track what was released.
* `CensusRun`: a run of such operations and of mutations that are no releases.
* `World.Agrees`: the census agrees with the statistics and the logs.

## Main statements

* `World.undergoes_disposeStaged`, `World.undergoes_step`: the lists of the end of a pass, and of a
  step.
* `CensusRun.agrees`: the census of every run agrees.
* `CensusRun.census_of_run`: the account in full.
-/

namespace CycleCollector

/-! ## What a stage deals with -/

/-- The objects that a stage dealt with. -/
@[ext]
structure Changes where
  untracked : List ObjectId := []
  released : List ObjectId := []
  legacy : List ObjectId := []
  isolated : Nat := 0

instance : Append Changes where
  append c d :=
    { untracked := c.untracked ++ d.untracked
      released := c.released ++ d.released
      legacy := c.legacy ++ d.legacy
      isolated := c.isolated + d.isolated }

namespace Changes

variable (c d : Changes)

@[simp] theorem untracked_append : (c ++ d).untracked = c.untracked ++ d.untracked := rfl

@[simp] theorem released_append : (c ++ d).released = c.released ++ d.released := rfl

@[simp] theorem legacy_append : (c ++ d).legacy = c.legacy ++ d.legacy := rfl

@[simp] theorem isolated_append : (c ++ d).isolated = c.isolated + d.isolated := rfl

end Changes

namespace World

/-- Between `w` and `w'` the collector dealt with certain objects, counted them and told the arena
of them. -/
structure Undergoes (w : World Arena) (changes : Changes) (w' : World Arena) : Prop where
  total : w'.collector.sets.total + changes.untracked.length + changes.released.length =
    w.collector.sets.total
  untracked : w'.collector.stats.untrackedContainers =
    w.collector.stats.untrackedContainers + changes.untracked.length
  released : w'.collector.stats.released = w.collector.stats.released + changes.released.length
  legacy : w'.collector.stats.legacyGarbage =
    w.collector.stats.legacyGarbage + changes.legacy.length
  isolated : w'.collector.stats.isolated = w.collector.stats.isolated + changes.isolated
  untrackedLog : w'.foreign.untracked = w.foreign.untracked ++ changes.untracked
  releasedLog : w'.foreign.released = w.foreign.released ++ changes.released
  legacyLog : w'.foreign.legacyGarbage = w.foreign.legacyGarbage ++ changes.legacy
  marks : ∀ o, w'.foreign.isReleased o = .ok true ↔
    w.foreign.isReleased o = .ok true ∨ o ∈ changes.released
  once : changes.released.Nodup
  known : ∀ o ∈ changes.released, w.collector.sets.contains o = true
  left : ∀ o, w'.collector.sets.contains o = true →
    w.collector.sets.contains o = true ∧ o ∉ changes.released

variable {w w' v : World Arena} {changes changes' : Changes} {outcome : Outcome} {n : Nat}
  {o : ObjectId}

/-- What two stages dealt with, one after the other. -/
theorem Undergoes.trans (first : w.Undergoes changes v) (second : v.Undergoes changes' w') :
    w.Undergoes (changes ++ changes') w' := by
  constructor
  case total =>
    have := first.total
    have := second.total
    simp only [Changes.untracked_append, Changes.released_append, List.length_append]
    omega
  case untracked => simp [second.untracked, first.untracked, Nat.add_assoc]
  case released => simp [second.released, first.released, Nat.add_assoc]
  case legacy => simp [second.legacy, first.legacy, Nat.add_assoc]
  case isolated => simp [second.isolated, first.isolated, Nat.add_assoc]
  case untrackedLog => simp [second.untrackedLog, first.untrackedLog]
  case releasedLog => simp [second.releasedLog, first.releasedLog]
  case legacyLog => simp [second.legacyLog, first.legacyLog]
  case marks => exact fun o => by simp [second.marks, first.marks, or_assoc]
  case once =>
    refine List.nodup_append.2 ⟨first.once, second.once, fun o early p late same => ?_⟩
    exact (first.left p (second.known p late)).2 (same ▸ early)
  case known =>
    intro o mem
    rcases List.mem_append.1 mem with early | late
    · exact first.known o early
    · exact (first.left o (second.known o late)).1
  case left =>
    intro o tracked
    obtain ⟨still, stays⟩ := second.left o tracked
    obtain ⟨here, stayed⟩ := first.left o still
    exact ⟨here, by simp [stayed, stays]⟩

/-- A stage that neither releases nor lets go keeps all tracked objects. -/
theorem Undergoes.of_contains (legacy : List ObjectId) (n : Nat)
    (cells : w'.foreign.cells = w.foreign.cells)
    (logs : w'.foreign.released = w.foreign.released ∧
      w'.foreign.untracked = w.foreign.untracked)
    (tracked : ∀ o, w'.collector.sets.contains o = w.collector.sets.contains o)
    (counts : w'.collector.stats.released = w.collector.stats.released ∧
      w'.collector.stats.untrackedContainers = w.collector.stats.untrackedContainers)
    (reported : w'.foreign.legacyGarbage = w.foreign.legacyGarbage ++ legacy)
    (counted : w'.collector.stats.legacyGarbage =
      w.collector.stats.legacyGarbage + legacy.length)
    (isolated : w'.collector.stats.isolated = w.collector.stats.isolated + n) :
    w.Undergoes { legacy, isolated := n } w' where
  total := TrackedSets.total_congr tracked
  untracked := counts.2
  released := counts.1
  legacy := counted
  isolated := isolated
  untrackedLog := by simpa using logs.2
  releasedLog := by simpa using logs.1
  legacyLog := reported
  marks o := by simp [Arena.isReleased_congr cells]
  once := .nil
  known := by simp
  left o here := ⟨tracked o ▸ here, by simp⟩

/-- Where only roles and counters of other things change, nothing was dealt with. -/
theorem Undergoes.of_same (foreign : w'.foreign = w.foreign)
    (tracked : ∀ o, w'.collector.sets.contains o = w.collector.sets.contains o)
    (released : w'.collector.stats.released = w.collector.stats.released)
    (untracked : w'.collector.stats.untrackedContainers = w.collector.stats.untrackedContainers)
    (legacy : w'.collector.stats.legacyGarbage = w.collector.stats.legacyGarbage)
    (isolated : w'.collector.stats.isolated = w.collector.stats.isolated) :
    w.Undergoes {} w' :=
  .of_contains [] 0 (by rw [foreign]) ⟨by rw [foreign], by rw [foreign]⟩ tracked
    ⟨released, untracked⟩ (by rw [foreign, List.append_nil]) legacy isolated

/-- A stage that dealt with nothing adds nothing. -/
theorem Undergoes.trans_same (first : w.Undergoes changes v) (second : v.Undergoes {} w') :
    w.Undergoes changes w' := by
  have none : changes ++ ({} : Changes) = changes := by simp [Changes.ext_iff]
  exact none ▸ first.trans second

theorem Undergoes.refl (w : World Arena) : w.Undergoes {} w :=
  .of_same rfl (fun _ => rfl) rfl rfl rfl rfl

/-! ## The stages of a pass -/

/-- A container that is let go counts for one. -/
theorem undergoes_erase (tracked : w.collector.sets.contains o = true) :
    w.Undergoes { untracked := [o] } { w with
      collector := { w.collector with
        sets := w.collector.sets.erase o
        stats := { w.collector.stats with
          untrackedContainers := w.collector.stats.untrackedContainers + 1 } }
      foreign := ForeignHeap.noteUntracked w.foreign o } := by
  constructor
  case total => exact TrackedSets.total_erase tracked
  case left =>
    intro p here
    obtain ⟨r, mem⟩ := TrackedSets.contains_iff_exists_mem.1 here
    rw [TrackedSets.members_erase] at mem
    exact ⟨TrackedSets.contains_of_mem_members (List.mem_filter.1 mem).1, by simp⟩
  case releasedLog => exact (List.append_nil _).symm
  case legacyLog => exact (List.append_nil _).symm
  case marks => exact fun p => by simp [ForeignHeap.noteUntracked, Arena.isReleased, Arena.cell]
  case once => exact .nil
  case known => simp
  all_goals rfl

theorem undergoes_prepareSets (prepared : w.prepareSets = .ok w') :
    ∃ untracked, w.Undergoes { untracked } w' := by
  refine prepareSets_induction (P := fun v => ∃ untracked, w.Undergoes { untracked } v) prepared
    ⟨[], .refl w⟩ ?_
  rintro o - v tracked ⟨untracked, undergoes⟩
  exact ⟨untracked ++ [o], undergoes.trans (undergoes_erase tracked)⟩

theorem undergoes_startPass (started : w.startPass = .ok w') :
    ∃ untracked, w.Undergoes { untracked } w' := by
  unfold startPass at started
  split at started
  · simp at started
  · simp only [bind_eq_ok, pure_eq_ok] at started
    obtain ⟨v, prepared, _, -, _, -, rfl⟩ := started
    obtain ⟨untracked, undergoes⟩ := undergoes_prepareSets prepared
    refine ⟨untracked, undergoes.trans_same ?_⟩
    exact .of_same rfl (TrackedSets.contains_merged v.collector.sets .new .inCollection) rfl rfl rfl
      rfl

theorem undergoes_markStep (marked : w.markStep = .ok w') : w.Undergoes {} w' := by
  unfold markStep at marked
  split at marked
  · simp at marked
  · simp only [bind_eq_ok, pure_eq_ok] at marked
    obtain ⟨⟨progress, m⟩, -, rfl⟩ := marked
    exact .of_same rfl (fun _ => rfl) rfl rfl rfl rfl

theorem undergoes_keepLegacy (kept : w.keepLegacy = .ok (n, w')) : ∃ legacy, n = legacy.length ∧
    (w.collector.sets.members .staged = [] → legacy = []) ∧ w.Undergoes { legacy } w' := by
  simp only [keepLegacy, bind_eq_ok, pure_eq_ok] at kept
  obtain ⟨legacy, found, reached, searched, kept⟩ := kept
  obtain ⟨rfl, rfl⟩ := Prod.mk.inj kept
  refine ⟨legacy, rfl, fun none => ?_, ?_⟩
  · simpa [none] using (ForeignHeap.select_eq_ok.1 found).2
  · simp only [Arena.foldl_noteLegacyGarbage]
    exact .of_contains legacy 0 rfl ⟨rfl, rfl⟩ (TrackedSets.contains_keepAll _ _) ⟨rfl, rfl⟩ rfl rfl
      rfl

theorem undergoes_isolateFinalizable (isolated : w.isolateFinalizable = .ok (n, w')) :
    (w.collector.sets.members .staged = [] → n = 0) ∧ w.Undergoes { isolated := n } w' := by
  simp only [isolateFinalizable, bind_eq_ok] at isolated
  obtain ⟨finalizable, -, isolated⟩ := isolated
  split at isolated
  · obtain ⟨rfl, rfl⟩ := Prod.mk.inj (pure_eq_ok.1 isolated)
    exact ⟨fun _ => rfl, .refl w⟩
  · obtain ⟨rfl, rfl⟩ := Prod.mk.inj (pure_eq_ok.1 isolated)
    refine ⟨fun none => by rw [none, List.length_nil], ?_⟩
    exact .of_contains [] _ rfl ⟨rfl, rfl⟩ (TrackedSets.contains_merged _ _ _) ⟨rfl, rfl⟩
      (List.append_nil _).symm rfl rfl

theorem undergoes_markBorder {evidence : Evidence} (marked : w.markBorder evidence = .ok w') :
    w.Undergoes {} w' := by
  simp only [markBorder, bind_eq_ok, pure_eq_ok] at marked
  obtain ⟨_, -, _, -, _, -, rfl⟩ := marked
  exact .of_same rfl (fun _ => rfl) rfl rfl rfl rfl

theorem undergoes_releaseStaged (done : w.releaseStaged = .ok (n, w')) :
    n = (w.collector.sets.members .staged).length ∧
      w.Undergoes { released := w.collector.sets.members .staged } w' := by
  simp only [releaseStaged, bind_eq_ok, pure_eq_ok] at done
  obtain ⟨foreign, released, done⟩ := done
  obtain ⟨rfl, rfl⟩ := Prod.mk.inj done
  obtain ⟨_, logs⟩ := Arena.exists_cells_of_releaseAll released
  refine ⟨rfl, ?_⟩
  constructor
  case total => exact TrackedSets.total_cleared ..
  case untrackedLog => rw [logs, List.append_nil]; rfl
  case releasedLog => rw [logs]; rfl
  case legacyLog => rw [logs, List.append_nil]; rfl
  case marks => exact fun o => Arena.isReleased_of_releaseAll released
  case once => exact TrackedSets.nodup_members ..
  case known => exact fun o => TrackedSets.contains_of_mem_members
  case left =>
    intro o here
    obtain ⟨r, mem⟩ := TrackedSets.contains_iff_exists_mem.1 here
    simp only [withSets, count, TrackedSets.members_cleared] at mem
    split at mem
    · simp at mem
    · next apart =>
      refine ⟨TrackedSets.contains_of_mem_members mem, fun staged => apart ?_⟩
      exact Option.some.inj ((TrackedSets.mem_members.1 staged).symm.trans
        (TrackedSets.mem_members.1 mem))
  all_goals rfl

/-- The outcome tells what was dealt with, and nothing was if nothing was staged. -/
theorem undergoes_disposeStaged (disposed : w.disposeStaged = .ok (outcome, w')) :
    ∃ changes, w.Undergoes changes w' ∧ changes.untracked = [] ∧
      outcome = .collected changes.released.length changes.isolated changes.legacy.length ∧
      (w.collector.sets.members .staged = [] →
        changes.released = [] ∧ changes.isolated = 0 ∧ changes.legacy = []) := by
  obtain ⟨_, w₁, isolated, w₂, w₃, _, kept, isolates, marked, released, rfl⟩ :=
    disposeStaged_eq_ok.1 disposed
  obtain ⟨legacy, rfl, no_legacy, keeps⟩ := undergoes_keepLegacy kept
  obtain ⟨no_isolated, holds⟩ := undergoes_isolateFinalizable isolates
  obtain ⟨rfl, releases⟩ := undergoes_releaseStaged released
  refine ⟨_, ((keeps.trans holds).trans_same (undergoes_markBorder marked)).trans releases, rfl,
    by simp, fun none => ?_⟩
  have staged : w₁.collector.sets.members .staged = [] ∧
      w₃.collector.sets.members .staged = [] := by
    obtain ⟨os, staged⟩ := keeps_of_keepLegacy kept
    have empty : w₁.collector.sets.members .staged = [] := by rw [staged.staged, none]; rfl
    obtain ⟨_, _, -, rfl⟩ := marks_of_markBorder marked
    obtain ⟨_, -, ⟨-, -, rfl⟩ | ⟨-, -, _, rfl⟩⟩ := isolateFinalizable_eq_ok isolates
    · exact ⟨empty, empty⟩
    · exact ⟨empty, by simp [TrackedSets.members_merged]⟩
  simp [staged.2, no_isolated staged.1, no_legacy none]

theorem undergoes_sweep (swept : w.sweep = .ok w') :
    w.Undergoes {} w' ∧ w'.collector.lastOutcome = some .swept := by
  simp only [sweep, bind_eq_ok, pure_eq_ok] at swept
  obtain ⟨v, marked, rfl⟩ := swept
  exact ⟨(undergoes_markBorder marked).trans_same (.of_same rfl (fun _ => rfl) rfl rfl rfl rfl),
    rfl⟩

end World

/-! ## What an outcome says -/

namespace Outcome

def released : Outcome → Nat
  | .collected released _ _ => released
  | .swept | .resurrected => 0

def isolated : Outcome → Nat
  | .collected _ isolated _ => isolated
  | .swept | .resurrected => 0

def legacy : Outcome → Nat
  | .collected _ _ legacy => legacy
  | .swept | .resurrected => 0

end Outcome

structure Changes.ToldBy (changes : Changes) (outcomes : List Outcome) : Prop where
  released : (outcomes.map Outcome.released).sum = changes.released.length
  isolated : (outcomes.map Outcome.isolated).sum = changes.isolated
  legacy : (outcomes.map Outcome.legacy).sum = changes.legacy.length

namespace World

variable {w w' v : World Arena} {changes : Changes} {outcome : Outcome} {finished : Bool}

/-- A pass that keeps everything has nothing staged, so its outcome is true as well. -/
theorem undergoes_finishPass (orderly : w.collector.Orderly) (ended : w.finishPass = .ok w') :
    ∃ changes, w.Undergoes changes w' ∧ changes.ToldBy w'.collector.lastOutcome.toList := by
  obtain ⟨snapshot, verdict, sets, outcome, v, taken, judged, disposed, rfl⟩ :=
    finishPass_eq_ok ended
  obtain ⟨changes, disposes, -, rfl, nothing⟩ := undergoes_disposeStaged disposed
  have judges : w.Undergoes {} (w.discardSnapshot sets) :=
    .of_same rfl (fun _ => Snapshot.contains_of_judge judged) rfl rfl rfl rfl
  have ends : v.Undergoes {} (v.endPass (if verdict = .consistent then
      .collected changes.released.length changes.isolated changes.legacy.length
      else .resurrected)) := .of_same rfl (fun _ => rfl) rfl rfl rfl rfl
  refine ⟨{} ++ changes, (judges.trans disposes).trans_same ends, ?_⟩
  cases verdict with
  | consistent =>
    constructor <;> simp [endPass, Outcome.released, Outcome.isolated, Outcome.legacy]
  | inconsistent =>
    have undone := (Snapshot.judge_inconsistent orderly.staged judged).2
    obtain ⟨released, isolated, legacy⟩ := nothing undone.staged
    constructor <;>
      simp [endPass, Outcome.released, Outcome.isolated, Outcome.legacy, released, isolated, legacy]

/-- A step that ends a pass or sweep tells what it dealt with; any other step releases nothing,
isolates nothing and reports nothing. -/
theorem undergoes_step (orderly : w.collector.Orderly) (stepped : w.step = .ok (finished, w')) :
    ∃ changes, w.Undergoes changes w' ∧
      changes.ToldBy (if finished then w'.collector.lastOutcome.toList else []) := by
  cases step_eq_ok.1 stepped with
  | start _ _ started =>
    obtain ⟨untracked, undergoes⟩ := undergoes_startPass started
    exact ⟨_, undergoes, rfl, rfl, rfl⟩
  | mark _ marked => exact ⟨{}, undergoes_markStep marked, rfl, rfl, rfl⟩
  | finish _ ended => exact undergoes_finishPass orderly ended
  | sweep _ swept =>
    obtain ⟨undergoes, outcome⟩ := undergoes_sweep swept
    exact ⟨{}, undergoes, by rw [outcome]; exact ⟨rfl, rfl, rfl⟩⟩

end World

/-! ## Runs and their census -/

/-- What is counted from outside, so far. -/
structure Census where
  /-- Requests to track that were granted. -/
  tracked : Nat := 0
  /-- Requests to untrack that were granted. -/
  untracked : Nat := 0
  /-- How passes and sweeps ended, in order. -/
  outcomes : List Outcome := []
deriving DecidableEq

namespace World

def outcomeOf {ρ : Type} [ForeignHeap ρ] (w : World ρ) : Operation ρ → Option Outcome
  | .act .step =>
    match w.step with
    | .ok (true, w') => w'.collector.lastOutcome
    | _ => none
  | .collect =>
    match w.collect with
    | .ok (_, w') => w'.collector.lastOutcome
    | .error _ => none
  | .act _ => none

/-- Operations of a program that does not track what was released. What it does to the arena is told
by mutations. -/
def Permits (w : World Arena) : Operation Arena → Prop
  | .act (.foreign _) => False
  | .act (.track o) => w.foreign.isReleased o ≠ .ok true
  | _ => True

instance (w : World Arena) (operation : Operation Arena) : Decidable (w.Permits operation) := by
  unfold Permits
  split <;> infer_instance

end World

def Census.after {ρ : Type} [ForeignHeap ρ] (c : Census) (w : World ρ)
    (operation : World.Operation ρ) : Census where
  tracked := c.tracked +
    match operation with
    | .act (.track o) => if (w.collector.track o).isOk then 1 else 0
    | _ => 0
  untracked := c.untracked +
    match operation with
    | .act (.untrack o) => if (w.collector.untrack o).isOk then 1 else 0
    | _ => 0
  outcomes := c.outcomes ++ (w.outcomeOf operation).toList

/-- Only requests about tracking and the ends of passes are counted. -/
theorem Census.after_eq_self {ρ : Type} [ForeignHeap ρ] (c : Census) (w : World ρ)
    (a : World.Action ρ) (step : a ≠ .step) (track : ∀ o, a ≠ .track o)
    (untrack : ∀ o, a ≠ .untrack o) : c.after w (.act a) = c := by
  cases a with
  | step => exact absurd rfl step
  | track o => exact absurd rfl (track o)
  | untrack o => exact absurd rfl (untrack o)
  | _ => simp [Census.after, World.outcomeOf]

/-- A run over a new arena, with its census: the program changes the arena as it likes, but leaves
releases to the collector. -/
inductive CensusRun (options : Options) : World Arena → Census → Prop
  | start (host : HostHeap) :
      CensusRun options { collector := { options }, foreign := {}, host } {}
  | mutate {w : World Arena} {c : Census} {m : Mutation} {reply : Reply} {foreign : Arena} :
      CensusRun options w c → (∀ o, m ≠ .release o) → m.apply w.foreign = .ok (reply, foreign) →
      CensusRun options { w with foreign } c
  | operate {w w' : World Arena} {c : Census} {operation : World.Operation Arena} :
      CensusRun options w c → w.Permits operation → w.operate operation = .ok w' →
      CensusRun options w' (c.after w operation)

namespace World

variable {w w' : World Arena} {c : Census} {changes : Changes} {outcomes : List Outcome}
  {o : ObjectId} {finished : Bool} {n : Nat}

structure Agrees (w : World Arena) (c : Census) : Prop where
  orderly : w.collector.Orderly
  tracked : c.tracked = w.collector.sets.total + c.untracked +
    w.collector.stats.untrackedContainers + w.collector.stats.released
  releasedLog : w.collector.stats.released = w.foreign.released.length
  legacyLog : w.collector.stats.legacyGarbage = w.foreign.legacyGarbage.length
  untrackedLog : w.collector.stats.untrackedContainers = w.foreign.untracked.length
  released : w.collector.stats.released = (c.outcomes.map Outcome.released).sum
  isolated : w.collector.stats.isolated = (c.outcomes.map Outcome.isolated).sum
  legacy : w.collector.stats.legacyGarbage = (c.outcomes.map Outcome.legacy).sum
  once : w.foreign.released.Nodup
  marked : ∀ o ∈ w.foreign.released, w.foreign.isReleased o = .ok true
  fresh : ∀ o, w.collector.sets.contains o = true → w.foreign.isReleased o ≠ .ok true

/-- What was dealt with and told of is accounted for. -/
theorem Undergoes.agrees (undergoes : w.Undergoes changes w') (told : changes.ToldBy outcomes)
    (agrees : w.Agrees c) (orderly : w'.collector.Orderly) :
    w'.Agrees { c with outcomes := c.outcomes ++ outcomes } := by
  constructor
  case orderly => exact orderly
  case tracked =>
    have := undergoes.total
    rw [undergoes.untracked, undergoes.released, agrees.tracked]
    dsimp only
    omega
  case releasedLog =>
    rw [undergoes.released, undergoes.releasedLog, agrees.releasedLog, List.length_append]
  case legacyLog =>
    rw [undergoes.legacy, undergoes.legacyLog, agrees.legacyLog, List.length_append]
  case untrackedLog =>
    rw [undergoes.untracked, undergoes.untrackedLog, agrees.untrackedLog, List.length_append]
  case released => simp [undergoes.released, agrees.released, told.released]
  case isolated => simp [undergoes.isolated, agrees.isolated, told.isolated]
  case legacy => simp [undergoes.legacy, agrees.legacy, told.legacy]
  case once =>
    rw [undergoes.releasedLog]
    refine List.nodup_append.2 ⟨agrees.once, undergoes.once, fun o early p late same => ?_⟩
    exact agrees.fresh p (undergoes.known p late) (same ▸ agrees.marked o early)
  case marked =>
    intro o mem
    rw [undergoes.releasedLog, List.mem_append] at mem
    exact (undergoes.marks o).2 (mem.imp_left (agrees.marked o))
  case fresh =>
    intro o here gone
    obtain ⟨tracked, stays⟩ := undergoes.left o here
    exact ((undergoes.marks o).1 gone).elim (agrees.fresh o tracked) stays

theorem Agrees.step (agrees : w.Agrees c) (stepped : w.step = .ok (finished, w')) :
    w'.Agrees { c with
      outcomes := c.outcomes ++ if finished then w'.collector.lastOutcome.toList else [] } := by
  obtain ⟨changes, undergoes, told⟩ := undergoes_step agrees.orderly stepped
  exact undergoes.agrees told agrees ((stages_of_step stepped).orderly agrees.orderly)

theorem Agrees.host (agrees : w.Agrees c) (host : HostHeap) :
    ({ w with host } : World Arena).Agrees c :=
  { agrees with }

/-- A whole collection has one outcome, that of its last step. -/
theorem Agrees.completes (agrees : w.Agrees c) (completes : Completes w w') :
    w'.Agrees { c with outcomes := c.outcomes ++ w'.collector.lastOutcome.toList } := by
  induction completes with
  | last stepped => exact (agrees.step stepped).host _
  | more stepped _ _ ih =>
    have next := (agrees.step stepped).host
    simp only [Bool.false_eq_true, if_false, List.append_nil] at next
    exact ih (next _)

/-- A request that leaves the tracked objects as they are is not counted. -/
theorem Agrees.congr {collector : Collector} (agrees : w.Agrees c) (orderly : collector.Orderly)
    (tracked : ∀ o, collector.sets.contains o = w.collector.sets.contains o)
    (stats : collector.stats = w.collector.stats) :
    ({ w with collector } : World Arena).Agrees c := by
  have total := TrackedSets.total_congr tracked
  refine ⟨orderly, ?_, ?_, ?_, ?_, ?_, ?_, ?_, agrees.once, agrees.marked, fun o here => ?_⟩
  · rw [stats, total, agrees.tracked]
  · exact stats ▸ agrees.releasedLog
  · exact stats ▸ agrees.legacyLog
  · exact stats ▸ agrees.untrackedLog
  · exact stats ▸ agrees.released
  · exact stats ▸ agrees.isolated
  · exact stats ▸ agrees.legacy
  · exact agrees.fresh o (tracked o ▸ here)

theorem Agrees.track {collector : Collector} (agrees : w.Agrees c)
    (unreleased : w.foreign.isReleased o ≠ .ok true)
    (tracked : w.collector.track o = .ok collector) :
    ({ w with collector } : World Arena).Agrees { c with tracked := c.tracked + 1 } := by
  have orderly := agrees.orderly.track tracked
  obtain ⟨sets, inserted, rfl⟩ := Collector.track_eq_ok.1 tracked
  refine { agrees with orderly, tracked := ?_, fresh := fun p here => ?_ }
  · have := TrackedSets.total_insert? inserted
    have := agrees.tracked
    dsimp only
    omega
  · obtain ⟨r, mem⟩ := TrackedSets.contains_iff_exists_mem.1 here
    rw [TrackedSets.members_insert? inserted, List.mem_append] at mem
    rcases mem with old | new
    · exact agrees.fresh p (TrackedSets.contains_of_mem_members old)
    · split at new
      · exact List.mem_singleton.1 new ▸ unreleased
      · simp at new

theorem Agrees.untrack {collector : Collector} (agrees : w.Agrees c)
    (untracked : w.collector.untrack o = .ok collector) :
    ({ w with collector } : World Arena).Agrees { c with untracked := c.untracked + 1 } := by
  have orderly := agrees.orderly.untrack untracked
  obtain ⟨here, rfl⟩ := Collector.untrack_eq_ok.1 untracked
  refine { agrees with orderly, tracked := ?_, fresh := fun p left => ?_ }
  · have := TrackedSets.total_erase here
    have := agrees.tracked
    dsimp only
    omega
  · obtain ⟨r, mem⟩ := TrackedSets.contains_iff_exists_mem.1 left
    rw [TrackedSets.members_erase] at mem
    exact agrees.fresh p (TrackedSets.contains_of_mem_members (List.mem_filter.1 mem).1)

/-- What the program does to the arena is neither a release nor a report. -/
theorem Agrees.foreign {foreign : Arena} (agrees : w.Agrees c)
    (keeps : w.foreign.KeepsLogs foreign) : ({ w with foreign } : World Arena).Agrees c := by
  refine { agrees with
    releasedLog := ?_, legacyLog := ?_, untrackedLog := ?_, once := ?_, marked := ?_, fresh := ?_ }
  · rw [keeps.released, agrees.releasedLog]
  · rw [keeps.legacyGarbage, agrees.legacyLog]
  · rw [keeps.untracked, agrees.untrackedLog]
  · exact keeps.released ▸ agrees.once
  · exact fun o mem => (keeps.marks o).2 (agrees.marked o (keeps.released ▸ mem))
  · exact fun o here gone => agrees.fresh o here ((keeps.marks o).1 gone)

/-- Every permitted operation keeps the census in agreement. -/
theorem Agrees.operate {operation : Operation Arena} (agrees : w.Agrees c)
    (permits : w.Permits operation) (operated : w.operate operation = .ok w') :
    w'.Agrees (c.after w operation) := by
  cases operation with
  | collect =>
    obtain ⟨⟨n, u⟩, collected, rfl⟩ := map_eq_ok.1 operated
    have outcome : w.outcomeOf .collect = u.collector.lastOutcome := by
      simp only [outcomeOf, collected]
    have whole := agrees.completes (completes_of_collect collected)
    rw [← outcome] at whole
    exact whole
  | act a =>
    cases a with
    | foreign foreign => exact permits.elim
    | host host =>
      obtain rfl := Except.ok.inj operated
      rw [c.after_eq_self w (.host host) nofun nofun nofun]
      exact agrees.host host
    | track o =>
      obtain rfl := Except.ok.inj operated
      simp only [Census.after, outcomeOf, Option.toList_none, List.append_nil]
      cases tracked : w.collector.track o with
      | error refusal => exact agrees
      | ok collector => exact agrees.track permits tracked
    | untrack o =>
      obtain rfl := Except.ok.inj operated
      simp only [Census.after, outcomeOf, Option.toList_none, List.append_nil]
      cases untracked : w.collector.untrack o with
      | error refusal => exact agrees
      | ok collector => exact agrees.untrack untracked
    | finalizersDone o =>
      obtain rfl := Except.ok.inj operated
      rw [c.after_eq_self w (.finalizersDone o) nofun nofun nofun]
      refine request_induction agrees fun collector granted => ?_
      have orderly := agrees.orderly.finalizersDone granted
      obtain ⟨-, rfl⟩ := Collector.finalizersDone_eq_ok.1 granted
      exact agrees.congr orderly (by simp) rfl
    | setCycleDetection on =>
      obtain rfl := Except.ok.inj operated
      rw [c.after_eq_self w (.setCycleDetection on) nofun nofun nofun]
      exact agrees.congr (agrees.orderly.setCycleDetection on) (fun _ => rfl) rfl
    | requestSweep =>
      obtain rfl := Except.ok.inj operated
      rw [c.after_eq_self w .requestSweep nofun nofun nofun]
      refine agrees.congr agrees.orderly.requestSweep ?_ ?_ <;>
        unfold Collector.requestSweep <;> split <;> simp
    | step =>
      obtain ⟨⟨finished, u⟩, stepped, rfl⟩ := map_eq_ok.1 operated
      have outcome : (w.outcomeOf (.act .step)).toList =
          if finished then u.collector.lastOutcome.toList else [] := by
        simp only [outcomeOf, stepped]
        cases finished <;> rfl
      have taken := agrees.step stepped
      rw [← outcome] at taken
      exact taken

end World

/-! ## Releases -/

/-- Is no second release. -/
def Fault.Other (fault : Fault) : Prop := ∀ o, fault ≠ .releasedTwice o

/-- Releasing objects that were not released before, each of them once, is no second release. -/
theorem Arena.stopsBy_releaseAll {a : Arena} {os : List ObjectId} (nodup : os.Nodup)
    (fresh : ∀ o ∈ os, a.isReleased o ≠ .ok true) :
    StopsBy Fault.Other (ForeignHeap.releaseAll a os) := by
  induction os generalizing a with
  | nil => exact stopsBy_pure a
  | cons o os ih =>
    obtain ⟨once, nodup⟩ := List.nodup_cons.1 nodup
    rw [ForeignHeap.releaseAll, List.foldlM_cons, stopsBy_bind]
    refine ⟨a.stopsBy_release (by simp [Fault.Other]) o ?_, fun a₁ released => ih nodup ?_⟩
    · exact fun gone => absurd gone (fresh o List.mem_cons_self)
    · intro p mem gone
      have alone : ForeignHeap.releaseAll a [o] = .ok a₁ := by
        rw [ForeignHeap.releaseAll, List.foldlM_cons, released]
        rfl
      rcases (Arena.isReleased_of_releaseAll alone).1 gone with before | here
      · exact fresh p (List.mem_cons_of_mem o mem) before
      · exact once (List.mem_singleton.1 here ▸ mem)

namespace World

variable {w : World Arena} {c : Census} {o : ObjectId}

theorem Agrees.stopsBy_step (agrees : w.Agrees c) : StopsBy Fault.Other w.step := by
  have answers : ExcusesAnswers Arena Fault.Other := Arena.answers (by simp [Fault.Other])
  refine World.stopsBy_step answers w ?_ (by simp [Fault.Other]) (by simp [Fault.Other])
    (by simp [Fault.Other]) fun v taken _ _ => taken.stopsBy_collectRoots (by simp [Fault.Other])
  intro foreign os informed nodup tracked
  refine Arena.stopsBy_releaseAll nodup fun o mem gone => agrees.fresh o (tracked o mem) ?_
  rwa [Arena.isReleased_congr (Arena.cells_of_informed informed).1] at gone

theorem Agrees.stopsBy_operate (agrees : w.Agrees c) (operation : Operation Arena) :
    StopsBy Fault.Other (w.operate operation) := by
  cases operation with
  | collect =>
    refine stopsBy_map.2 (stopsBy_collect (I := fun v => ∃ c, v.Agrees c) ⟨c, agrees⟩
      (by simp [Fault.Other]) (fun v ⟨_, agrees⟩ => agrees.stopsBy_step) ?_)
    exact fun v v' finished host ⟨_, agrees⟩ stepped => ⟨_, (agrees.step stepped).host host⟩
  | act a =>
    cases a with
    | step => exact stopsBy_map.2 agrees.stopsBy_step
    | _ => exact stopsBy_ok _

end World

namespace CensusRun

variable {options : Options} {w : World Arena} {c : Census}

/-- The census of every run agrees. -/
theorem agrees (run : CensusRun options w c) : w.Agrees c := by
  induction run with
  | start host => exact ⟨.start options, rfl, rfl, rfl, rfl, rfl, rfl, rfl, .nil, by simp, nofun⟩
  | mutate _ other done ih => exact ih.foreign (Arena.keepsLogs_of_apply other done)
  | operate _ permits operated ih => exact ih.operate permits operated

/-- However a program changes the arena between the operations of the collector, as long as it
releases nothing itself and tracks nothing that was released: the objects whose tracking was granted
are tracked still, or were untracked on request, let go as containers, or released; the statistics
are as long as the logs and as large as the outcomes say; the log of releases names no object twice
and none that is tracked; and no object is released a second time, whatever comes next. -/
theorem census_of_run (run : CensusRun options w c) :
    c.tracked = w.collector.sets.total + c.untracked +
      w.collector.stats.untrackedContainers + w.collector.stats.released ∧
    (w.collector.stats.released = w.foreign.released.length ∧
      w.collector.stats.legacyGarbage = w.foreign.legacyGarbage.length ∧
      w.collector.stats.untrackedContainers = w.foreign.untracked.length) ∧
    (w.collector.stats.released = (c.outcomes.map Outcome.released).sum ∧
      w.collector.stats.isolated = (c.outcomes.map Outcome.isolated).sum ∧
      w.collector.stats.legacyGarbage = (c.outcomes.map Outcome.legacy).sum) ∧
    w.foreign.released.Nodup ∧
    (∀ o ∈ w.foreign.released, w.collector.sets.contains o = false) ∧
    (∀ operation o, w.operate operation ≠ .error (.releasedTwice o)) ∧
    ∀ (m : Mutation), (∀ o, m ≠ .release o) →
      ∀ o, m.apply w.foreign ≠ .error (.releasedTwice o) := by
  have agrees := run.agrees
  refine ⟨agrees.tracked, ⟨agrees.releasedLog, agrees.legacyLog, agrees.untrackedLog⟩,
    ⟨agrees.released, agrees.isolated, agrees.legacy⟩, agrees.once, fun o mem => ?_, ?_, ?_⟩
  · exact Bool.eq_false_iff.2 fun tracked => agrees.fresh o tracked (agrees.marked o mem)
  · exact fun operation o stopped => agrees.stopsBy_operate operation _ stopped o rfl
  · intro m other o stopped
    have stops : StopsBy Fault.Other (m.apply w.foreign) :=
      w.foreign.stopsBy_apply (by simp [Fault.Other]) (by simp [Fault.Other]) m
        fun p releases => absurd releases (other p)
    exact stops _ stopped o rfl

/-- A ring counts as alive at first, as a reference to it comes and goes, and then it is released. A
container is let go, and an object is reported, later isolated, and untracked in the end. -/
theorem census_of_run_mixed :
    let mutate (w : World Arena) (m : Mutation) : World Arena :=
      { w with foreign := ((m.apply w.foreign).toOption.map Prod.snd).getD w.foreign }
    let operate (w : World Arena) (operation : World.Operation Arena) : World Arena :=
      (w.operate operation).toOption.getD w
    let built := mutate (mutate (mutate (mutate { foreign := {} } (.allocRing 2)) (.alloc 2))
      (.setAtomic ⟨2⟩)) (.setFinalizer ⟨3⟩ .legacy)
    let tracked := operate (operate (operate (operate built (.act (.track ⟨0⟩)))
      (.act (.track ⟨1⟩))) (.act (.track ⟨2⟩))) (.act (.track ⟨3⟩))
    let started := operate (operate tracked (.act (.track ⟨3⟩))) (.act .step)
    let resurrected := operate (operate (mutate started (.incref ⟨0⟩)) (.act .step)) (.act .step)
    let collected := operate (mutate resurrected (.decref ⟨0⟩)) .collect
    let w := operate (operate (mutate collected (.setFinalizer ⟨3⟩ .modern)) .collect)
      (.act (.untrack ⟨3⟩))
    let outcomes := [.resurrected, .collected 2 0 1, .collected 0 1 0]
    ∃ c : Census, c.tracked = 4 ∧ c.untracked = 1 ∧ c.outcomes = outcomes ∧
      c.tracked = w.collector.sets.total + c.untracked +
        w.collector.stats.untrackedContainers + w.collector.stats.released ∧
      w.foreign.released = [⟨0⟩, ⟨1⟩] ∧ w.foreign.legacyGarbage = [⟨3⟩] ∧
      w.foreign.untracked = [⟨2⟩] ∧ w.collector.stats.released = 2 ∧
      w.collector.stats.isolated = 1 ∧
      ∀ o, w.operate .collect ≠ .error (.releasedTwice o) := by
  intro mutate operate built tracked started resurrected collected w outcomes
  have mutates : ∀ {w c} (m : Mutation) (reply), CensusRun {} w c → (∀ o, m ≠ .release o) →
      m.apply w.foreign = .ok (reply, (mutate w m).foreign) → CensusRun {} (mutate w m) c :=
    fun _ _ run other done => .mutate run other done
  have operates : ∀ {w c} (operation), CensusRun {} w c → w.Permits operation →
      w.operate operation = .ok (operate w operation) →
      CensusRun {} (operate w operation) (c.after w operation) :=
    fun _ run permits done => .operate run permits done
  have run := (CensusRun.start {} : CensusRun {} _ _)
  have run := mutates (.allocRing 2) (.allocated [⟨0⟩, ⟨1⟩]) run nofun (by decide +kernel)
  have run := mutates (.alloc 2) (.allocated [⟨2⟩, ⟨3⟩]) run nofun (by decide +kernel)
  have run := mutates (.setAtomic ⟨2⟩) .done run nofun (by decide +kernel)
  have run := mutates (.setFinalizer ⟨3⟩ .legacy) .done run nofun (by decide +kernel)
  have run := operates (.act (.track ⟨0⟩)) run (by decide +kernel) (by decide +kernel)
  have run := operates (.act (.track ⟨1⟩)) run (by decide +kernel) (by decide +kernel)
  have run := operates (.act (.track ⟨2⟩)) run (by decide +kernel) (by decide +kernel)
  have run := operates (.act (.track ⟨3⟩)) run (by decide +kernel) (by decide +kernel)
  have run := operates (.act (.track ⟨3⟩)) run (by decide +kernel) (by decide +kernel)
  have run := operates (.act .step) run (by decide +kernel) (by decide +kernel)
  have run := mutates (.incref ⟨0⟩) .done run nofun (by decide +kernel)
  have run := operates (.act .step) run (by decide +kernel) (by decide +kernel)
  have run := operates (.act .step) run (by decide +kernel) (by decide +kernel)
  have run := mutates (.decref ⟨0⟩) .done run nofun (by decide +kernel)
  have run := operates .collect run (by decide +kernel) (by decide +kernel)
  have run := mutates (.setFinalizer ⟨3⟩ .modern) .done run nofun (by decide +kernel)
  have run := operates .collect run (by decide +kernel) (by decide +kernel)
  have run := operates (.act (.untrack ⟨3⟩)) run (by decide +kernel) (by decide +kernel)
  obtain ⟨tracked, -, -, -, -, operated, -⟩ := census_of_run run
  exact ⟨_, by decide +kernel, by decide +kernel, by decide +kernel, tracked, by decide +kernel,
    by decide +kernel, by decide +kernel, by decide +kernel, by decide +kernel, operated .collect⟩

end CensusRun

end CycleCollector
