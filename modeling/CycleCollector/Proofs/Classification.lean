import CycleCollector.Proofs.Resurrection
import CycleCollector.Proofs.Garbage
/-!
# How a consistent pass sorts its dead objects

The dead objects of a pass are split twice. Those that a legacy finalizer keeps, by itself or
through references between dead objects, go back to the objects in collection; the finalizers
themselves are reported. Then one modern finalizer among the rest decides for all of it: the rest
waits, or is released. Both splits keep the order in which the objects stood in collection.

## Main definitions

* `ForeignHeap.ofKind`: the objects of a list with a given finalizer.
* `ForeignHeap.afterReports`: a foreign heap that was told of its legacy finalizers.
* `World.Sorts`: how the dead objects of a pass are sorted.

## Main statements

* `World.sorts_of_finishPass`: a pass that does not fail sorts its dead objects.
* `World.Sorts.logs`: what an arena learns of that.
* `World.sorts_of_run`: so does every pass of every run.
-/

namespace CycleCollector

namespace ForeignHeap

variable {ρ : Type} [ForeignHeap ρ] {foreign : ρ} {kind : Finalizer} {os ps : List ObjectId}

def ofKind (foreign : ρ) (kind : Finalizer) (os : List ObjectId) : List ObjectId :=
  os.filter fun o => finalizer foreign o = .ok kind

/-- The heap after it was told, one by one, of the legacy finalizers among some objects. -/
def afterReports (foreign : ρ) (os : List ObjectId) : ρ :=
  (ofKind foreign .legacy os).foldl noteLegacyGarbage foreign

theorem withFinalizer_eq (found : withFinalizer foreign kind os = .ok ps) :
    ps = ofKind foreign kind os := by
  rw [(select_eq_ok.1 found).2]
  refine List.filter_congr fun o _ => ?_
  cases finalizer foreign o <;> simp [bind, Except.bind, pure, Except.pure]

/-- A search from the legacy finalizers meets no object twice. -/
theorem nodup_retained {legacy reached : List ObjectId} (nodup : os.Nodup)
    (found : withFinalizer foreign .legacy os = .ok legacy)
    (searched : reach foreign (os.filter (· ∉ legacy)) legacy.reverse = .ok reached) :
    (legacy ++ reached).Nodup := by
  obtain ⟨left, perm⟩ := perm_of_reach searched
  have others : (reached ++ left).Nodup := perm.nodup_iff.2 (nodup.filter _)
  rw [List.nodup_append]
  refine ⟨?_, (List.nodup_append.1 others).1, fun o first p second same => ?_⟩
  · rw [withFinalizer_eq found]
    exact nodup.filter _
  · have other := perm.mem_iff.1 (List.mem_append_left left second)
    simp [← same, first] at other

end ForeignHeap

namespace Arena

variable (a : Arena) (os ps : List ObjectId)

theorem afterReports_eq : ForeignHeap.afterReports a os =
    { a with legacyGarbage := a.legacyGarbage ++ ForeignHeap.ofKind a .legacy os } :=
  a.foldl_noteLegacyGarbage _

theorem ofKind_afterReports (kind : Finalizer) :
    ForeignHeap.ofKind (ForeignHeap.afterReports a os) kind ps = ForeignHeap.ofKind a kind ps := by
  rw [afterReports_eq]
  rfl

end Arena

namespace World

open ForeignHeap

variable {ρ : Type} [ForeignHeap ρ] {w w₁ w' : World ρ} {s : Snapshot} {dead kept : List ObjectId}
  {n : Nat} {outcome : Outcome} {stats : Stats} {host : HostHeap}

/-- How a pass from `w` to `w'` sorts its dead objects: those in `kept` stay in collection, and the
rest, all of it, is isolated or released. -/
structure Sorts (w : World ρ) (dead kept : List ObjectId) (w' : World ρ) : Prop where
  once : kept.Nodup
  retained : ∀ o, o ∈ kept ↔ Retained w.foreign dead o
  inCollection : w'.collector.sets.members .inCollection =
    (w.collector.sets.members .inCollection).filter (· ∉ dead) ++ kept
  counts : ∀ o ∈ kept, w'.collector.sets.gcRefs o = some 1
  new : w'.collector.sets.members .new = w.collector.sets.members .new
  staged : w'.collector.sets.members .staged = []
  isolates : ∀ rest, rest = dead.filter (· ∉ kept) →
    ofKind (afterReports w.foreign dead) .modern rest ≠ [] →
      w'.collector.sets.members .isolated = w.collector.sets.members .isolated ++ rest ∧
      w'.foreign = scheduleFinalizers (afterReports w.foreign dead)
        (ofKind (afterReports w.foreign dead) .modern rest) ∧
      w'.collector.lastOutcome =
        some (.collected 0 rest.length (ofKind w.foreign .legacy dead).length)
  releases : ∀ rest, rest = dead.filter (· ∉ kept) →
    ofKind (afterReports w.foreign dead) .modern rest = [] →
      w'.collector.sets.members .isolated = w.collector.sets.members .isolated ∧
      (∀ o ∈ rest, w'.collector.sets.contains o = false) ∧
      releaseAll (afterReports w.foreign dead) rest = .ok w'.foreign ∧
      w'.collector.lastOutcome =
        some (.collected rest.length 0 (ofKind w.foreign .legacy dead).length)

/-! ## Disposing in order -/

/-- Keeping objects for their legacy finalizers, with the order of the reports. -/
theorem keeps_in_order (done : w.keepLegacy = .ok (n, w₁)) : ∃ kept, Keeps w kept w₁ ∧ kept.Nodup ∧
    n = (ofKind w.foreign .legacy (w.collector.sets.members .staged)).length ∧
    w₁.foreign = afterReports w.foreign (w.collector.sets.members .staged) := by
  obtain ⟨legacy, reached, _, found, searched, rfl, rfl⟩ := keepLegacy_eq_ok done
  have same := withFinalizer_eq found
  refine ⟨_, keeps_of_reach found searched, ?_, by rw [same], by rw [afterReports, ← same]⟩
  exact nodup_retained (TrackedSets.nodup_members ..) found searched

omit [ForeignHeap ρ] in
@[simp] theorem sets_endPass (w : World ρ) (outcome : Outcome) :
    (w.endPass outcome).collector.sets = w.collector.sets := rfl

omit [ForeignHeap ρ] in
theorem filter_staged (w : World ρ) : (w.collector.sets.members .inCollection).filter
    (· ∉ w.collector.sets.members .staged) = w.collector.sets.members .inCollection := by
  refine List.filter_eq_self.2 fun o mem => ?_
  rw [TrackedSets.mem_members] at mem
  simp [TrackedSets.mem_members, mem]

theorem Keeps.apart (keeps : Keeps w kept w₁) :
    ∀ o ∈ kept, o ∉ w.collector.sets.members .inCollection := by
  intro o mem
  rw [TrackedSets.mem_members, TrackedSets.mem_members.1 (keeps.subset o mem)]
  simp

/-- What is kept comes back behind the objects that are not staged. -/
theorem Keeps.inCollection (keeps : Keeps w kept w₁) (once : kept.Nodup) :
    w₁.collector.sets.members .inCollection =
      w.collector.sets.members .inCollection ++ kept := by
  rw [keeps.sets, TrackedSets.members_keepAll_inCollection once keeps.tracked keeps.apart]

/-- With no modern finalizer among the rest, the rest is released. -/
theorem Keeps.sorts_of_release {foreign : ρ} (keeps : Keeps w kept w₁) (once : kept.Nodup)
    (reported : w₁.foreign = afterReports w.foreign (w.collector.sets.members .staged))
    (none : ofKind w₁.foreign .modern (w₁.collector.sets.members .staged) = [])
    (done : releaseAll w₁.foreign (w₁.collector.sets.members .staged) = .ok foreign) :
    w.Sorts (w.collector.sets.members .staged) kept (endPass
      { collector := { w₁.collector with sets := w₁.collector.sets.cleared .staged, stats }
        foreign
        host }
      (.collected (w₁.collector.sets.members .staged).length 0
        (ofKind w.foreign .legacy (w.collector.sets.members .staged)).length)) := by
  have rest : ∀ rest, rest = (w.collector.sets.members .staged).filter (· ∉ kept) →
      rest = w₁.collector.sets.members .staged := fun rest same => same.trans keeps.staged.symm
  constructor
  case once => exact once
  case retained => exact keeps.retained
  case inCollection =>
    rw [filter_staged]
    simp [keeps.inCollection once]
  case counts =>
    intro o mem
    have stays := TrackedSets.mem_members.1 ((keeps.mem_inCollection o).2 (.inr mem))
    rw [sets_endPass, TrackedSets.gcRefs_cleared (by simp [stays]), keeps.gcRefs, if_pos mem]
  case new => simp [endPass, keeps.members_eq]
  case staged => simp [endPass]
  case isolates =>
    intro others same some
    rw [rest others same, ← reported] at some
    exact absurd none some
  case releases =>
    intro others same _
    rw [rest others same, ← reported]
    refine ⟨by simp [endPass, keeps.members_eq], fun o mem => ?_, done, rfl⟩
    refine Bool.eq_false_iff.2 fun tracked => ?_
    obtain ⟨r, left⟩ := TrackedSets.contains_iff_exists_mem.1 tracked
    rw [sets_endPass, TrackedSets.members_cleared] at left
    split at left
    · simp at left
    · next ne =>
      rw [TrackedSets.mem_members] at left mem
      exact ne (Option.some.inj (mem.symm.trans left))

/-- With some modern finalizer among the rest, the rest is isolated. -/
theorem Keeps.sorts_of_isolate (keeps : Keeps w kept w₁) (once : kept.Nodup)
    (reported : w₁.foreign = afterReports w.foreign (w.collector.sets.members .staged))
    (some : ofKind w₁.foreign .modern (w₁.collector.sets.members .staged) ≠ []) :
    w.Sorts (w.collector.sets.members .staged) kept (endPass
      { collector := { w₁.collector with
          sets := (w₁.collector.sets.merged .staged .isolated).cleared .staged, stats }
        foreign := scheduleFinalizers w₁.foreign
          (ofKind w₁.foreign .modern (w₁.collector.sets.members .staged))
        host }
      (.collected 0 (w₁.collector.sets.members .staged).length
        (ofKind w.foreign .legacy (w.collector.sets.members .staged)).length)) := by
  have rest : ∀ rest, rest = (w.collector.sets.members .staged).filter (· ∉ kept) →
      rest = w₁.collector.sets.members .staged := fun rest same => same.trans keeps.staged.symm
  have members := fun r => TrackedSets.members_merged (show Role.staged ≠ .isolated by decide)
    w₁.collector.sets r
  constructor
  case once => exact once
  case retained => exact keeps.retained
  case inCollection =>
    rw [filter_staged]
    simp [members, keeps.inCollection once]
  case counts =>
    intro o mem
    have stays : o ∈ (w₁.collector.sets.merged .staged .isolated).members .inCollection := by
      simp [members, (keeps.mem_inCollection o).2 (.inr mem)]
    rw [sets_endPass, TrackedSets.gcRefs_cleared (by simp [TrackedSets.mem_members.1 stays]),
      TrackedSets.gcRefs_merged, keeps.gcRefs, if_pos mem]
  case new => simp [endPass, members, keeps.members_eq]
  case staged => simp [endPass]
  case isolates =>
    intro others same _
    rw [rest others same, ← reported]
    exact ⟨by simp [endPass, members, keeps.members_eq], rfl, rfl⟩
  case releases =>
    intro others same none
    rw [rest others same, ← reported] at none
    exact absurd none some

/-- Disposing of the staged objects sorts them. -/
theorem sorts_of_disposeStaged (disposed : w.disposeStaged = .ok (outcome, w')) :
    ∃ kept, w.Sorts (w.collector.sets.members .staged) kept (w'.endPass outcome) := by
  obtain ⟨_, w₁, _, w₂, w₃, _, kept, isolated, marked, released, rfl⟩ :=
    disposeStaged_eq_ok.1 disposed
  obtain ⟨os, keeps, once, rfl, reported⟩ := keeps_in_order kept
  obtain ⟨modern, found, isolated⟩ := isolateFinalizable_eq_ok isolated
  obtain ⟨bridges, _, -, rfl⟩ := marks_of_markBorder marked
  obtain ⟨foreign, _, rfl, done, rfl⟩ := releaseStaged_eq_ok released
  obtain rfl := withFinalizer_eq found
  rcases isolated with ⟨none, rfl, rfl⟩ | ⟨some, rfl, _, rfl⟩
  · exact ⟨os, keeps.sorts_of_release once reported none done⟩
  · have nothing : (w₁.collector.sets.merged .staged .isolated).members .staged = [] := by
      simp [TrackedSets.members_merged]
    obtain rfl : foreign = _ := by
      simpa [nothing, releaseAll, pure, Except.pure, eq_comm] using done
    refine ⟨os, ?_⟩
    simpa only [nothing, List.length_nil] using keeps.sorts_of_isolate once reported some

/-- A pass that does not fail sorts the objects that its snapshot found dead. -/
theorem sorts_of_finishPass (orderly : w.collector.Orderly) (taken : w.collector.snapshot? = some s)
    (finished : w.finishPass = .ok w') (consistent : w'.collector.lastOutcome ≠ some .resurrected) :
    ∃ kept, w.Sorts ((w.collector.sets.members .inCollection).filter s.findsDead) kept w' := by
  obtain ⟨_, verdict, sets, outcome, v, taken', judged, disposed, rfl⟩ := finishPass_eq_ok finished
  obtain rfl := Option.some.inj (taken.symm.trans taken')
  cases verdict with
  | inconsistent => simp [endPass] at consistent
  | consistent =>
    obtain ⟨-, -, rfl⟩ := Snapshot.judge_consistent judged
    have members := s.members_enterAll_inCollection orderly.staged
    obtain ⟨kept, sorts⟩ := sorts_of_disposeStaged disposed
    simp only [sets_discardSnapshot, members, if_true] at sorts
    refine ⟨kept, ?_⟩
    constructor
    case once => exact sorts.once
    case retained => exact sorts.retained
    case inCollection =>
      refine sorts.inCollection.trans (congrArg (· ++ kept) ?_)
      simp only [sets_discardSnapshot, members, reduceCtorEq, if_false, if_true, List.filter_filter]
      refine List.filter_congr fun o mem => ?_
      simp [mem]
    case counts => exact sorts.counts
    case new => simpa [members] using sorts.new
    case staged => exact sorts.staged
    case isolates => simpa [members] using sorts.isolates
    case releases => simpa [members] using sorts.releases

/-! ## The logs of an arena -/

/-- An arena has a log for each way an object can go. -/
theorem Sorts.logs {w w' : World Arena} (sorts : w.Sorts dead kept w') {rest modern : List ObjectId}
    (others : rest = dead.filter (· ∉ kept)) (scheduled : modern = ofKind w.foreign .modern rest) :
    w'.foreign.legacyGarbage = w.foreign.legacyGarbage ++ ofKind w.foreign .legacy dead ∧
    w'.foreign.scheduled = w.foreign.scheduled ++ modern ∧
    w'.foreign.released = w.foreign.released ++ (if modern = [] then rest else []) := by
  have same : ofKind (afterReports w.foreign dead) .modern rest = modern := by
    rw [scheduled, Arena.ofKind_afterReports]
  by_cases none : modern = []
  · obtain ⟨-, -, released, -⟩ := sorts.releases rest others (same.trans none)
    obtain ⟨_, logs⟩ := Arena.exists_cells_of_releaseAll released
    simp [logs, none, Arena.afterReports_eq]
  · obtain ⟨-, informed, -⟩ := sorts.isolates rest others (same ▸ none)
    rw [same] at informed
    simp [informed, none, Arena.afterReports_eq, scheduleFinalizers]

/-! ## Every run -/

/-- The end of a marked pass that is consistent sorts the dead objects of its snapshot. Those that
legacy finalizers keep, through references between dead objects, stay in collection behind all
others; the rest is isolated if some of it has a modern finalizer, and released if none has. -/
theorem sorts_of_run {options : Options} {foreign : ρ} {host : HostHeap} {actions : List (Action ρ)}
    {finished : Bool} (ran : run { collector := { options }, foreign, host } actions = .ok w)
    (marked : w.collector.phase = .marked) (stepped : w.step = .ok (finished, w'))
    (consistent : w'.collector.lastOutcome ≠ some .resurrected) :
    finished = true ∧ ∃ s kept, w.collector.snapshot? = some s ∧
      w.Sorts ((w.collector.sets.members .inCollection).filter s.findsDead) kept w' := by
  have orderly := orderly_of_run ran (.start options)
  have inPass := orderly.inPass
  rw [marked] at inPass
  obtain ⟨s, taken⟩ := Option.isSome_iff_exists.1 inPass
  cases step_eq_ok.1 stepped with
  | finish _ ended =>
    obtain ⟨kept, sorts⟩ := sorts_of_finishPass orderly taken ended consistent
    exact ⟨rfl, s, kept, taken, sorts⟩
  | start idle => simp [marked] at idle
  | mark marking => simp [marked] at marking
  | sweep due => simp [marked] at due

/-- A legacy finalizer keeps an object that waits behind a modern one too; a second legacy finalizer
keeps itself alone. The modern finalizer holds back its own cycle and nothing else. -/
theorem sorts_of_run_mixed :
    let arena : Arena := { cells := #[
      { refcount := 1, references := [⟨1⟩], finalizer := .legacy },
      { refcount := 2, references := [⟨0⟩] },
      { refcount := 1, references := [⟨1⟩, ⟨3⟩], finalizer := .modern },
      { refcount := 1, references := [⟨2⟩] },
      { refcount := 2, references := [⟨4⟩], finalizer := .modern },
      { refcount := 1, references := [⟨5⟩], finalizer := .legacy }] }
    let start : World Arena := { foreign := arena }
    let w := start.after
      [.track ⟨2⟩, .track ⟨0⟩, .track ⟨3⟩, .track ⟨1⟩, .track ⟨4⟩, .track ⟨5⟩, .step, .step]
    ∃ w' kept, w.step = .ok (true, w') ∧ w.Sorts [⟨2⟩, ⟨0⟩, ⟨3⟩, ⟨1⟩, ⟨5⟩] kept w' ∧
      w'.collector.sets.members .inCollection = [⟨4⟩, ⟨0⟩, ⟨5⟩, ⟨1⟩] ∧
      w'.collector.sets.members .isolated = [⟨2⟩, ⟨3⟩] ∧
      w'.foreign.legacyGarbage = [⟨0⟩, ⟨5⟩] ∧ w'.foreign.scheduled = [⟨2⟩] ∧
      w'.foreign.released = [] ∧ w'.collector.lastOutcome = some (.collected 0 2 2) := by
  intro arena start w
  have ran : start.run
      [.track ⟨2⟩, .track ⟨0⟩, .track ⟨3⟩, .track ⟨1⟩, .track ⟨4⟩, .track ⟨5⟩, .step, .step] =
        .ok w := by decide +kernel
  have stepped : w.step = .ok (true, w.after [.step]) := by decide +kernel
  obtain ⟨-, s, kept, taken, sorts⟩ :=
    sorts_of_run ran (by decide +kernel) stepped (by decide +kernel)
  have dead : (w.collector.snapshot?.map fun s =>
      (w.collector.sets.members .inCollection).filter s.findsDead) =
        some [⟨2⟩, ⟨0⟩, ⟨3⟩, ⟨1⟩, ⟨5⟩] := by decide +kernel
  rw [taken, Option.map_some, Option.some.injEq] at dead
  rw [dead] at sorts
  exact ⟨_, kept, stepped, sorts, by decide +kernel⟩

end World

end CycleCollector
