import CycleCollector.Proofs.Draining
import CycleCollector.Proofs.Findings
import CycleCollector.Proofs.ReleaseOrder
/-!
# Passes agree

Two worlds are *alike* if they differ in nothing but the order in which things are listed. Each
stage that ends a pass leaves alike worlds alike, so two undisturbed passes over them end alike:
marking finds the same objects in both, whatever the options say about its pace, and the outcomes
are the same.

## Main definitions

* `World.Alike`: worlds that differ in order.

## Main statements

* `World.Alike.disposeStaged`: the staged objects of alike worlds go the same ways.
* `World.Alike.agree`: passes over alike worlds end alike.
-/

namespace CycleCollector

/-! ## The foreign heap -/

section Foreign

variable {a b : Arena} {kind : Finalizer} {os os' ps ps' : List ObjectId} {o : ObjectId}

theorem Arena.reports_of_releaseAll (done : ForeignHeap.releaseAll a os = .ok b) :
    b.legacyGarbage = a.legacyGarbage ∧ b.scheduled = a.scheduled := by
  obtain ⟨_, rfl⟩ := exists_cells_of_releaseAll done
  exact ⟨rfl, rfl⟩

namespace ForeignHeap

theorem perm_withFinalizer (same : b.cells = a.cells) (perm : os'.Perm os)
    (found : withFinalizer a kind os = .ok ps) (found' : withFinalizer b kind os' = .ok ps') :
    ps'.Perm ps := by
  have finalizers : finalizer b = finalizer a := funext fun o => Arena.finalizer_congr same o
  rw [withFinalizer, finalizers] at found'
  rw [(select_eq_ok.1 found).2, (select_eq_ok.1 found').2]
  exact perm.filter _

/-- What stays for a legacy finalizer depends on what is dead and on the objects, in no order. -/
theorem Retained.congr {dead dead' : List ObjectId} (same : b.cells = a.cells)
    (perm : dead'.Perm dead) (retained : Retained a dead o) : Retained b dead' o := by
  induction retained with
  | legacy mem own =>
    exact .legacy (perm.mem_iff.2 mem) ((Arena.finalizer_congr same _).trans own)
  | reference _ refs refers mem ih =>
    exact .reference ih ((Arena.references_congr same _).trans refs) refers (perm.mem_iff.2 mem)

end ForeignHeap

end Foreign

theorem TrackedSets.gcRefs_cleared_eq_ite (s : TrackedSets) (r : Role) (o : ObjectId) :
    (s.cleared r).gcRefs o = if o ∈ s.members r then none else s.gcRefs o := by
  split
  · next mem =>
    refine Option.not_isSome_iff_eq_none.1 fun here => ?_
    rw [isSome_gcRefs] at here
    obtain ⟨r', there⟩ := contains_iff_exists_mem.1 here
    rw [members_cleared] at there
    split at there
    · simp at there
    · next ne =>
      exact ne (Option.some.inj ((mem_members.1 mem).symm.trans (mem_members.1 there)))
  · next apart => exact gcRefs_cleared fun role => apart (mem_members.2 role)

/-! ## Alike worlds -/

namespace World

/-- Two worlds that differ in nothing but the order in which things are listed, and in what the
collector knows of its passes. -/
structure Alike (w u : World Arena) : Prop where
  cells : u.foreign.cells = w.foreign.cells
  released : u.foreign.released.Perm w.foreign.released
  legacyGarbage : u.foreign.legacyGarbage.Perm w.foreign.legacyGarbage
  scheduled : u.foreign.scheduled.Perm w.foreign.scheduled
  members : ∀ r o, o ∈ u.collector.sets.members r ↔ o ∈ w.collector.sets.members r
  counts : ∀ o, (u.collector.sets.gcRefs o).any (0 < ·) = (w.collector.sets.gcRefs o).any (0 < ·)
  objects : u.host.objects = w.host.objects
  waiting : ∀ h, h ∈ u.host.worklist ↔ h ∈ w.host.worklist

variable {w u w' u' w₁ u₁ : World Arena} {s₀ s t₀ t : Snapshot} {n m : Nat} {evidence : Evidence}
  {outcome outcome' : Outcome} {x : Node}

namespace Alike

theorem symm (alike : Alike w u) : Alike u w where
  cells := alike.cells.symm
  released := alike.released.symm
  legacyGarbage := alike.legacyGarbage.symm
  scheduled := alike.scheduled.symm
  members r o := (alike.members r o).symm
  counts o := (alike.counts o).symm
  objects := alike.objects.symm
  waiting h := (alike.waiting h).symm

theorem perm_members (alike : Alike w u) (r : Role) :
    (u.collector.sets.members r).Perm (w.collector.sets.members r) :=
  (List.perm_ext_iff_of_nodup (TrackedSets.nodup_members ..) (TrackedSets.nodup_members ..)).2
    (alike.members r)

/-! ### Disposing of staged objects -/

theorem keepLegacy (alike : Alike w u) (kept : w.keepLegacy = .ok (n, w'))
    (kept' : u.keepLegacy = .ok (m, u')) : m = n ∧ Alike w' u' := by
  obtain ⟨os, keeps⟩ := keeps_of_keepLegacy kept
  obtain ⟨os', keeps'⟩ := keeps_of_keepLegacy kept'
  have kept_iff : ∀ o, o ∈ os' ↔ o ∈ os := fun o => by
    rw [keeps.retained, keeps'.retained]
    exact ⟨.congr alike.cells.symm (alike.perm_members .staged).symm,
      .congr alike.cells (alike.perm_members .staged)⟩
  simp only [World.keepLegacy, bind_eq_ok, pure_eq_ok] at kept kept'
  obtain ⟨legacy, found, reached, searched, kept⟩ := kept
  obtain ⟨legacy', found', reached', searched', kept'⟩ := kept'
  obtain ⟨rfl, rfl⟩ := Prod.mk.inj kept
  obtain ⟨rfl, rfl⟩ := Prod.mk.inj kept'
  have perm := ForeignHeap.perm_withFinalizer alike.cells (alike.perm_members .staged) found found'
  refine ⟨perm.length_eq, ?_⟩
  constructor
  case cells => simpa [withSets, count, Arena.foldl_noteLegacyGarbage] using alike.cells
  case released => simpa [withSets, count, Arena.foldl_noteLegacyGarbage] using alike.released
  case legacyGarbage =>
    simpa [withSets, count, Arena.foldl_noteLegacyGarbage] using alike.legacyGarbage.append perm
  case scheduled => simpa [withSets, count, Arena.foldl_noteLegacyGarbage] using alike.scheduled
  case members =>
    intro r o
    rw [keeps.sets, keeps'.sets, TrackedSets.mem_members_keepAll keeps.tracked,
      TrackedSets.mem_members_keepAll keeps'.tracked, alike.members]
    simp only [kept_iff]
  case counts =>
    intro o
    rw [keeps.gcRefs, keeps'.gcRefs]
    simp only [kept_iff]
    split
    · rfl
    · exact alike.counts o
  case objects => exact alike.objects
  case waiting => exact alike.waiting

theorem isolateFinalizable (alike : Alike w u) (isolated : w.isolateFinalizable = .ok (n, w'))
    (isolated' : u.isolateFinalizable = .ok (m, u')) : m = n ∧ Alike w' u' := by
  obtain ⟨modern, found, isolated⟩ := isolateFinalizable_eq_ok isolated
  obtain ⟨modern', found', isolated'⟩ := isolateFinalizable_eq_ok isolated'
  have staged := alike.perm_members .staged
  have perm := ForeignHeap.perm_withFinalizer alike.cells staged found found'
  rcases isolated with ⟨rfl, rfl, rfl⟩ | ⟨some, rfl, _, rfl⟩
  · obtain rfl := perm.eq_nil
    obtain ⟨-, rfl, rfl⟩ | ⟨some, -⟩ := isolated'
    · exact ⟨rfl, alike⟩
    · exact absurd rfl some
  · obtain ⟨rfl, -⟩ | ⟨-, rfl, _, rfl⟩ := isolated'
    · exact absurd perm.symm.eq_nil some
    · refine ⟨staged.length_eq, ⟨alike.cells, alike.released, alike.legacyGarbage,
        alike.scheduled.append perm, fun r o => ?_, fun o => ?_, alike.objects, alike.waiting⟩⟩
      · simp only [TrackedSets.members_merged (show Role.staged ≠ .isolated by decide)]
        grind [alike.members]
      · simpa using alike.counts o

/-- Border marking hands the same host objects over. -/
theorem marks (alike : Alike w u) {h : HostRef} (marks : w.Marks evidence h) :
    u.Marks evidence h := by
  have held : ∀ o evidence, u.isHeld o evidence = w.isHeld o evidence := by
    intro o evidence
    cases evidence with
    | cyclicCount => exact congrArg Except.ok (alike.counts o)
    | rawCount =>
      simp only [isHeld, Arena.foreign_refcount, Arena.refcount_congr alike.cells]
  obtain ⟨o, bridged, reason⟩ := marks
  refine ⟨o, ?_, ?_⟩
  · rwa [Arena.foreign_bridge, Arena.bridge_congr alike.cells]
  · simpa only [alike.members, held] using reason

theorem markBorder (alike : Alike w u) (marked : w.markBorder evidence = .ok w')
    (marked' : u.markBorder evidence = .ok u') : Alike w' u' := by
  obtain ⟨bridges, _, handed, rfl⟩ := marks_of_markBorder marked
  obtain ⟨bridges', _, handed', rfl⟩ := marks_of_markBorder marked'
  refine ⟨alike.cells, alike.released, alike.legacyGarbage, alike.scheduled, alike.members,
    alike.counts, ?_, fun h => ?_⟩
  · simpa using alike.objects
  · simp only [HostHeap.mem_worklist_promoteAll, handed, handed', alike.waiting]
    exact or_congr_left ⟨alike.symm.marks, alike.marks⟩

theorem releaseStaged (alike : Alike w u) (done : w.releaseStaged = .ok (n, w'))
    (done' : u.releaseStaged = .ok (m, u')) : m = n ∧ Alike w' u' := by
  simp only [World.releaseStaged, bind_eq_ok, pure_eq_ok] at done done'
  obtain ⟨a, released, done⟩ := done
  obtain ⟨b, released', done'⟩ := done'
  obtain ⟨rfl, rfl⟩ := Prod.mk.inj done
  obtain ⟨rfl, rfl⟩ := Prod.mk.inj done'
  have perm := alike.perm_members .staged
  obtain ⟨legacy, scheduled⟩ := Arena.reports_of_releaseAll released
  obtain ⟨legacy', scheduled'⟩ := Arena.reports_of_releaseAll released'
  refine ⟨perm.length_eq, ?_⟩
  constructor
  case cells =>
    exact Arena.cells_of_perm_releaseAll alike.cells perm.symm
      (TrackedSets.nodup_members ..) released released'
  case released =>
    rw [Arena.released_of_releaseAll released, Arena.released_of_releaseAll released']
    exact alike.released.append perm
  case legacyGarbage =>
    rw [legacy, legacy']
    exact alike.legacyGarbage
  case scheduled =>
    rw [scheduled, scheduled']
    exact alike.scheduled
  case members =>
    intro r o
    simp only [withSets, count, TrackedSets.members_cleared]
    split
    · simp
    · exact alike.members r o
  case counts =>
    intro o
    simp only [withSets, count, TrackedSets.gcRefs_cleared_eq_ite, alike.members]
    split
    · rfl
    · exact alike.counts o
  case objects => exact alike.objects
  case waiting => exact alike.waiting

/-- The staged objects of alike worlds go the same ways. -/
theorem disposeStaged (alike : Alike w u) (disposed : w.disposeStaged = .ok (outcome, w'))
    (disposed' : u.disposeStaged = .ok (outcome', u')) : outcome' = outcome ∧ Alike w' u' := by
  obtain ⟨_, w₁, _, w₂, w₃, _, kept, isolated, marked, released, rfl⟩ :=
    disposeStaged_eq_ok.1 disposed
  obtain ⟨_, u₁, _, u₂, u₃, _, kept', isolated', marked', released', rfl⟩ :=
    disposeStaged_eq_ok.1 disposed'
  obtain ⟨rfl, alike⟩ := alike.keepLegacy kept kept'
  obtain ⟨rfl, alike⟩ := alike.isolateFinalizable isolated isolated'
  have alike := alike.markBorder marked marked'
  obtain ⟨rfl, alike⟩ := alike.releaseStaged released released'
  exact ⟨rfl, alike⟩

/-- If the objects are staged in the same order too, there is no difference in the end. -/
theorem foreign_of_disposeStaged (foreign : u.foreign = w.foreign)
    (staged : u.collector.sets.members .staged = w.collector.sets.members .staged)
    (disposed : w.disposeStaged = .ok (outcome, w'))
    (disposed' : u.disposeStaged = .ok (outcome', u')) : u'.foreign = w'.foreign := by
  obtain ⟨_, w₁, _, w₂, w₃, _, kept, isolated, marked, released, -⟩ :=
    disposeStaged_eq_ok.1 disposed
  obtain ⟨_, u₁, _, u₂, u₃, _, kept', isolated', marked', released', -⟩ :=
    disposeStaged_eq_ok.1 disposed'
  have first : u₁.foreign = w₁.foreign ∧
      u₁.collector.sets.members .staged = w₁.collector.sets.members .staged := by
    obtain ⟨os, keeps⟩ := keeps_of_keepLegacy kept
    obtain ⟨os', keeps'⟩ := keeps_of_keepLegacy kept'
    have kept_iff : ∀ o, o ∈ os' ↔ o ∈ os := fun o => by
      rw [keeps.retained, keeps'.retained, foreign, staged]
    refine ⟨?_, ?_⟩
    · obtain ⟨legacy, reached, _, found, -, -, rfl⟩ := keepLegacy_eq_ok kept
      obtain ⟨legacy', reached', _, found', -, -, rfl⟩ := keepLegacy_eq_ok kept'
      rw [foreign, staged] at found'
      obtain rfl := Except.ok.inj (found.symm.trans found')
      rw [foreign]
    · rw [keeps.staged, keeps'.staged, staged]
      simp only [kept_iff]
  have second : u₂.foreign = w₂.foreign ∧
      u₂.collector.sets.members .staged = w₂.collector.sets.members .staged := by
    obtain ⟨modern, found, isolated⟩ := isolateFinalizable_eq_ok isolated
    obtain ⟨modern', found', isolated'⟩ := isolateFinalizable_eq_ok isolated'
    rw [first.1, first.2] at found'
    obtain rfl := Except.ok.inj (found.symm.trans found')
    rcases isolated with ⟨none, -, rfl⟩ | ⟨some, -, _, rfl⟩
    · obtain ⟨-, -, rfl⟩ | ⟨some, -⟩ := isolated'
      · exact first
      · exact absurd none some
    · obtain ⟨none, -⟩ | ⟨-, -, _, rfl⟩ := isolated'
      · exact absurd none some
      · simp [first.1, TrackedSets.members_merged]
  obtain ⟨_, _, -, rfl⟩ := marks_of_markBorder marked
  obtain ⟨_, _, -, rfl⟩ := marks_of_markBorder marked'
  obtain ⟨a, _, -, done, rfl⟩ := releaseStaged_eq_ok released
  obtain ⟨b, _, -, done', rfl⟩ := releaseStaged_eq_ok released'
  dsimp only at done done' ⊢
  rw [second.1, second.2] at done'
  exact Except.ok.inj (done'.symm.trans done)

/-! ### Whole passes -/

theorem perm_candidates (alike : Alike w u) : u.candidates.Perm w.candidates := by
  refine (List.perm_ext_iff_of_nodup u.nodup_candidates w.nodup_candidates).2 fun o => ?_
  simp only [candidates, TrackedSets.members_merged (show Role.new ≠ .inCollection by decide),
    if_true, List.mem_append, alike.members]

/-- What is alive in one of two alike worlds is alive in the other. -/
theorem alive (alike : Alike w u) (alive : w.Alive x) : u.Alive x := by
  have candidate : ∀ {o}, o ∈ w.candidates → o ∈ u.candidates := alike.perm_candidates.mem_iff.2
  have bridge : ∀ o, u.foreign.bridge o = w.foreign.bridge o := Arena.bridge_congr alike.cells
  induction alive with
  | held mem count left =>
    refine .held (candidate mem) ((Arena.refcount_congr alike.cells _).trans count) ?_
    rwa [Arena.storedIn_congr alike.cells, Arena.storedIn_perm alike.perm_candidates]
  | known mem bridged known =>
    exact .known (candidate mem) ((bridge _).trans bridged) (alike.objects ▸ known)
  | reference _ refers mem ih =>
    exact ih.reference (Arena.referencesOf_congr alike.cells _ ▸ refers) (candidate mem)
  | across _ bridged ih => exact ih.across ((bridge _).trans bridged)
  | back _ mem bridged ih => exact ih.back (candidate mem) ((bridge _).trans bridged)
  | listed mem => exact .listed ((alike.waiting _).2 mem)
  | edge _ unmarked edge ih => exact ih.edge (alike.objects ▸ unmarked) (alike.objects ▸ edge)

theorem alive_iff (alike : Alike w u) : u.Alive x ↔ w.Alive x := ⟨alike.symm.alive, alike.alive⟩

theorem covered (alike : Alike w u) (covered : w.Covered) : u.Covered := by
  intro o mem n bridge b count bridged reached
  rw [Arena.refcount_congr alike.cells] at count
  rw [Arena.bridge_congr alike.cells] at bridged
  rw [HostHeap.reaches_congr alike.objects] at reached
  rw [Arena.storedIn_congr alike.cells, Arena.storedIn_perm alike.perm_candidates]
  exact covered o (alike.perm_candidates.mem_iff.1 mem) n bridge b count bridged reached

section Passes

variable (alike : Alike w u) (passes : Passes w w s₀ s w₁ w') (passes' : Passes u u t₀ t u₁ u')

include alike passes passes'

theorem findsDead_eq {o : ObjectId} (mem : o ∈ w.candidates) : t.findsDead o = s.findsDead o := by
  rw [Bool.eq_iff_iff, passes.findsDead_iff mem,
    passes'.findsDead_iff (alike.perm_candidates.mem_iff.2 mem), alike.alive_iff]

/-- When the verdicts of two passes are entered, the worlds are alike again. -/
theorem discardSnapshot :
    Alike (w₁.discardSnapshot
      (s.enterAll w₁.collector.sets (w₁.collector.sets.members .inCollection)))
      (u₁.discardSnapshot
        (t.enterAll u₁.collector.sets (u₁.collector.sets.members .inCollection))) := by
  have dead := fun o => alike.findsDead_eq passes passes' (o := o)
  have candidates := alike.perm_candidates
  have here := passes.members_inCollection
  have there := passes'.members_inCollection
  have members := fun r => Snapshot.members_enterAll_inCollection s passes.orderly.staged r
  have members' := fun r => Snapshot.members_enterAll_inCollection t passes'.orderly.staged r
  constructor
  case cells => simpa [passes.foreign, passes'.foreign] using alike.cells
  case released => simpa [passes.foreign, passes'.foreign] using alike.released
  case legacyGarbage => simpa [passes.foreign, passes'.foreign] using alike.legacyGarbage
  case scheduled => simpa [passes.foreign, passes'.foreign] using alike.scheduled
  case members =>
    intro r o
    have others := alike.members r o
    rw [sets_discardSnapshot, sets_discardSnapshot, members, members', here, there, passes.sets,
      passes'.sets]
    simp only [TrackedSets.members_merged (show Role.new ≠ .inCollection by decide)]
    cases r with
    | staged =>
      simp only [if_true, List.mem_filter, candidates.mem_iff]
      exact and_congr_right fun mem => by rw [dead o mem]
    | inCollection =>
      simp only [reduceCtorEq, if_true, if_false, List.mem_filter, candidates.mem_iff]
      exact and_congr_right fun mem => by rw [dead o mem]
    | new => simp
    | isolated => simpa using others
  case counts =>
    intro o
    have tracked :
        ∀ {sets : TrackedSets}, ∀ o ∈ sets.members .inCollection, sets.contains o = true :=
      fun o => TrackedSets.contains_of_mem_members
    simp only [sets_discardSnapshot]
    rw [Snapshot.gcRefs_enterAll _ (TrackedSets.nodup_members ..) tracked,
      Snapshot.gcRefs_enterAll _ (TrackedSets.nodup_members ..) tracked, here, there, passes.sets,
      passes'.sets, TrackedSets.gcRefs_merged, TrackedSets.gcRefs_merged]
    simp only [candidates.mem_iff]
    split
    · next mem =>
      -- an object counts as held if and only if it was not found dead
      have held : ∀ {s : Snapshot}, s.findsDead o = !((some ((s.recordOf o).elim 1
          Snapshot.Record.external)).any (0 < ·)) := by
        intro s
        cases found : s.recordOf o with
        | none => simp [Snapshot.findsDead, found]
        | some r => simp [Snapshot.findsDead, found, Snapshot.Record.isDead, Nat.pos_iff_ne_zero]
      have same := dead o mem
      rw [held, held] at same
      simpa using same
    · exact alike.counts o
  case objects =>
    have onward := passes.spreads.course.onward
    have onward' := passes'.spreads.course.onward
    refine HostHeap.eq_of_marked_iff (onward'.same.trans ?_) fun h => ?_
    · rw [alike.objects]
      exact onward.same.symm
    · refine (passes'.marked_iff_alive h).trans (.trans ?_ (passes.marked_iff_alive h).symm)
      rw [alike.objects, alike.alive_iff]
  case waiting =>
    intro h
    simp [passes.drained, passes'.drained]

/-- Passes over alike worlds end alike and with the same outcome, and if also the order is the same
they leave the same foreign heap. -/
theorem agree : Alike w' u' ∧ u'.collector.lastOutcome = w'.collector.lastOutcome ∧
    (u.foreign = w.foreign → u.candidates = w.candidates → u'.foreign = w'.foreign) := by
  have dead := fun o => alike.findsDead_eq passes passes' (o := o)
  have entered := alike.discardSnapshot passes passes'
  have here := passes.members_inCollection
  have there := passes'.members_inCollection
  have members := Snapshot.members_enterAll_inCollection s passes.orderly.staged .staged
  have members' := Snapshot.members_enterAll_inCollection t passes'.orderly.staged .staged
  obtain ⟨w₂, host, finished, last, rfl⟩ := passes.ended
  obtain ⟨u₂, host', finished', last', rfl⟩ := passes'.ended
  obtain ⟨_, verdict, sets, outcome, v, taken, judged, disposed, rfl⟩ := finishPass_eq_ok finished
  obtain ⟨_, verdict', sets', outcome', v', taken', judged', disposed', rfl⟩ :=
    finishPass_eq_ok finished'
  obtain rfl := Option.some.inj (passes.snapshot.symm.trans taken)
  obtain rfl := Option.some.inj (passes'.snapshot.symm.trans taken')
  obtain rfl := passes.consistent judged
  obtain rfl := passes'.consistent judged'
  obtain ⟨-, -, rfl⟩ := Snapshot.judge_consistent judged
  obtain ⟨-, -, rfl⟩ := Snapshot.judge_consistent judged'
  obtain ⟨rfl, ended⟩ := entered.disposeStaged disposed disposed'
  refine ⟨⟨ended.cells, ended.released, ended.legacyGarbage, ended.scheduled, ended.members,
    ended.counts, ?_, fun h => ?_⟩, rfl, fun foreign order => ?_⟩
  · exact HostHeap.objects_of_drains ended.objects ended.waiting last last'
  · simp [HostHeap.worklist_of_drain last, HostHeap.worklist_of_drain last']
  · have same : v'.foreign = v.foreign := by
      refine foreign_of_disposeStaged ?_ ?_ disposed disposed'
      · simp [passes.foreign, passes'.foreign, foreign]
      · rw [sets_discardSnapshot, sets_discardSnapshot, members, members', if_pos rfl, if_pos rfl,
          here, there, order]
        exact List.filter_congr dead
    exact same

end Passes

end Alike

end World

end CycleCollector
