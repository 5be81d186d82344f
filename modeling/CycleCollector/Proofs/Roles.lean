import CycleCollector.Proofs.Runs
/-!
# Roles and counts

The end of a pass takes objects through the cyclic count zero and through the staged role, and they
leave it on four ways: released, isolated, kept for a legacy finalizer, or revived because the graph
had changed. On each of them the counts are put right again, so between two actions the role of an
object says whether it counts as alive. Border marking relies on that.

In a pass, moreover, the objects in collection stand in the order of their records. Those that leave
leave gaps, and nothing is added.

## Main definitions

* `Role.Allows`: the cyclic counts that go with a role.
* `TrackedSets.Counted`: every tracked object has a count that its role allows.
* `Collector.Settled`: what every run keeps of roles, counts and order.

## Main statements

* `TrackedSets.Counted.judge`, `World.Disposes.counted`: the end of a pass.
* `World.marks_of_counted`: what border marking makes of the counts.
* `World.settled_of_run`: every run keeps a collector settled.
-/

namespace CycleCollector

/-- The cyclic counts of objects with a role. -/
def Role.Allows : Role → Nat → Prop
  | .new, n => n = 1
  | .inCollection, n => 1 ≤ n
  | .isolated, n | .staged, n => n = 0

namespace TrackedSets

variable {s s' : TrackedSets} {o : ObjectId}

def Counted (s : TrackedSets) : Prop :=
  ∀ r, ∀ o ∈ s.members r, ∃ n, s.gcRefs o = some n ∧ r.Allows n

theorem Counted.insert? (counted : s.Counted) (inserted : s.insert? o .new = some s') :
    s'.Counted := by
  intro r p mem
  rw [members_insert? inserted, List.mem_append] at mem
  rw [gcRefs_insert? inserted]
  rcases mem with mem | mem
  · have other : p ≠ o := by
      rintro rfl
      have tracked := contains_of_mem_members mem
      simp [contains_of_insert? inserted] at tracked
    rw [if_neg other]
    exact counted r p mem
  · split at mem
    · next new =>
      subst r
      obtain rfl := List.mem_singleton.1 mem
      exact ⟨1, if_pos rfl, rfl⟩
    · simp at mem

theorem Counted.erase (counted : s.Counted) (o : ObjectId) : (s.erase o).Counted := by
  intro r p mem
  simp only [members_erase, List.mem_filter, decide_eq_true_eq] at mem
  rw [gcRefs_erase, if_neg mem.2]
  exact counted r p mem.1

/-- An object that changes its role needs a count for the new one. -/
theorem Counted.moved (counted : s.Counted) (tracked : s.contains o = true) {r : Role} {n : Nat}
    (allowed : r.Allows n) : ((s.moved o r).withGcRefs o n).Counted := by
  intro r' p mem
  rw [members_withGcRefs, mem_members, roleOf_moved tracked] at mem
  rw [gcRefs_withGcRefs, contains_moved, gcRefs_moved]
  by_cases same : p = o
  · rw [if_pos same] at mem
    obtain rfl := Option.some.inj mem
    exact ⟨n, if_pos ⟨same, tracked⟩, allowed⟩
  · rw [if_neg same] at mem
    rw [if_neg fun both => same both.1]
    exact counted r' p (mem_members.2 mem)

/-- Every count of a new object is good for an object in collection. -/
theorem Counted.merged (counted : s.Counted) : (s.merged .new .inCollection).Counted := by
  intro r p mem
  rw [members_merged (by decide)] at mem
  rw [gcRefs_merged]
  split at mem
  · next collected =>
    subst r
    rcases List.mem_append.1 mem with mem | mem
    · exact counted _ p mem
    · obtain ⟨n, count, rfl⟩ := counted _ p mem
      exact ⟨1, count, Nat.le_refl 1⟩
  · split at mem
    · simp at mem
    · exact counted r p mem

/-- Reviving changes no count outside the collection. -/
theorem gcRefs_revived_of_apart (collected : o ∉ s.members .inCollection)
    (staged : o ∉ s.members .staged) : s.revived.gcRefs o = s.gcRefs o := by
  rw [mem_members] at collected staged
  rw [revived, gcRefs_merged, gcRefs, find?_mapGcRefs, gcRefs]
  cases h : s.find? o with
  | none => rfl
  | some e =>
    have role : e.role ≠ .inCollection ∧ e.role ≠ .staged := by
      simpa [roleOf, h] using And.intro collected staged
    simp [role]

end TrackedSets

/-! ## The verdict -/

section Judge

variable {ρ : Type} [ForeignHeap ρ] {s : Snapshot} {sets sets' : TrackedSets} {foreign : ρ}
  {host : HostHeap} {o : ObjectId} {verdict : Verdict} {invalidated : Bool}

/-- A verdict changes no count outside the collection. -/
theorem Snapshot.gcRefs_of_judge (staged : sets.members .staged = [])
    (judged : s.judge sets foreign host invalidated = .ok (verdict, sets'))
    (apart : o ∉ sets.members .inCollection) : sets'.gcRefs o = sets.gcRefs o := by
  unfold judge at judged
  split at judged
  · obtain ⟨-, rfl⟩ := Prod.mk.inj (Except.ok.inj judged)
    exact TrackedSets.gcRefs_revived_of_apart apart (by simp [staged])
  · rw [bind_eq_ok] at judged
    obtain ⟨⟨verdict', entered⟩, examined, judged⟩ := judged
    have nodup := sets.nodup_members .inCollection
    have tracked : ∀ p ∈ sets.members .inCollection, sets.contains p = true :=
      fun p => TrackedSets.contains_of_mem_members
    cases examined_of_examine (fun p => takesPart_of_mem_inCollection) examined with
    | consistent =>
      obtain ⟨-, rfl⟩ := Prod.mk.inj (pure_eq_ok.1 judged)
      rw [s.gcRefs_enterAll nodup tracked, if_neg apart]
    | @inconsistent done rest p r split =>
      obtain ⟨-, rfl⟩ := Prod.mk.inj (pure_eq_ok.1 judged)
      rw [split] at nodup tracked apart
      have distinct : done.Nodup := nodup.sublist (List.sublist_append_left ..)
      have early : ∀ q ∈ done, sets.contains q = true :=
        fun q mem => tracked q (List.mem_append_left _ mem)
      have entered := s.members_enterAll distinct early (by simp [staged])
      have other : o ≠ p := fun same => apart (by simp [same])
      have before : o ∉ done := fun mem => apart (List.mem_append_left _ mem)
      rw [TrackedSets.gcRefs_revived_of_apart, TrackedSets.gcRefs_withGcRefs,
        if_neg fun both => other both.1, s.gcRefs_enterAll distinct early, if_neg before]
      · have out : o ∉ sets.members .inCollection := by rwa [split]
        simp [entered, out]
      · simp [entered, staged, before]

/-- Whatever the verdict, the dead have the count zero, and all others a positive one or the one
that they had. -/
theorem TrackedSets.Counted.judge (counted : sets.Counted) (staged : sets.members .staged = [])
    (judged : s.judge sets foreign host invalidated = .ok (verdict, sets')) : sets'.Counted := by
  have unmoved : ∀ r, r ≠ .inCollection → ∀ o ∈ sets.members r,
      ∃ n, sets'.gcRefs o = some n ∧ r.Allows n := by
    intro r ne o mem
    rw [Snapshot.gcRefs_of_judge staged judged fun collected => ne ?_]
    · exact counted r o mem
    · exact Option.some.inj
        ((TrackedSets.mem_members.1 mem).symm.trans (TrackedSets.mem_members.1 collected))
  cases verdict with
  | consistent =>
    obtain ⟨-, -, rfl⟩ := Snapshot.judge_consistent judged
    have entered := s.members_enterAll_inCollection staged
    intro r o mem
    cases r with
    | new => exact unmoved .new (by decide) o (by simpa [entered] using mem)
    | isolated => exact unmoved .isolated (by decide) o (by simpa [entered] using mem)
    | inCollection =>
      have alive : o ∈ sets.members .inCollection ∧ s.findsDead o = false := by
        simpa [entered] using mem
      obtain ⟨n, count⟩ := s.gcRefs_enterAll_of_alive alive.1 alive.2
      exact ⟨n + 1, count, Nat.le_add_left 1 n⟩
    | staged =>
      have dead : o ∈ sets.members .inCollection ∧ s.findsDead o = true := by
        simpa [entered] using mem
      obtain ⟨r, found, zero⟩ := Snapshot.findsDead_iff.1 dead.2
      refine ⟨0, ?_, rfl⟩
      rw [s.gcRefs_enterAll (sets.nodup_members _)
        (fun o => TrackedSets.contains_of_mem_members), if_pos dead.1, found, Option.elim_some,
        zero]
  | inconsistent =>
    obtain ⟨-, undone⟩ := Snapshot.judge_inconsistent staged judged
    intro r o mem
    cases r with
    | new => exact unmoved .new (by decide) o (undone.new ▸ mem)
    | isolated => exact unmoved .isolated (by decide) o (undone.isolated ▸ mem)
    | inCollection =>
      obtain ⟨n, count⟩ := undone.alive o mem
      exact ⟨n + 1, count, Nat.le_add_left 1 n⟩
    | staged => simp [undone.staged] at mem

end Judge

/-! ## Disposing -/

/-- Staged objects that are kept count as alive, and those that are isolated stay at zero. -/
theorem World.Disposes.counted {ρ : Type} [ForeignHeap ρ] {w w' : World ρ}
    {kept isolated released : List ObjectId} {reported : ρ}
    (disposes : Disposes w kept isolated released reported w')
    (counted : w.collector.sets.Counted) : w'.collector.sets.Counted := by
  have apart : ∀ {r : Role} {o}, r ≠ .staged → o ∈ w.collector.sets.members r → o ∉ kept := by
    intro r o ne mem early
    have role := TrackedSets.mem_members.1 (disposes.subset o early)
    exact ne (Option.some.inj ((TrackedSets.mem_members.1 mem).symm.trans role))
  intro r o mem
  have count := disposes.counts o (TrackedSets.contains_of_mem_members mem)
  have unmoved : ∀ {r : Role}, r ≠ .staged → o ∈ w.collector.sets.members r →
      ∃ n, w'.collector.sets.gcRefs o = some n ∧ r.Allows n := by
    intro r ne before
    rw [count, if_neg (apart ne before)]
    exact counted r o before
  cases r with
  | new => exact unmoved (by decide) (disposes.new ▸ mem)
  | staged => simp [disposes.staged] at mem
  | inCollection =>
    rcases (disposes.inCollection o).1 mem with before | early
    · exact unmoved (by decide) before
    · exact ⟨1, count.trans (if_pos early), Nat.le_refl 1⟩
  | isolated =>
    rw [disposes.waiting, List.mem_append] at mem
    rcases mem with before | late
    · exact unmoved (by decide) before
    · obtain ⟨rfl, -⟩ | ⟨rfl, -⟩ := disposes.rest
      · obtain ⟨staged, late⟩ := List.mem_filter.1 late
        rw [count, if_neg (by simpa using late)]
        exact counted .staged o staged
      · simp at late

/-- The verdict of a pass lets border marking hand over whatever is not isolated. -/
theorem World.marks_of_counted {ρ : Type} [ForeignHeap ρ] {w : World ρ} {o : ObjectId} {h : HostRef}
    (counted : w.collector.sets.Counted)
    (mem : o ∈ w.collector.sets.members .new ∨ o ∈ w.collector.sets.members .inCollection)
    (bridged : ForeignHeap.bridge w.foreign o = .ok (some h)) : w.Marks .cyclicCount h := by
  have positive : ∃ n, w.collector.sets.gcRefs o = some n ∧ 0 < n := by
    rcases mem with mem | mem
    · obtain ⟨n, count, rfl⟩ := counted _ o mem
      exact ⟨1, count, Nat.one_pos⟩
    · exact counted _ o mem
  obtain ⟨n, count, positive⟩ := positive
  exact ⟨o, bridged, .inl ⟨mem, by simp [isHeld, count, positive]⟩⟩

/-! ## What every run keeps -/

namespace Collector

structure Settled (c : Collector) : Prop extends Orderly c where
  counted : c.sets.Counted
  inOrder : ∀ s, c.snapshot? = some s → (c.sets.members .inCollection).Sublist s.objects

variable {c c' : Collector} {o : ObjectId}

theorem Settled.start (options : Options) : Settled { options } where
  toOrderly := .start options
  counted _ _ mem := nomatch mem
  inOrder _ taken := nomatch taken

theorem Settled.track (settled : c.Settled) (tracked : c.track o = .ok c') : c'.Settled := by
  refine ⟨settled.toOrderly.track tracked, ?_, ?_⟩ <;>
    obtain ⟨sets, inserted, rfl⟩ := track_eq_ok.1 tracked
  · exact settled.counted.insert? inserted
  · intro s taken
    simpa [TrackedSets.members_insert? inserted] using settled.inOrder s taken

theorem Settled.untrack (settled : c.Settled) (untracked : c.untrack o = .ok c') : c'.Settled := by
  refine ⟨settled.toOrderly.untrack untracked, ?_, ?_⟩ <;>
    obtain ⟨-, rfl⟩ := untrack_eq_ok.1 untracked
  · exact settled.counted.erase o
  · intro s taken
    rw [TrackedSets.members_erase]
    exact List.filter_sublist.trans (settled.inOrder s taken)

theorem Settled.finalizersDone (settled : c.Settled) (done : c.finalizersDone o = .ok c') :
    c'.Settled := by
  refine ⟨settled.toOrderly.finalizersDone done, ?_, ?_⟩ <;>
    obtain ⟨isolated, rfl⟩ := finalizersDone_eq_ok.1 done <;>
    have tracked := TrackedSets.contains_of_mem_members isolated
  · exact settled.counted.moved tracked rfl
  · intro s taken
    simp only [TrackedSets.members_withGcRefs, TrackedSets.members_moved tracked, reduceCtorEq,
      if_false, List.append_nil]
    exact List.filter_sublist.trans (settled.inOrder s taken)

end Collector

namespace World

variable {ρ : Type} [ForeignHeap ρ] {w w' : World ρ} {o : ObjectId}

theorem counted_of_prepareSets (prepared : w.prepareSets = .ok w')
    (counted : w.collector.sets.Counted) : w'.collector.sets.Counted :=
  prepareSets_induction (P := fun v => v.collector.sets.Counted) prepared counted
    fun o _ _ _ counted => counted.erase o

theorem settled_of_startPass (settled : w.collector.Settled) (started : w.startPass = .ok w') :
    w'.collector.Settled := by
  refine ⟨orderly_of_startPass settled.toOrderly started, ?_, ?_⟩ <;>
    obtain ⟨v, taken, snapshot, stats, prepared, htaken, roots, -, rfl⟩ := startPass_eq_ok started
  · exact (counted_of_prepareSets prepared settled.counted).merged
  · intro s same
    obtain rfl := Option.some.inj same
    rw [Snapshot.objects_congr (Snapshot.frozen_collectRoots roots), Snapshot.objects_take htaken]

omit [ForeignHeap ρ] in
theorem settled_of_markStep (settled : w.collector.Settled) (marked : w.markStep = .ok w') :
    w'.collector.Settled := by
  refine ⟨orderly_of_markStep settled.toOrderly marked, ?_, ?_⟩ <;>
    obtain ⟨snapshot, progress, m, stats, taken, ran, -, rfl⟩ := markStep_eq_ok marked
  · exact settled.counted
  · intro s same
    obtain rfl := Option.some.inj same
    have frozen := Marking.run_induction (P := fun s _ => s.frozen = snapshot.frozen) ran rfl
      fun _ _ _ frozen visits => visits.frozen.trans frozen
    rw [Snapshot.objects_congr frozen]
    exact settled.inOrder snapshot taken

theorem settled_of_finishPass (settled : w.collector.Settled) (finished : w.finishPass = .ok w') :
    w'.collector.Settled := by
  refine ⟨orderly_of_finishPass finished, ?_, ?_⟩
  · obtain ⟨snapshot, verdict, sets, outcome, v, -, judged, disposed, rfl⟩ :=
      finishPass_eq_ok finished
    obtain ⟨⟨_, _, _, _, disposes⟩, -⟩ := disposes_of_disposeStaged disposed
    exact disposes.counted (settled.counted.judge settled.staged judged)
  · simp [(snapshot_of_finishPass finished).1]

theorem Stages.settled (stages : Stages w w') (settled : w.collector.Settled) :
    w'.collector.Settled := by
  cases stages with
  | start _ started => exact settled_of_startPass settled started
  | mark _ marked => exact settled_of_markStep settled marked
  | finish _ finished => exact settled_of_finishPass settled finished
  | sweep outside swept =>
    refine ⟨(Stages.sweep outside swept).orderly settled.toOrderly, ?_, ?_⟩ <;>
      obtain ⟨host, stats, -, rfl⟩ := sweep_eq_ok swept
    · exact settled.counted
    · exact settled.inOrder

/-- Whatever happens in a world leaves its collector settled. -/
theorem Moves.settled (moves : Moves w w') (settled : w.collector.Settled) :
    w'.collector.Settled := by
  have orderly := moves.orderly settled.toOrderly
  cases moves with
  | heaps => exact settled
  | track _ tracked => exact settled.track tracked
  | untrack _ untracked => exact settled.untrack untracked
  | finalizersDone _ done => exact settled.finalizersDone done
  | setCycleDetection on => exact ⟨orderly, settled.counted, settled.inOrder⟩
  | requestSweep =>
    refine ⟨orderly, ?_, ?_⟩
    · unfold Collector.requestSweep
      split <;> exact settled.counted
    · unfold Collector.requestSweep
      split <;> exact settled.inOrder
  | step stages => exact stages.settled settled

theorem settled_of_run {actions : List (Action ρ)} (ran : w.run actions = .ok w')
    (settled : w.collector.Settled) : w'.collector.Settled :=
  foldlM_induction (P := fun w => w.collector.Settled) ran settled
    fun _ _ _ _ settled acted => (moves_of_act acted).settled settled

end World

end CycleCollector
