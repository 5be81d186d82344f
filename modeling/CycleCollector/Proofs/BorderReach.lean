import CycleCollector.Proofs.Garbage
import CycleCollector.Proofs.WholePass
/-!
# Where the border leads

Objects that a pass keeps because of a finalizer are dead, so marking never came to their bridges;
these are handed to the host heap by border marking, and the host heap traces on after the pass has
ended. What keeps an object alive follows references of the foreign heap only. A dead object whose
host counterpart is reached on such a trace is therefore released all the same, and the host heap is
left with a marked object that has lost its counterpart.

## Main definitions

* `World.Kept`: the dead objects whose bridges border marking hands over.

## Main statements

* `World.isVisited_iff_of_released`: when the counterpart of a released object is marked.
-/

namespace CycleCollector.World

variable {w v w₁ w' : World Arena} {s₀ s : Snapshot} {n : Nat} {o k : ObjectId} {h : HostRef}

/-- Of a pass from `w` to `w'`: a finalizer keeps `o`. Either it stays in collection because a
legacy finalizer does, from which a path of references comes to it, or it waits for a finalizer
while something refers to it. -/
def Kept (w w' : World Arena) (o : ObjectId) : Prop :=
  (o ∈ w'.collector.sets.members .inCollection ∧ ∃ p ∈ w'.collector.sets.members .inCollection,
      w.foreign.finalizer p = .ok .legacy ∧ ForeignHeap.Leads w.foreign p o) ∨
    o ∈ w'.collector.sets.members .isolated ∧
      ∃ n, w.foreign.refcount o = .ok n ∧ 0 < Refcount.stripBias n

theorem leads_congr {a b : Arena} (same : b.cells = a.cells) (path : ForeignHeap.Leads b o k) :
    ForeignHeap.Leads a o k := by
  induction path with
  | refl => exact .refl
  | step _ refs mem ih =>
    refine ih.step ?_ mem
    rwa [Arena.foreign_references, Arena.references, ← Arena.cell_congr same]

/-- A pass that is not disturbed works on the objects that it started with. -/
theorem Surveys.cells (surveys : Surveys w v s₀ s w₁) : w₁.foreign.cells = w.foreign.cells := by
  rw [surveys.foreign]
  exact (Arena.cells_of_informed (prepares_of_prepareSets surveys.prepared).informed).1

/-- The counterpart on record is the counterpart. -/
theorem Surveys.bridge_eq (surveys : Surveys w v s₀ s w₁) {r : Snapshot.Record}
    (mem : r ∈ s.records)
    (bridged : w.foreign.bridge r.object = .ok (some h)) : r.bridge = some h := by
  obtain ⟨q, same, describes⟩ := surveys.describes mem
  have answer := describes.bridge
  rw [Arena.foreign_bridge, ← surveys.foreign, Arena.bridge_congr surveys.cells, bridged] at answer
  exact (congrArg Snapshot.Record.bridge same :).symm.trans (Except.ok.inj answer).symm

/-- When marking has ended, the counterpart of an object that was not found dead is marked. -/
theorem Surveys.marked_of_not_findsDead (surveys : Surveys w v s₀ s w₁)
    (mem : o ∈ w₁.collector.sets.members .inCollection) (alive : s.findsDead o = false)
    (bridged : w.foreign.bridge o = .ok (some h)) : HostHeap.Marked w₁.host.objects h := by
  have records := surveys.orderly.records s surveys.snapshot
  obtain ⟨r, recorded, rfl⟩ := List.mem_map.1 (records.collected o mem)
  rw [Array.mem_toList_iff] at recorded
  have found := (records.recordOf_of_mem surveys.valid recorded).2
  refine surveys.marked_of_alive recorded (Nat.pos_of_ne_zero fun dead => ?_)
    (surveys.bridge_eq recorded bridged)
  simp [Snapshot.findsDead_iff.2 ⟨r, found, dead⟩] at alive

/-! ## What a pass releases -/

/-- A pass that releases an object bridged to `h` found it dead with `h` unmarked, staged the dead,
and isolated none of them. -/
theorem Passes.of_released (passes : Passes w v s₀ s w₁ w')
    (fresh : ∀ h, ¬HostHeap.Marked w.host.objects h) (before : w.foreign.isReleased o = .ok false)
    (after : w'.foreign.isReleased o = .ok true) (bridged : w.foreign.bridge o = .ok (some h)) :
    ¬HostHeap.Marked w₁.host.objects h ∧ ∃ sets u kept released reported,
      s.judge w₁.collector.sets w₁.foreign w₁.host w₁.collector.invalidated =
        .ok (.consistent, sets) ∧
      Disposes (w₁.discardSnapshot sets) kept [] released reported u ∧
      reported.cells = w.foreign.cells ∧ w'.collector.sets = u.collector.sets ∧
      ∀ h, HostHeap.Marked w'.host.objects h ↔ HostHeap.Marked w₁.host.objects h ∨
        ∃ j, Marks { u with foreign := reported } .cyclicCount j ∧
          HostHeap.Leads w₁.host.objects j h := by
  obtain ⟨sets, u, kept, isolated, released, reported, judged, disposes, foreign, same_sets,
      marked⟩ :=
    passes.disposes fresh
  have cells : reported.cells = w.foreign.cells :=
    (Arena.cells_of_informed disposes.informed).1.trans passes.cells
  have mem : o ∈ released := by
    rw [foreign, Arena.isReleased_of_releaseAll disposes.released] at after
    rcases after with old | mem
    · rw [Arena.isReleased_congr cells, before] at old
      simp at old
    · exact mem
  obtain ⟨-, rfl⟩ | ⟨rfl, rfl⟩ := disposes.rest
  · simp at mem
  obtain ⟨-, unchanged, -⟩ := Snapshot.judge_consistent judged
  have staged := (List.mem_filter.1 mem).1
  rw [sets_discardSnapshot,
    mem_staged_of_consistent passes.orderly passes.snapshot judged] at staged
  obtain ⟨r, recorded, dead, rfl⟩ := Snapshot.mem_dead.1 staged
  have records := passes.orderly.records s passes.snapshot
  obtain ⟨collected, found⟩ := records.recordOf_of_mem passes.valid recorded
  obtain ⟨-, unreached, -⟩ :=
    Snapshot.isUnchanged_eq_ok_true.1 (unchanged r.object collected r found dead)
  rw [passes.bridge_eq recorded bridged] at unreached
  refine ⟨fun reached => ?_, sets, u, kept, _, reported, judged, disposes, cells, same_sets, marked⟩
  simp [HostHeap.reaches, HostHeap.isReachable_eq_ok_true.2 (.inl reached)] at unreached

section Border

variable {sets : TrackedSets} {u : World Arena} {kept released : List ObjectId} {reported : Arena}
  {j : HostRef}
  (judged : s.judge w₁.collector.sets w₁.foreign w₁.host w₁.collector.invalidated =
    .ok (.consistent, sets))
  (disposes : Disposes (w₁.discardSnapshot sets) kept [] released reported u)
  (cells : reported.cells = w.foreign.cells) (same_sets : w'.collector.sets = u.collector.sets)

include judged disposes cells same_sets

/-- What the border hands over and marking has not come to belongs to an object that a finalizer
keeps. -/
theorem Passes.kept_of_marks (passes : Passes w v s₀ s w₁ w')
    (marks : Marks { u with foreign := reported } .cyclicCount j)
    (unmarked : ¬HostHeap.Marked w₁.host.objects j) :
    ∃ k, Kept w w' k ∧ w.foreign.bridge k = .ok (some j) := by
  obtain ⟨-, inCollection, -⟩ := passes.members_of_disposes judged disposes
  obtain ⟨k, leads_to, held⟩ := marks
  rw [Arena.foreign_bridge, Arena.bridge_congr cells] at leads_to
  refine ⟨k, ?_, leads_to⟩
  rw [Kept, same_sets]
  rcases held with ⟨fresh_or_collected, -⟩ | ⟨waits, held⟩
  · have collected : k ∈ u.collector.sets.members .inCollection := by
      simpa [(passes.members_of_disposes judged disposes).1] using fresh_or_collected
    rcases (inCollection k).1 collected with ⟨early, alive⟩ | mem
    · exact absurd (passes.marked_of_not_findsDead early alive leads_to) unmarked
    · obtain ⟨p, kept_p, legacy, from_p⟩ := disposes.legacy k mem
      refine .inl
        ⟨collected, p, (inCollection p).2 (.inr kept_p), ?_, leads_congr passes.cells from_p⟩
      rw [Arena.finalizer, ← Arena.cell_congr passes.cells]
      exact legacy
  · obtain ⟨n, count, positive⟩ := bind_eq_ok.1 held
    rw [Arena.foreign_refcount, Arena.refcount_congr cells] at count
    exact .inr ⟨waits, n, count, by simpa [pure_eq_ok] using positive⟩

/-- The border hands over the counterparts of the objects that a finalizer keeps. -/
theorem Passes.marks_of_kept (passes : Passes w v s₀ s w₁ w') (keeps : Kept w w' k)
    (bridged : w.foreign.bridge k = .ok (some j)) :
    Marks { u with foreign := reported } .cyclicCount j := by
  obtain ⟨-, inCollection, -⟩ := passes.members_of_disposes judged disposes
  refine ⟨k, ?_, ?_⟩
  · rwa [Arena.foreign_bridge, Arena.bridge_congr cells]
  rw [Kept, same_sets] at keeps
  rcases keeps with ⟨collected, -⟩ | ⟨waits, n, count, positive⟩
  · refine .inl ⟨.inr collected, ?_⟩
    have counts := disposes.counts k (TrackedSets.contains_of_mem_members collected)
    rcases (inCollection k).1 collected with ⟨early, alive⟩ | mem
    · obtain ⟨n, alive⟩ := Snapshot.gcRefs_enterAll_of_alive early alive
      rw [sets_discardSnapshot, (Snapshot.judge_consistent judged).2.2, alive] at counts
      split at counts <;> simp [isHeld, counts]
    · rw [if_pos mem] at counts
      simp [isHeld, counts]
  · refine .inr ⟨waits, ?_⟩
    have same := (Arena.refcount_congr cells k).trans count
    simp [isHeld, same, positive, bind, Except.bind, pure, Except.pure]

end Border

/-- The counterpart of an object that a pass releases is marked in the end exactly if a path of
edges leads to it from the counterpart of an object that a finalizer keeps. -/
theorem Passes.marked_iff_of_released (passes : Passes w v s₀ s w₁ w')
    (fresh : ∀ h, ¬HostHeap.Marked w.host.objects h) (before : w.foreign.isReleased o = .ok false)
    (after : w'.foreign.isReleased o = .ok true) (bridged : w.foreign.bridge o = .ok (some h)) :
    HostHeap.Marked w'.host.objects h ↔ ∃ k j, Kept w w' k ∧
      w.foreign.bridge k = .ok (some j) ∧ HostHeap.Leads w.host.objects j h := by
  obtain ⟨unmarked, sets, u, kept, released, reported, judged, disposes, cells, same_sets,
      marked⟩ :=
    passes.of_released fresh before after bridged
  have onward := passes.spreads.course.onward
  rw [marked, or_iff_right unmarked]
  constructor
  · rintro ⟨j, marks, path⟩
    -- had marking come to `j`, the host heap would have gone on to `h`
    have unreached : ¬HostHeap.Marked w₁.host.objects j :=
      fun reached => unmarked (passes.marked_of_leads fresh reached path)
    obtain ⟨k, keeps, leads_to⟩ :=
      passes.kept_of_marks judged disposes cells same_sets marks unreached
    exact ⟨k, j, keeps, leads_to, (HostHeap.leads_congr onward.same).1 path⟩
  · rintro ⟨k, j, keeps, leads_to, path⟩
    exact ⟨j, passes.marks_of_kept judged disposes cells same_sets keeps leads_to,
      (HostHeap.leads_congr onward.same).2 path⟩

/-- When an idle collector goes undisturbed through a collection of the host heap, the counterpart
of an object that is released is marked in the end exactly if a path of edges leads to it from the
counterpart of an object that a finalizer keeps. -/
theorem isVisited_iff_of_released {options : Options} {foreign : Arena} {host : HostHeap}
    {actions : List (Action Arena)}
    (ran : run { collector := { options }, foreign, host } actions = .ok w)
    (idle : w.collector.phase = .idle)
    (collected : collect { w with host := w.host.beginCollection } = .ok (n, w'))
    (before : w.foreign.isReleased o = .ok false) (after : w'.foreign.isReleased o = .ok true)
    (bridged : w.foreign.bridge o = .ok (some h)) :
    w'.host.isVisited h = .ok true ↔ ∃ k j, Kept w w' k ∧
      w.foreign.bridge k = .ok (some j) ∧ HostHeap.Leads w.host.objects j h := by
  have orderly := orderly_of_run ran (.start options)
  have passes := passes_of_collect (w := { w with host := w.host.beginCollection }) orderly idle
    collected
  rw [HostHeap.isVisited_eq_ok_true]
  rcases passes with ⟨-, same⟩ | ⟨-, v, s₀, s, w₁, passes⟩
  · rw [same, before] at after
    simp at after
  · rw [passes.marked_iff_of_released (HostHeap.not_marked_beginCollection w.host) before after
      bridged]
    simp only [HostHeap.leads_congr (HostHeap.map_unmarked_beginCollection w.host)]
    rfl

/-- Two objects with counterparts, one of which points to the other. The first has a legacy
finalizer. -/
def crossing : World Arena where
  foreign := { cells := #[
    { refcount := Refcount.hostBias, bridge := some ⟨0⟩, finalizer := .legacy },
    { refcount := Refcount.hostBias, bridge := some ⟨1⟩ }] }
  host := { objects := #[{ edges := [⟨1⟩] }, {}] }

/-- The first object is kept, and the second is released although its counterpart is marked. -/
theorem isVisited_crossing :
    let w := crossing.after [.track ⟨0⟩, .track ⟨1⟩]
    let w' := w.collected
    w.foreign.isReleased ⟨1⟩ = .ok false ∧ w'.foreign.isReleased ⟨1⟩ = .ok true ∧
      w.foreign.bridge ⟨1⟩ = .ok (some ⟨1⟩) ∧ w'.host.isVisited ⟨1⟩ = .ok true := by
  intro w w'
  have ran : crossing.run [.track ⟨0⟩, .track ⟨1⟩] = .ok w := by decide +kernel
  have done : collect { w with host := w.host.beginCollection } = .ok (3, w') := by decide +kernel
  have before : w.foreign.isReleased ⟨1⟩ = .ok false := by decide +kernel
  have after : w'.foreign.isReleased ⟨1⟩ = .ok true := by decide +kernel
  have bridged : w.foreign.bridge ⟨1⟩ = .ok (some ⟨1⟩) := by decide +kernel
  have collected : (⟨0⟩ : ObjectId) ∈ w'.collector.sets.members .inCollection := by decide +kernel
  have legacy : w.foreign.finalizer ⟨0⟩ = .ok .legacy := by decide +kernel
  have leads_to : w.foreign.bridge ⟨0⟩ = .ok (some ⟨0⟩) := by decide +kernel
  have points : HostHeap.Points w.host.objects ⟨0⟩ ⟨1⟩ := ⟨{ edges := [⟨1⟩] }, by decide +kernel⟩
  have keeps : Kept w w' ⟨0⟩ := .inl ⟨collected, ⟨0⟩, collected, legacy, .refl⟩
  exact ⟨before, after, bridged,
    (isVisited_iff_of_released ran (by decide +kernel) done before after bridged).2
      ⟨⟨0⟩, ⟨0⟩, keeps, leads_to, .step .refl points⟩⟩

end CycleCollector.World
