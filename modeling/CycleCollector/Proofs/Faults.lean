import CycleCollector.Proofs.WholePass
/-!
# Where faults come from

A step asks the heaps, releases dead objects, collects roots and minds whether there is a snapshot,
and it stops only where one of these goes wrong. To prove that some fault is impossible it is enough
to look at these four places, so everything between them is treated once, for an arbitrary set of
faults.

## Main definitions

* `StopsBy`: a computation that stops by certain faults only.
* `ForeignHeap.Raises`: the faults of a foreign heap.
* `ExcusesAnswers`: a set of faults that has those of a question to either heap.
* `Excuses`: a set of faults that has all of both heaps.
* `World.Returns`: a set of faults that has those of releasing tracked objects, each once.

## Main statements

* `Arena.answers`, `Arena.excuses`: the faults of an arena.
* `World.stopsBy_step`: the faults of a step are those of the heaps, of its roots and of the
  snapshot that should or should not be there.
* `World.stopsBy_collect`: the faults of a whole collection are those of its steps.
-/

namespace CycleCollector

def StopsBy {α : Type} (P : Fault → Prop) (x : Except Fault α) : Prop :=
  ∀ fault, x = .error fault → P fault

variable {P : Fault → Prop}

section StopsBy

variable {α β : Type}

@[simp] theorem stopsBy_ok (a : α) : StopsBy P (.ok a : Except Fault α) := by
  intro fault stopped
  cases stopped

@[simp] theorem stopsBy_pure (a : α) : StopsBy P (pure a : Except Fault α) := stopsBy_ok a

@[simp] theorem stopsBy_error {fault : Fault} :
    StopsBy P (.error fault : Except Fault α) ↔ P fault := by
  simp [StopsBy]

@[simp] theorem stopsBy_throw {fault : Fault} :
    StopsBy P (throw fault : Except Fault α) ↔ P fault :=
  stopsBy_error

@[simp] theorem stopsBy_bind {x : Except Fault α} {f : α → Except Fault β} :
    StopsBy P (x >>= f) ↔ StopsBy P x ∧ ∀ a, x = .ok a → StopsBy P (f a) := by
  cases x with
  | error fault => simp [StopsBy, bind, Except.bind]
  | ok a => simp [StopsBy, bind, Except.bind]

@[simp] theorem stopsBy_map {x : Except Fault α} {f : α → β} :
    StopsBy P (f <$> x) ↔ StopsBy P x := by
  cases x with
  | error fault => simp [StopsBy, Functor.map, Except.map]
  | ok a => simp [StopsBy, Functor.map, Except.map]

theorem stopsBy_foldlM {f : β → α → Except Fault β} (part : ∀ b a, StopsBy P (f b a)) (as : List α)
    (b : β) : StopsBy P (as.foldlM f b) := by
  induction as generalizing b with
  | nil => exact stopsBy_pure b
  | cons a as ih => exact stopsBy_bind.2 ⟨part b a, fun b' _ => ih b'⟩

end StopsBy

/-! ## The heaps -/

inductive ForeignHeap.Raises (ρ : Type) [ForeignHeap ρ] (fault : Fault) : Prop
  | refcount {foreign : ρ} {o : ObjectId} :
      ForeignHeap.refcount foreign o = .error fault → Raises ρ fault
  | bridge {foreign : ρ} {o : ObjectId} :
      ForeignHeap.bridge foreign o = .error fault → Raises ρ fault
  | references {foreign : ρ} {o : ObjectId} :
      ForeignHeap.references foreign o = .error fault → Raises ρ fault
  | release {foreign : ρ} {o : ObjectId} :
      ForeignHeap.release foreign o = .error fault → Raises ρ fault
  | finalizer {foreign : ρ} {o : ObjectId} :
      ForeignHeap.finalizer foreign o = .error fault → Raises ρ fault
  | mayUntrack {foreign : ρ} {o : ObjectId} :
      ForeignHeap.mayUntrack foreign o = .error fault → Raises ρ fault

/-- The set has every fault of a question to a heap. The host heap stops only at handles out of
bounds. -/
structure ExcusesAnswers (ρ : Type) [ForeignHeap ρ] (P : Fault → Prop) : Prop where
  refcount : ∀ (foreign : ρ) o, StopsBy P (ForeignHeap.refcount foreign o)
  bridge : ∀ (foreign : ρ) o, StopsBy P (ForeignHeap.bridge foreign o)
  references : ∀ (foreign : ρ) o, StopsBy P (ForeignHeap.references foreign o)
  finalizer : ∀ (foreign : ρ) o, StopsBy P (ForeignHeap.finalizer foreign o)
  mayUntrack : ∀ (foreign : ρ) o, StopsBy P (ForeignHeap.mayUntrack foreign o)
  bounds : ∀ length index, P (.outOfBounds length index)

structure Excuses (ρ : Type) [ForeignHeap ρ] (P : Fault → Prop) : Prop where
  foreign : ∀ fault, ForeignHeap.Raises ρ fault → P fault
  bounds : ∀ length index, P (.outOfBounds length index)

theorem Excuses.answers {ρ : Type} [ForeignHeap ρ] (excuses : Excuses ρ P) :
    ExcusesAnswers ρ P where
  refcount _ _ fault stopped := excuses.foreign fault (.refcount stopped)
  bridge _ _ fault stopped := excuses.foreign fault (.bridge stopped)
  references _ _ fault stopped := excuses.foreign fault (.references stopped)
  finalizer _ _ fault stopped := excuses.foreign fault (.finalizer stopped)
  mayUntrack _ _ fault stopped := excuses.foreign fault (.mayUntrack stopped)
  bounds := excuses.bounds

theorem Excuses.stopsBy_releaseAll {ρ : Type} [ForeignHeap ρ] (excuses : Excuses ρ P)
    (os : List ObjectId) (foreign : ρ) : StopsBy P (ForeignHeap.releaseAll foreign os) :=
  stopsBy_foldlM (fun _ _ fault stopped => excuses.foreign fault (.release stopped)) os foreign

namespace Arena

variable (bounds : ∀ length index, P (.outOfBounds length index)) (a : Arena) (o : ObjectId)

include bounds

theorem stopsBy_cell : StopsBy P (a.cell o) := by
  unfold cell
  split <;> simp [bounds]

theorem stopsBy_modify (f : Cell → Cell) : StopsBy P (a.modify o f) := by
  simp [modify, stopsBy_cell bounds]

theorem stopsBy_decrefAll (os : List ObjectId) : StopsBy P (a.decrefAll os) :=
  stopsBy_foldlM (fun b p => b.stopsBy_modify bounds p _) os a

theorem stopsBy_release (twice : a.isReleased o = .ok true → P (.releasedTwice o)) :
    StopsBy P (a.release o) := by
  simp only [release, stopsBy_bind, stopsBy_cell bounds, true_and]
  intro c hc
  split
  · next gone => exact stopsBy_throw.2 (twice (map_eq_ok.2 ⟨c, hc, gone⟩))
  · simp [stopsBy_decrefAll bounds]

/-- An arena answers every question about an object that was allocated. -/
theorem answers : ExcusesAnswers Arena P where
  refcount a o := stopsBy_map.2 (a.stopsBy_cell bounds o)
  bridge a o := stopsBy_map.2 (a.stopsBy_cell bounds o)
  references a o := stopsBy_map.2 (a.stopsBy_cell bounds o)
  finalizer a o := stopsBy_map.2 (a.stopsBy_cell bounds o)
  mayUntrack a o := stopsBy_map.2 (a.stopsBy_cell bounds o)
  bounds := bounds

/-- An arena stops at handles out of bounds and at objects that come back a second time. -/
theorem excuses (twice : ∀ o, P (.releasedTwice o)) : Excuses Arena P := by
  refine ⟨fun fault raises => ?_, bounds⟩
  cases raises with
  | refcount stopped => exact (answers bounds).refcount _ _ fault stopped
  | bridge stopped => exact (answers bounds).bridge _ _ fault stopped
  | references stopped => exact (answers bounds).references _ _ fault stopped
  | @release a o stopped => exact a.stopsBy_release bounds o (fun _ => twice o) fault stopped
  | finalizer stopped => exact (answers bounds).finalizer _ _ fault stopped
  | mayUntrack stopped => exact (answers bounds).mayUntrack _ _ fault stopped

end Arena

namespace ForeignHeap

variable {ρ : Type} [ForeignHeap ρ] (answers : ExcusesAnswers ρ P) (foreign : ρ) (o : ObjectId)

include answers

omit [ForeignHeap ρ] answers in
theorem stopsBy_select {test : ObjectId → Except Fault Bool} (part : ∀ o, StopsBy P (test o))
    (os : List ObjectId) : StopsBy P (select test os) := by
  induction os with
  | nil => exact stopsBy_ok _
  | cons o os ih => simp [select, part, ih]

theorem stopsBy_withFinalizer (kind : Finalizer) (os : List ObjectId) :
    StopsBy P (withFinalizer foreign kind os) :=
  stopsBy_select (by simp [answers.finalizer]) os

theorem stopsBy_reach (candidates stack : List ObjectId) :
    StopsBy P (reach foreign candidates stack) := by
  fun_induction reach foreign candidates stack with
  | case1 => exact stopsBy_ok _
  | case2 candidates o rest fault refs =>
    have references := answers.references foreign o
    rwa [refs] at references
  | case3 candidates o rest os refs claimed ih => simp [ih]

end ForeignHeap

namespace HostHeap

variable (bounds : ∀ length index, P (.outOfBounds length index)) (g : HostHeap)

include bounds

theorem stopsBy_object (h : HostRef) : StopsBy P (g.object h) := by
  unfold object
  split <;> simp [bounds]

theorem stopsBy_modify (h : HostRef) (f : HostObject → HostObject) : StopsBy P (g.modify h f) := by
  simp [modify, stopsBy_object bounds]

theorem stopsBy_reaches (bridge : Option HostRef) : StopsBy P (g.reaches bridge) := by
  cases bridge <;> simp [reaches, isReachable, stopsBy_object bounds]

theorem stopsBy_trace (objects : Array HostObject) (stack : List HostRef) :
    StopsBy P (trace objects stack) := by
  fun_induction trace objects stack <;> simp_all

theorem stopsBy_drain : StopsBy P g.drain := by
  simp [drain, stopsBy_trace bounds]

theorem stopsBy_receive (eager : Bool) (bridge : Option HostRef) :
    StopsBy P (g.receive eager bridge) := by
  cases bridge <;> cases eager <;> simp [receive, stopsBy_drain bounds]

end HostHeap

/-! ## The stages of a pass -/

namespace Snapshot

variable {ρ : Type} [ForeignHeap ρ] (answers : ExcusesAnswers ρ P) (s : Snapshot) (foreign : ρ)
  (g : HostHeap)

include answers

theorem stopsBy_describeAll (candidates os : List ObjectId) :
    StopsBy P (describeAll candidates foreign g os) := by
  induction os with
  | nil => exact stopsBy_ok _
  | cons o os ih =>
    simp [describeAll, describe, ih, answers.refcount, answers.bridge, answers.references,
      HostHeap.stopsBy_reaches answers.bounds]

theorem stopsBy_take (sets : TrackedSets) : StopsBy P (take sets foreign g) := by
  simp [take, stopsBy_describeAll answers]

theorem stopsBy_isUnchanged (r : Record) (sets : TrackedSets) :
    StopsBy P (s.isUnchanged r sets foreign g) := by
  simp only [isUnchanged, stopsBy_bind, answers.refcount, true_and]
  intro n _
  split
  · simp
  · simp only [stopsBy_bind, HostHeap.stopsBy_reaches answers.bounds, true_and]
    intro reached _
    split <;> simp [answers.references]

theorem stopsBy_examine (sets : TrackedSets) (os : List ObjectId) :
    StopsBy P (s.examine foreign g sets os) := by
  induction os generalizing sets with
  | nil => exact stopsBy_ok _
  | cons o os ih =>
    unfold examine
    split
    · exact ih _
    · dsimp only
      split
      · simp only [stopsBy_bind, stopsBy_isUnchanged answers, true_and]
        intro unchanged _
        split
        · exact ih _
        · exact stopsBy_ok _
      · exact ih _

theorem stopsBy_judge (sets : TrackedSets) (invalidated : Bool) :
    StopsBy P (s.judge sets foreign g invalidated) := by
  unfold judge
  split
  · exact stopsBy_ok _
  · simp only [stopsBy_bind, stopsBy_examine answers, true_and]
    rintro ⟨verdict, _⟩ _
    cases verdict <;> exact stopsBy_ok _

omit [ForeignHeap ρ] answers in
theorem stopsBy_collectRoots (negative : ∀ o, P (.negativeExternal o)) :
    StopsBy P s.collectRoots := by
  have discounts : ∀ records j, StopsBy P (discount records j) := by
    intro records j
    unfold discount
    split
    · exact stopsBy_ok _
    · split <;> simp [negative]
  simp [collectRoots, stopsBy_foldlM discounts]

end Snapshot

namespace Marking

variable (bounds : ∀ length index, P (.outOfBounds length index)) (eager : Bool) (m : Marking)

include bounds

theorem stopsBy_visit (i : Nat) : StopsBy P (visit eager m i) := by
  unfold visit
  split
  · simp
  · next r _ =>
    split
    · simp
    · have support : StopsBy P (r.support m.host) := by
        unfold Snapshot.Record.support
        split <;> simp [HostHeap.stopsBy_reaches bounds]
      simp only [stopsBy_bind, support, true_and]
      intro external _
      split <;> simp [HostHeap.stopsBy_receive bounds]

theorem stopsBy_scanUpTo (bound : Nat) : StopsBy P (m.scanUpTo eager bound) := by
  induction bound generalizing m with
  | zero => exact stopsBy_ok _
  | succ bound ih =>
    have scans : StopsBy P (m.scan eager) := stopsBy_foldlM (stopsBy_visit bounds eager) _ _
    simp only [scanUpTo, stopsBy_bind, scans, true_and]
    intro m' _
    split
    · exact stopsBy_ok _
    · exact ih m'

end Marking

namespace World

variable {ρ : Type} [ForeignHeap ρ] (answers : ExcusesAnswers ρ P) (w : World ρ)

include answers

theorem stopsBy_prepareSets : StopsBy P w.prepareSets := by
  have container : ∀ (v : World ρ) o, StopsBy P (v.untrackContainer o) := by
    intro v o
    simp only [untrackContainer, stopsBy_bind, answers.references, true_and]
    intro references _
    split <;> simp
  have candidates : ∀ o, StopsBy P (do
      if ← ForeignHeap.mayUntrack w.foreign o then
        return (← ForeignHeap.bridge w.foreign o).isNone
      else return false) := by
    intro o
    simp only [stopsBy_bind, answers.mayUntrack, true_and]
    intro atomic _
    cases atomic <;> simp [answers.bridge]
  unfold prepareSets
  split
  · simp only [untrackContainers, stopsBy_bind]
    exact ⟨ForeignHeap.stopsBy_select candidates _, fun _ _ => stopsBy_foldlM container _ _⟩
  · simp

theorem stopsBy_startPass (twice : w.collector.snapshot?.isSome → P .snapshotAllocatedTwice)
    (roots : ∀ v taken, w.prepareSets = .ok v →
      Snapshot.take (v.collector.sets.merged .new .inCollection) v.foreign v.host = .ok taken →
      StopsBy P taken.collectRoots) :
    StopsBy P w.startPass := by
  unfold startPass
  split
  · next taken => exact stopsBy_error.2 (twice taken)
  · simp only [stopsBy_bind, stopsBy_prepareSets answers, Snapshot.stopsBy_take answers, true_and]
    exact fun v prepared taken htaken => ⟨roots v taken prepared htaken, fun _ _ => stopsBy_pure _⟩

theorem stopsBy_markStep (without : w.collector.snapshot? = none → P .markingWithoutSnapshot) :
    StopsBy P w.markStep := by
  unfold markStep
  split
  · next none => exact stopsBy_error.2 (without none)
  · simp [Marking.run, Marking.stopsBy_scanUpTo answers.bounds]

theorem stopsBy_heldBridges (evidence : Evidence) (os : List ObjectId) :
    StopsBy P (w.heldBridges evidence os) := by
  induction os with
  | nil => exact stopsBy_ok _
  | cons o os ih =>
    simp only [heldBridges, stopsBy_bind, answers.bridge, true_and]
    intro bridge _
    cases bridge with
    | none => exact ih
    | some h => cases evidence <;> simp [isHeld, ih, answers.refcount]

theorem stopsBy_markBorder (evidence : Evidence) : StopsBy P (w.markBorder evidence) := by
  simp [markBorder, stopsBy_heldBridges answers]

omit answers in
/-- Releasing objects that the world tracks, each of them once, stops by certain faults only. -/
def Returns (P : Fault → Prop) (w : World ρ) : Prop :=
  ∀ foreign os, ForeignHeap.Informed w.foreign foreign → os.Nodup →
    (∀ o ∈ os, w.collector.sets.contains o = true) → StopsBy P (ForeignHeap.releaseAll foreign os)

theorem stopsBy_disposeStaged (returns : w.Returns P) : StopsBy P w.disposeStaged := by
  have keep : StopsBy P w.keepLegacy := by
    simp [keepLegacy, ForeignHeap.stopsBy_withFinalizer answers, ForeignHeap.stopsBy_reach answers]
  have isolate : ∀ v : World ρ, StopsBy P v.isolateFinalizable := by
    intro v
    simp only [isolateFinalizable, stopsBy_bind, ForeignHeap.stopsBy_withFinalizer answers,
      true_and]
    intro finalizable _
    split <;> simp
  simp only [disposeStaged, stopsBy_bind, keep, isolate, stopsBy_markBorder answers, stopsBy_pure,
    implies_true, and_true, true_and]
  rintro ⟨legacy, w₁⟩ kept ⟨isolated, w₂⟩ isolates w₃ marked
  obtain ⟨os, keeps⟩ := keeps_of_keepLegacy kept
  obtain ⟨bridges, _, -, rfl⟩ := marks_of_markBorder marked
  simp only [releaseStaged, stopsBy_bind, stopsBy_pure, implies_true, and_true]
  obtain ⟨finalizable, -, ⟨-, -, rfl⟩ | ⟨-, -, _, rfl⟩⟩ := isolateFinalizable_eq_ok isolates
  · refine returns _ _ keeps.informed (TrackedSets.nodup_members ..) fun o mem => ?_
    rw [keeps.staged] at mem
    exact TrackedSets.contains_of_mem_members (List.mem_filter.1 mem).1
  · simp [TrackedSets.members_merged, ForeignHeap.releaseAll]

theorem stopsBy_finishPass (returns : w.Returns P)
    (twice : w.collector.snapshot? = none → P .snapshotDiscardedTwice) :
    StopsBy P w.finishPass := by
  unfold finishPass
  split
  · next none => exact stopsBy_error.2 (twice none)
  · simp only [stopsBy_bind, Snapshot.stopsBy_judge answers, stopsBy_pure, implies_true, and_true,
      true_and]
    rintro ⟨verdict, sets⟩ judged
    refine stopsBy_disposeStaged answers _ fun foreign os informed nodup tracked => ?_
    exact returns foreign os informed nodup fun o mem =>
      (Snapshot.contains_of_judge judged).symm.trans (tracked o mem)

theorem stopsBy_sweep : StopsBy P w.sweep := by simp [sweep, stopsBy_markBorder answers]

/-- A step stops at a question to one of the heaps, at a release, at its roots, or because there is
a snapshot where there should be none or the other way round. -/
theorem stopsBy_step (returns : w.Returns P)
    (allocated : w.collector.phase = .idle → w.collector.snapshot?.isSome →
      P .snapshotAllocatedTwice)
    (missing : w.collector.phase = .marking → w.collector.snapshot? = none →
      P .markingWithoutSnapshot)
    (discarded : w.collector.phase = .marked → w.collector.snapshot? = none →
      P .snapshotDiscardedTwice)
    (roots : ∀ v taken, w.prepareSets = .ok v →
      Snapshot.take (v.collector.sets.merged .new .inCollection) v.foreign v.host = .ok taken →
      StopsBy P taken.collectRoots) :
    StopsBy P w.step := by
  unfold step
  split
  · simp [stopsBy_sweep answers]
  · next idle =>
    split
    · simp [w.stopsBy_startPass answers (allocated idle) roots]
    · simp [stopsBy_sweep answers]
  · next marking => simp [w.stopsBy_markStep answers (missing marking)]
  · next marked => simp [w.stopsBy_finishPass answers returns (discarded marked)]

omit answers in
theorem stopsBy_collect {I : World ρ → Prop} {w : World ρ} (start : I w)
    (bounds : ∀ length index, P (.outOfBounds length index))
    (stops : ∀ v, I v → StopsBy P v.step)
    (keeps : ∀ v v' finished host, I v → v.step = .ok (finished, v') → I { v' with host }) :
    StopsBy P w.collect := by
  -- by the work ahead, which falls with every round of the loop
  induction work : w.workAhead using Nat.strongRecOn generalizing w with
  | ind work' ih =>
    subst work
    rw [collect_eq]
    simp only [stopsBy_bind, stops w start, HostHeap.stopsBy_drain bounds, true_and]
    rintro ⟨finished, v⟩ stepped host drained
    cases finished with
    | true => exact stopsBy_pure _
    | false =>
      have next := keeps w v false host start stepped
      simp [ih _ (workAhead_lt_of_step stepped drained) next rfl]

end World

end CycleCollector
