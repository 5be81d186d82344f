import CycleCollector.Proofs.Books
import CycleCollector.Proofs.Runs
/-!
# What a consistent verdict says about an arena

If the books of an arena are in order when a pass is judged, a consistent verdict settles where the
references to a dead object come from. Its raw count is as recorded, and the recorded references are
those that dead objects have to it; these are all stored in the arena. So nothing is left over for
any other object, for the program, or for a bridge.

## Main statements

* `World.Unreferenced`: what holds of a dead object.
* `World.unreferenced_of_consistent`: it does.
* `World.unreferenced_of_finishPass`: so it does of all that the end of a pass releases.
-/

namespace CycleCollector

/-- Taking the bias off a right count leaves the references. -/
theorem Refcount.stripBias_of_tally {l : Ledger} {o : ObjectId} {n : Nat}
    (small : n < Refcount.hostBias) : Refcount.stripBias (l.bias o + n) = n := by
  unfold Ledger.bias
  split
  · exact Refcount.stripBias_hostBias_add (Nat.lt_trans small (by decide))
  · rw [Nat.zero_add, Refcount.stripBias_of_lt small]

namespace Arena

variable {a b : Arena} {os : List ObjectId} {o : ObjectId}

theorem refcount_eq_ok {n : Nat} :
    a.refcount o = .ok n ↔ ∃ c, a.cell o = .ok c ∧ c.refcount = n :=
  map_eq_ok

theorem references_eq_ok : a.references o = .ok os ↔ ∃ c, a.cell o = .ok c ∧ c.references = os :=
  map_eq_ok

/-- A right count is, without its bias, the number of references. -/
theorem Accurate.stripBias_eq {l : Ledger} {n : Nat} (accurate : a.Accurate l) (small : a.Small l)
    (count : a.refcount o = .ok n) : Refcount.stripBias n = a.stored o + l.held.count o := by
  obtain ⟨c, hc, rfl⟩ := refcount_eq_ok.1 count
  rw [accurate o c hc, Nat.add_assoc, Refcount.stripBias_of_tally (small o)]

/-- Releases change objects, and they are logged in order. -/
theorem exists_cells_of_releaseAll (done : ForeignHeap.releaseAll a os = .ok b) :
    ∃ cells, b = { a with cells, released := a.released ++ os } := by
  have decrefAll :
      ∀ {a b : Arena} {os}, a.decrefAll os = .ok b → ∃ cells, b = { a with cells } := by
    intro a b os done
    refine decrefAll_induction (P := fun b => ∃ cells, b = { a with cells }) done ⟨_, rfl⟩ ?_
    rintro p _ _ c ⟨cells, rfl⟩ -
    exact ⟨_, rfl⟩
  induction os generalizing a with
  | nil => exact ⟨a.cells, by rw [List.append_nil]; exact (pure_eq_ok.1 done).symm⟩
  | cons o os ih =>
    rw [ForeignHeap.releaseAll, List.foldlM_cons, bind_eq_ok] at done
    obtain ⟨a₁, first, others⟩ := done
    obtain ⟨c, -, -, a₂, uncounted, rfl⟩ := release_eq_ok.1 first
    obtain ⟨_, rfl⟩ := decrefAll uncounted
    obtain ⟨cells, rfl⟩ := ih others
    exact ⟨cells, by simp [setCell]⟩

/-- Releases are logged in order. -/
theorem released_of_releaseAll (done : ForeignHeap.releaseAll a os = .ok b) :
    b.released = a.released ++ os := by
  obtain ⟨_, rfl⟩ := exists_cells_of_releaseAll done
  rfl

theorem isReleased_of_releaseAll (done : ForeignHeap.releaseAll a os = .ok b) :
    b.isReleased o = .ok true ↔ a.isReleased o = .ok true ∨ o ∈ os := by
  have decrefAll : ∀ {a b : Arena} {os}, a.decrefAll os = .ok b →
      (b.isReleased o = .ok true ↔ a.isReleased o = .ok true) := by
    intro a b os done
    refine decrefAll_induction (P := fun b => b.isReleased o = .ok true ↔ a.isReleased o = .ok true)
      done .rfl ?_
    intro p _ a₁ c same hc
    refine .trans ?_ same
    simp only [isReleased, map_eq_ok, cell_setCell (lt_size_of_cell hc)]
    grind
  induction os generalizing a with
  | nil => exact pure_eq_ok.1 done ▸ by simp
  | cons p os ih =>
    rw [ForeignHeap.releaseAll, List.foldlM_cons, bind_eq_ok] at done
    obtain ⟨a₁, first, others⟩ := done
    refine (ih others).trans ?_
    rw [List.mem_cons, ← or_assoc]
    refine or_congr_left ?_
    obtain ⟨c, hc, -, a₂, uncounted, rfl⟩ := release_eq_ok.1 first
    refine (decrefAll uncounted).trans ?_
    simp only [isReleased, map_eq_ok, cell_setCell (lt_size_of_cell hc)]
    grind

theorem cell_congr (same : b.cells = a.cells) (o : ObjectId) : b.cell o = a.cell o := by
  rw [cell, cell, same]

theorem refcount_congr (same : b.cells = a.cells) (o : ObjectId) : b.refcount o = a.refcount o := by
  rw [refcount, cell_congr same, ← refcount]

theorem bridge_congr (same : b.cells = a.cells) (o : ObjectId) : b.bridge o = a.bridge o := by
  rw [bridge, cell_congr same, ← bridge]

theorem references_congr (same : b.cells = a.cells) (o : ObjectId) :
    b.references o = a.references o := by
  rw [references, cell_congr same, ← references]

theorem finalizer_congr (same : b.cells = a.cells) (o : ObjectId) :
    b.finalizer o = a.finalizer o := by
  rw [finalizer, cell_congr same, ← finalizer]

theorem isReleased_congr (same : b.cells = a.cells) (o : ObjectId) :
    b.isReleased o = a.isReleased o := by
  rw [isReleased, cell_congr same, ← isReleased]

theorem stored_congr (same : b.cells = a.cells) (o : ObjectId) : b.stored o = a.stored o := by
  rw [stored, stored, same]

theorem Accurate.congr {l : Ledger} (accurate : a.Accurate l) (same : b.cells = a.cells) :
    b.Accurate l := by
  intro o c hc
  rw [stored_congr same]
  exact accurate o c (cell_congr same o ▸ hc)

theorem Small.congr {l : Ledger} (small : a.Small l) (same : b.cells = a.cells) : b.Small l :=
  fun o => stored_congr same o ▸ small o

theorem Books.congr {l : Ledger} {owed : List ObjectId} (books : a.Books l owed)
    (same : b.cells = a.cells) : b.Books l owed := by
  have size : b.size = a.size := by rw [Arena.size, same, Arena.size]
  refine ⟨fun o c hc => ?_, fun o c hc => ?_, ?_, ?_⟩
  · rw [Arena.stored, same]
    exact books.tally o c (cell_congr same o ▸ hc)
  · rw [size]
    exact books.stored o c (cell_congr same o ▸ hc)
  · rw [size]
    exact books.held
  · rw [size]
    exact books.linked

end Arena

namespace World

variable {w w' : World Arena} {l : Ledger} {s : Snapshot} {sets : TrackedSets} {o p : ObjectId}
  {r : Snapshot.Record}

/-- All references to `o` are stored in objects of a list, and neither the program nor a live bridge
holds it. -/
structure Unreferenced (w : World Arena) (l : Ledger) (os : List ObjectId) (o : ObjectId) :
    Prop where
  stored : ∀ p c, w.foreign.cell p = .ok c → o ∈ c.references → p ∈ os
  held : o ∉ l.held
  bridge : ∀ h, w.foreign.bridge o = .ok (some h) → w.host.isReachable h = .ok false

theorem mem_staged_of_consistent (orderly : w.collector.Orderly)
    (taken : w.collector.snapshot? = some s)
    (judged : s.judge w.collector.sets w.foreign w.host w.collector.invalidated =
      .ok (.consistent, sets)) : o ∈ sets.members .staged ↔ o ∈ s.dead := by
  obtain ⟨valid, -, rfl⟩ := Snapshot.judge_consistent judged
  have records := orderly.records s taken
  rw [Snapshot.members_enterAll_inCollection s orderly.staged, if_pos rfl, List.mem_filter,
    Snapshot.findsDead_iff, Snapshot.mem_dead]
  constructor
  · rintro ⟨-, r, found, dead⟩
    obtain ⟨mem, same⟩ := (Snapshot.recordOf_eq_some records.wellformed.nodup).1 found
    exact ⟨r, mem, dead, same⟩
  · rintro ⟨r, mem, dead, rfl⟩
    obtain ⟨collected, found⟩ := records.recordOf_of_mem valid mem
    exact ⟨collected, r, found, dead⟩

/-- Where a consistent pass ends, a dead object has its recorded count, dead objects store all
references to it, and nothing else holds it. -/
theorem unreferenced_of_consistent (orderly : w.collector.Orderly)
    (marked : w.collector.phase = .marked) (taken : w.collector.snapshot? = some s)
    (accurate : w.foreign.Accurate l) (small : w.foreign.Small l)
    (judged : s.judge w.collector.sets w.foreign w.host w.collector.invalidated =
      .ok (.consistent, sets)) (mem : r ∈ s.records) (dead : r.external = 0) :
    w.foreign.refcount r.object = .ok r.refcount ∧ w.host.reaches r.bridge = .ok false ∧
      w.foreign.stored r.object ≤ w.foreign.storedIn s.dead r.object ∧ r.object ∉ l.held := by
  obtain ⟨valid, unchanged, -⟩ := Snapshot.judge_consistent judged
  have records := orderly.records s taken
  have nodup := records.wellformed.nodup
  have compared : ∀ q ∈ s.records, q.external = 0 →
      s.isUnchanged q w.collector.sets w.foreign w.host = .ok true := by
    intro q q_mem q_dead
    obtain ⟨collected, found⟩ := records.recordOf_of_mem valid q_mem
    exact unchanged q.object collected q found q_dead
  have part : w.collector.sets.takesPart r.object = true :=
    Snapshot.takesPart_of_mem_inCollection (records.recordOf_of_mem valid mem).1
  -- what the snapshot recorded of a dead object is what it stores now
  have stores : ∀ q ∈ s.records, q.external = 0 →
      (s.objectsAt q.edges).count r.object = (w.foreign.referencesOf q.object).count r.object := by
    intro q q_mem q_dead
    obtain ⟨-, -, os, references, same⟩ :=
      Snapshot.isUnchanged_eq_ok_true.1 (compared q q_mem q_dead)
    obtain ⟨c, hc, rfl⟩ := Arena.references_eq_ok.1 references
    rw [← same, List.count_filter part, Arena.referencesOf_eq hc]
  obtain ⟨i, hi⟩ := Array.mem_iff_getElem?.1 mem
  have explained := records.balanced.intrinsic_eq_sum nodup
    (fun q q_mem => records.dead_iff marked q_mem) hi dead
  have all : r.intrinsic = w.foreign.storedIn s.dead r.object := by
    rw [explained, Arena.storedIn, Snapshot.dead, List.map_map]
    refine congrArg List.sum (List.map_congr_left fun q q_mem => ?_)
    obtain ⟨q_mem, q_dead⟩ := List.mem_filter.1 q_mem
    exact stores q (Array.mem_toList_iff.1 q_mem) (by simpa [Snapshot.Record.isDead] using q_dead)
  obtain ⟨count, bridge, -⟩ := Snapshot.isUnchanged_eq_ok_true.1 (compared r mem dead)
  have stripped := accurate.stripBias_eq small count
  have most := Arena.storedIn_le (a := w.foreign) (Snapshot.nodup_dead nodup) r.object
  simp only [Snapshot.Record.intrinsic, stripped] at all
  refine ⟨count, bridge, by omega, List.count_eq_zero.1 (by omega)⟩

/-- The end of a pass releases objects that nothing holds but they themselves. -/
theorem unreferenced_of_finishPass (orderly : w.collector.Orderly)
    (marked : w.collector.phase = .marked) (accurate : w.foreign.Accurate l)
    (small : w.foreign.Small l)
    (bridges : ∀ s, w.collector.snapshot? = some s → ∀ r ∈ s.records,
      w.foreign.refcount r.object = .ok r.refcount → w.foreign.bridge r.object = .ok r.bridge)
    (finished : w.finishPass = .ok w') : ∃ a released, a.cells = w.foreign.cells ∧
      a.released = w.foreign.released ∧ ForeignHeap.releaseAll a released = .ok w'.foreign ∧
      w'.host.objects = w.host.objects ∧ ∀ o ∈ released, w.Unreferenced l released o := by
  obtain ⟨s, verdict, sets, outcome, v, taken, judged, disposed, rfl⟩ := finishPass_eq_ok finished
  obtain ⟨⟨kept, isolated, released, reported, disposes⟩, -⟩ := disposes_of_disposeStaged disposed
  obtain ⟨cells, log⟩ := Arena.cells_of_informed disposes.informed
  have host : v.host.objects = w.host.objects := by
    obtain ⟨bridges, same, -⟩ := disposes.border
    rw [same, HostHeap.objects_promoteAll, host_discardSnapshot]
  refine ⟨reported, released, cells, log, disposes.released, host, fun o mem => ?_⟩
  cases verdict with
  | inconsistent =>
    obtain ⟨-, undone⟩ := Snapshot.judge_inconsistent orderly.staged judged
    obtain ⟨-, -, rfl, -⟩ := disposes.nothing undone.staged
    simp at mem
  | consistent =>
    have staged : ∀ p, p ∈ sets.members .staged ↔ p ∈ s.dead :=
      fun p => mem_staged_of_consistent orderly taken judged
    obtain ⟨-, rfl⟩ | ⟨-, released_eq⟩ := disposes.rest
    · simp at mem
    · rw [released_eq] at mem ⊢
      simp only [sets_discardSnapshot, List.mem_filter, decide_eq_true_eq] at mem
      obtain ⟨o_staged, o_left⟩ := mem
      obtain ⟨r, recorded, dead, rfl⟩ := Snapshot.mem_dead.1 ((staged o).1 o_staged)
      obtain ⟨count, unreached, all, unheld⟩ :=
        unreferenced_of_consistent orderly marked taken accurate small judged recorded dead
      refine ⟨fun p c hc refers => ?_, unheld, fun h bridged => ?_⟩
      · have nodup := (orderly.records s taken).wellformed.nodup
        have p_staged : p ∈ sets.members .staged :=
          (staged p).2 (Arena.mem_of_stored_le (Snapshot.nodup_dead nodup) all hc refers)
        -- what an object that is kept refers to is kept as well
        have p_left : p ∉ kept := fun p_kept => o_left <|
          disposes.closed p p_kept c.references (Arena.references_eq_ok.2 ⟨c, hc, rfl⟩) r.object
            refers o_staged
        simpa [p_left] using p_staged
      · have same := bridges s taken r recorded count
        rw [bridged] at same
        rw [← Except.ok.inj same] at unreached
        exact unreached

end World

end CycleCollector
