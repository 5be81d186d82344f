import CycleCollector.Proofs.ReleaseOrder
import CycleCollector.Proofs.WholePass
/-!
# Passes without a fault

A pass over an arena meets a fault only where a handle names nothing, where an object was released
before, or where an object counts fewer references than are stored. If all handles are valid and
only unreleased objects are tracked, then marking goes through and the verdict can be carried out,
and a pass once started comes to its end.

## Main definitions

* `Arena.Closed`: every stored reference names an object.
* `World.Intact`: every handle that a pass comes across is valid.

## Main statements

* `Marking.exists_run`, `World.exists_disposeStaged`, `World.exists_finishPass`: no stage fails.
* `World.exists_completes_of_marking`, `World.exists_completes`: a pass that has started ends.
-/

namespace CycleCollector

/-- A fold has a result if each part has one and leaves what the parts after it need. -/
theorem exists_foldlM {α β : Type} {f : β → α → Except Fault β} (P : List α → β → Prop)
    (step : ∀ a as b, P (a :: as) b → ∃ b', f b a = .ok b' ∧ P as b') {as : List α} {b : β}
    (start : P as b) : ∃ b', as.foldlM f b = .ok b' ∧ P [] b' := by
  induction as generalizing b with
  | nil => exact ⟨b, rfl, start⟩
  | cons a as ih =>
    obtain ⟨b₁, first, rest⟩ := step a as b start
    obtain ⟨b₂, others, last⟩ := ih rest
    exact ⟨b₂, by rw [List.foldlM_cons, first]; exact others, last⟩

/-- A computation has a result if its first part has one and any such leads on to one. -/
theorem exists_bind_eq_ok {α β : Type} {x : Except Fault α} {f : α → Except Fault β}
    (first : ∃ a, x = .ok a) (second : ∀ a, x = .ok a → ∃ b, f a = .ok b) :
    ∃ b, (x >>= f) = .ok b := by
  obtain ⟨a, first⟩ := first
  obtain ⟨b, second⟩ := second a first
  exact ⟨b, bind_eq_ok.2 ⟨a, first, second⟩⟩

/-! ## The host heap -/

namespace HostHeap

variable {g g' : HostHeap} {bridge : Option HostRef} {eager : Bool}

theorem Linked.promoteAll {hs : List HostRef} (linked : g.Linked)
    (valid : ∀ h ∈ hs, h.index < g.objects.size) : (g.promoteAll hs).Linked := by
  have onward := onward_promoteAll g hs
  refine ⟨fun h k => ?_, fun h mem => ?_, fun h mem => ?_⟩
  · simpa using linked.edges h k
  · simpa using linked.roots h (onward.roots ▸ mem)
  · rw [objects_promoteAll]
    exact (mem_worklist_promoteAll.1 mem).elim (valid h) (linked.worklist h)

theorem Linked.exists_receive (linked : g.Linked) (valid : ∀ h ∈ bridge, h.index < g.objects.size)
    (eager : Bool) : ∃ g', g.receive eager bridge = .ok g' ∧ g'.Linked := by
  cases bridge with
  | none => exact ⟨g, rfl, linked⟩
  | some h =>
    have valid' : ∀ k ∈ [h], k.index < g.objects.size := by simpa using valid
    have handed : (g.promote h).Linked := linked.promoteAll valid'
    simp only [receive]
    split
    · exact handed.exists_drain
    · exact ⟨_, rfl, handed⟩

theorem Linked.beginCollection (linked : ∀ h k, Points g.objects h k → k.index < g.objects.size)
    (roots : ∀ h ∈ g.roots, h.index < g.objects.size) : g.beginCollection.Linked where
  edges h k edge := by
    simpa [HostHeap.beginCollection] using
      linked h k ((points_congr (map_unmarked_beginCollection g)).1 edge)
  roots h mem := by simpa [HostHeap.beginCollection] using roots h mem
  worklist h mem := by
    simpa [HostHeap.beginCollection] using roots h (List.mem_reverse.1 mem)

end HostHeap

/-! ## Marking -/

def Snapshot.Anchored (s : Snapshot) (host : HostHeap) : Prop :=
  ∀ r ∈ s.records, ∀ h ∈ r.bridge, h.index < host.objects.size

theorem Snapshot.Anchored.congr {s s' : Snapshot} {g g' : HostHeap} (anchored : s.Anchored g)
    (frozen : s'.frozen = s.frozen) (onward : g.Onward g') : s'.Anchored g' := by
  intro r mem h bridged
  obtain ⟨i, hi⟩ := Array.mem_iff_getElem?.1 mem
  obtain ⟨q, hq, same⟩ := exists_of_frozen_eq frozen.symm hi
  rw [HostHeap.size_of_map_unmarked onward.same]
  exact anchored q (Array.mem_of_getElem? hq) h ((congrArg Record.bridge same :).trans bridged)

namespace Marking

variable {m : Marking} {eager : Bool} {i : Nat}

/-- A visit goes through if the host heap knows the bridge of the record, and can receive it if the
record is alive. -/
theorem exists_visit (reached : ∀ r, m.snapshot.records[i]? = some r →
      ∃ b, m.host.reaches r.bridge = .ok b)
    (receives : ∀ r, m.snapshot.records[i]? = some r →
      0 < r.external ∨ m.host.reaches r.bridge = .ok true →
        ∃ host, m.host.receive eager r.bridge = .ok host) : ∃ m', m.visit eager i = .ok m' := by
  unfold visit
  split
  · exact ⟨m, rfl⟩
  · next r hr =>
    split
    · exact ⟨m, rfl⟩
    · obtain ⟨b, reaches⟩ := reached r hr
      by_cases alive : 0 < r.external ∨ m.host.reaches r.bridge = .ok true
      · obtain ⟨host, received⟩ := receives r hr alive
        have support : ∃ n, r.support m.host = .ok n := by
          by_cases positive : 0 < r.external
          · exact ⟨_, r.support_eq_ok.2 (.inl ⟨positive, rfl⟩)⟩
          · exact ⟨_, r.support_eq_ok.2 (.inr ⟨by omega, b, reaches, rfl⟩)⟩
        obtain ⟨n, support⟩ := support
        simp only [support, received, bind, Except.bind]
        split <;> exact ⟨_, rfl⟩
      · have support : r.support m.host = .ok 0 := by
          refine r.support_eq_ok.2 (.inr ⟨by omega, b, reaches, ?_⟩)
          cases b with
          | false => rfl
          | true => exact absurd (.inr reaches) alive
        simp only [support, bind, Except.bind]
        exact ⟨m, rfl⟩

section

variable {P : Snapshot → HostHeap → Prop}
  (goes : ∀ (m : Marking) i, P m.snapshot m.host → ∃ m', m.visit eager i = .ok m')
  (visit : ∀ m i m', P m.snapshot m.host → Visits eager m i m' → P m'.snapshot m'.host)

include goes visit

theorem exists_scan (start : P m.snapshot m.host) :
    ∃ m', m.scan eager = .ok m' ∧ P m'.snapshot m'.host := by
  refine exists_foldlM (fun _ (m : Marking) => P m.snapshot m.host) (fun i _ m holds => ?_) start
  obtain ⟨m', visited⟩ := goes m i holds
  exact ⟨m', visited, visit m i m' holds (visits_of_visit visited)⟩

theorem exists_run (limit : Option Nat) (start : P m.snapshot m.host) :
    ∃ progress m', m.run eager limit = .ok (progress, m') := by
  unfold run
  generalize scanBound m.snapshot limit = bound
  induction bound generalizing m with
  | zero => exact ⟨_, m, rfl⟩
  | succ bound ih =>
    obtain ⟨m₁, scanned, start₁⟩ := exists_scan goes visit start
    simp only [scanUpTo, scanned, bind, Except.bind]
    split
    · exact ⟨_, m₁, rfl⟩
    · exact ih start₁

end

theorem exists_visit_of_linked (linked : m.host.Linked) (anchored : m.snapshot.Anchored m.host)
    (eager : Bool) (i : Nat) : ∃ m', m.visit eager i = .ok m' := by
  refine exists_visit (fun r hr => ?_) fun r hr _ => ?_
  · exact HostHeap.exists_reaches (anchored r (Array.mem_of_getElem? hr))
  · obtain ⟨host, received, -⟩ :=
      linked.exists_receive (anchored r (Array.mem_of_getElem? hr)) eager
    exact ⟨host, received⟩

theorem Visits.linked {m' : Marking} (visits : Visits eager m i m') (linked : m.host.Linked)
    (anchored : m.snapshot.Anchored m.host) : m'.host.Linked := by
  cases visits with
  | quiet => exact linked
  | finds hr _ _ _ received =>
    obtain ⟨host, received', still⟩ :=
      linked.exists_receive (anchored _ (Array.mem_of_getElem? hr)) eager
    obtain rfl := Except.ok.inj (received.symm.trans received')
    exact still

end Marking

namespace World

variable {ρ : Type} [ForeignHeap ρ] {w : World ρ} {s : Snapshot}

/-- Marking ends if no visit and no drain fails, and so does the pass if its end does not fail. -/
theorem exists_completes_of_marking {P : Snapshot → HostHeap → Prop}
    (orderly : w.collector.Orderly) (marking : w.collector.phase = .marking)
    (taken : w.collector.snapshot? = some s) (start : P s w.host)
    (visits : ∀ eager (m : Marking) i, P m.snapshot m.host → ∃ m', m.visit eager i = .ok m')
    (drains : ∀ s g, P s g → ∃ g', g.drain = .ok g')
    (visit : ∀ eager m i m', P m.snapshot m.host → Marking.Visits eager m i m' →
      P m'.snapshot m'.host)
    (drain : ∀ s g g', P s g → g.drain = .ok g' → P s g')
    (finish : ∀ w₁ s₁, MarkedFrom P w w₁ s₁ →
      ∃ w₂ host, w₁.finishPass = .ok w₂ ∧ w₂.host.drain = .ok host) : ∃ w', Completes w w' := by
  induction work : w.workAhead using Nat.strongRecOn generalizing w s with
  | _ _ ih =>
    have marks : ∃ w₁ host, w.markStep = .ok w₁ ∧ w₁.host.drain = .ok host := by
      obtain ⟨progress, m, ran⟩ := Marking.exists_run (m := { snapshot := s, host := w.host })
        (visits w.collector.options.eagerHostTrace) (visit w.collector.options.eagerHostTrace)
        w.collector.options.scansPerStep start
      obtain ⟨host, drained⟩ := drains _ _ (Marking.run_induction ran start (visit _))
      exact ⟨_, host, by simp only [markStep, taken, ran, bind, Except.bind]; rfl, drained⟩
    obtain ⟨w₁, host, marked, drained⟩ := marks
    have stepped : w.step = .ok (false, w₁) := step_eq_ok.2 (.mark marking marked)
    obtain ⟨s₁, taken₁, kept, still, ended | ⟨goes, frame⟩⟩ :=
      markedFrom_of_markStep orderly taken start visit drain marked drained
    · obtain ⟨w₂, host', finished, last⟩ := finish _ s₁ ended
      exact ⟨_, .more stepped drained (.last (step_eq_ok.2 (.finish ended.phase finished)) last)⟩
    · obtain ⟨w', completes⟩ := ih _ (work ▸ workAhead_lt_of_step stepped drained)
        (w := { w₁ with host }) still goes taken₁ kept
        (fun w₂ s₂ from_ => finish w₂ s₂ (frame w₂ s₂ from_)) rfl
      exact ⟨w', .more stepped drained completes⟩

end World

/-! ## The arena -/

namespace Arena

variable {a b : Arena} {o p : ObjectId} {c : Cell}

def Closed (a : Arena) : Prop := ∀ o c, a.cell o = .ok c → ∀ p ∈ c.references, p.index < a.size

theorem forall_cell {P : ObjectId → Cell → Prop} : (∀ o c, a.cell o = .ok c → P o c) ↔
    ∀ i : Fin a.cells.size, P ⟨i⟩ a.cells[i] := by
  simp only [cell_eq_ok]
  refine ⟨fun all i => all ⟨i⟩ _ (Array.getElem?_eq_getElem i.2), fun all o c hc => ?_⟩
  obtain ⟨bound, rfl⟩ := Array.getElem?_eq_some_iff.1 hc
  exact all ⟨o.index, bound⟩

instance (a : Arena) (l : Ledger) : Decidable (a.Accurate l) := decidable_of_iff _ forall_cell.symm

instance (a : Arena) : Decidable a.Closed := decidable_of_iff _ forall_cell.symm

theorem Closed.congr (closed : a.Closed) (same : b.cells = a.cells) : b.Closed := by
  have size : b.size = a.size := by rw [Arena.size, same, Arena.size]
  intro o c hc p mem
  rw [size]
  exact closed o c (cell_congr same o ▸ hc) p mem

theorem Closed.releasable (closed : a.Closed) (unreleased : a.isReleased o = .ok false) :
    a.Releasable o := by
  obtain ⟨c, hc, fresh⟩ := map_eq_ok.1 unreleased
  exact ⟨c, hc, fresh, closed o c hc⟩

end Arena

/-! ## The stages of a pass -/

namespace World

variable {w w' : World Arena} {s : Snapshot} {o : ObjectId}

/-- Only unreleased objects are tracked, and what is stored in objects was allocated. -/
structure Grounded (w : World Arena) : Prop where
  tracked : ∀ o, w.collector.sets.contains o = true → w.foreign.isReleased o = .ok false
  closed : w.foreign.Closed

theorem Grounded.congr (grounded : w.Grounded) (cells : w'.foreign.cells = w.foreign.cells)
    (sets : ∀ o, w'.collector.sets.contains o = true → w.collector.sets.contains o = true) :
    w'.Grounded where
  tracked o mem := by
    rw [Arena.isReleased_congr cells]
    exact grounded.tracked o (sets o mem)
  closed := grounded.closed.congr cells

theorem Grounded.cell (grounded : w.Grounded) (tracked : w.collector.sets.contains o = true) :
    ∃ c, w.foreign.cell o = .ok c := by
  obtain ⟨c, hc, -⟩ := map_eq_ok.1 (grounded.tracked o tracked)
  exact ⟨c, hc⟩

theorem exists_prepareSets_of_cells
    (cells : ∀ o ∈ w.collector.sets.members .new, ∃ c, w.foreign.cell o = .ok c) :
    ∃ v, w.prepareSets = .ok v := by
  unfold prepareSets
  split
  · refine exists_bind_eq_ok ⟨_, ForeignHeap.select_eq_ok.2 ⟨fun o mem => ?_, rfl⟩⟩
      fun os selected => ?_
    · obtain ⟨c, hc⟩ := cells o mem
      refine exists_bind_eq_ok ⟨c.atomic, map_eq_ok.2 ⟨c, hc, rfl⟩⟩ fun atomic _ => ?_
      split
      · exact ⟨_, bind_eq_ok.2 ⟨c.bridge, map_eq_ok.2 ⟨c, hc, rfl⟩, rfl⟩⟩
      · exact ⟨false, rfl⟩
    · have new : ∀ o ∈ os, o ∈ w.collector.sets.members .new :=
        fun o mem => ((ForeignHeap.mem_select selected).1 mem).1
      have fold := exists_foldlM (f := untrackContainer) (fun os (v : World Arena) =>
        v.foreign.cells = w.foreign.cells ∧ ∀ o ∈ os, o ∈ w.collector.sets.members .new) ?_
        ⟨rfl, new⟩
      · obtain ⟨v, done, -⟩ := fold
        exact ⟨v, done⟩
      · rintro o os v ⟨same, new⟩
        rw [List.forall_mem_cons] at new
        obtain ⟨c, hc⟩ := cells o new.1
        have refs : v.foreign.references o = .ok c.references :=
          map_eq_ok.2 ⟨c, (Arena.cell_congr same o).trans hc, rfl⟩
        simp only [untrackContainer, Arena.foreign_references, refs, bind, Except.bind]
        split
        · exact ⟨v, rfl, same, new.2⟩
        · exact ⟨_, rfl, same, new.2⟩
  · exact ⟨w, rfl⟩

theorem exists_prepareSets (grounded : w.Grounded) : ∃ v, w.prepareSets = .ok v :=
  exists_prepareSets_of_cells fun _ mem => grounded.cell (TrackedSets.contains_of_mem_members mem)

/-- A snapshot can be taken of objects whose counterparts are valid. -/
theorem exists_take {sets : TrackedSets} {foreign : Arena} {host : HostHeap}
    (cells : ∀ o ∈ sets.members .inCollection, ∃ c, foreign.cell o = .ok c ∧
      ∀ h ∈ c.bridge, h.index < host.objects.size) :
    ∃ taken, Snapshot.take sets foreign host = .ok taken := by
  have describes : ∀ o ∈ sets.members .inCollection,
      ∃ r, Snapshot.Describes (sets.members .inCollection) foreign host o r := by
    intro o mem
    obtain ⟨c, hc, valid⟩ := cells o mem
    obtain ⟨b, reaches⟩ := HostHeap.exists_reaches valid
    exact Snapshot.exists_describe (map_eq_ok.2 ⟨c, hc, rfl⟩) (map_eq_ok.2 ⟨c, hc, rfl⟩) reaches
      (map_eq_ok.2 ⟨c, hc, rfl⟩)
  obtain ⟨rs, described⟩ := Snapshot.exists_describeAll describes
  exact ⟨_, bind_eq_ok.2 ⟨rs, described, rfl⟩⟩

/-- A pass starts if a snapshot can be taken and its roots can be collected. -/
theorem exists_startPass {v : World Arena} {taken s₀ : Snapshot} (orderly : w.collector.Orderly)
    (idle : w.collector.phase = .idle) (prepared : w.prepareSets = .ok v)
    (htaken : Snapshot.take (v.collector.sets.merged .new .inCollection) v.foreign v.host =
      .ok taken)
    (roots : taken.collectRoots = .ok s₀) : ∃ w₁, w.startPass = .ok w₁ := by
  have none : w.collector.snapshot?.isSome = false := orderly.inPass.trans (by rw [idle]; rfl)
  unfold startPass
  simp only [none, prepared, htaken, roots, bind, Except.bind]
  exact ⟨_, rfl⟩

open ForeignHeap in
/-- Staged objects can be disposed of, whatever their finalizers, if those that will be released can
be. -/
theorem exists_disposeStaged_of_cells
    (cells : ∀ o, w.collector.sets.contains o = true → ∃ c, w.foreign.cell o = .ok c)
    (releases : ¬Finalizable w.foreign (w.collector.sets.members .staged) →
      ∀ o, Doomed w.foreign (w.collector.sets.members .staged) o → w.foreign.Releasable o) :
    ∃ outcome w', w.disposeStaged = .ok (outcome, w') := by
  have answers : ∀ o ∈ w.collector.sets.members .staged,
      (∃ kind, w.foreign.finalizer o = .ok kind) ∧ ∃ os, w.foreign.references o = .ok os := by
    intro o mem
    obtain ⟨c, hc⟩ := cells o (TrackedSets.contains_of_mem_members mem)
    exact ⟨⟨_, map_eq_ok.2 ⟨c, hc, rfl⟩⟩, _, map_eq_ok.2 ⟨c, hc, rfl⟩⟩
  obtain ⟨n, w₁, kept⟩ := exists_keepLegacy answers
  obtain ⟨os, keeps⟩ := keeps_of_keepLegacy kept
  have cells₁ := (Arena.cells_of_informed keeps.informed).1
  have tracked₁ : ∀ o, w₁.collector.sets.contains o = w.collector.sets.contains o := fun o => by
    rw [keeps.sets, TrackedSets.contains_keepAll]
  have doomed : ∀ o, o ∈ w₁.collector.sets.members .staged ↔
      Doomed w.foreign (w.collector.sets.members .staged) o := fun o => by
    simp [keeps.staged, Doomed, keeps.retained]
  have isolates : ∃ m w₂, w₁.isolateFinalizable = .ok (m, w₂) := by
    refine exists_isolateFinalizable fun o mem => ?_
    rw [Arena.foreign_finalizer, Arena.finalizer_congr cells₁]
    exact (answers o ((doomed o).1 mem).1).1
  obtain ⟨m, w₂, isolated⟩ := isolates
  have left : w₂.foreign.cells = w.foreign.cells ∧
      (∀ o, w₂.collector.sets.contains o = w.collector.sets.contains o) ∧
      ∀ o ∈ w₂.collector.sets.members .staged, w.foreign.Releasable o := by
    obtain ⟨modern, found, ⟨none, -, rfl⟩ | ⟨-, -, _, rfl⟩⟩ := isolateFinalizable_eq_ok isolated
    · refine ⟨cells₁, tracked₁, fun o mem => releases ?_ o ((doomed o).1 mem)⟩
      rintro ⟨p, here, own⟩
      have mem := (mem_withFinalizer found).2
        ⟨(doomed p).2 here, (Arena.finalizer_congr cells₁ p).trans own⟩
      simp [none] at mem
    · exact ⟨cells₁, by simpa using tracked₁, by simp [TrackedSets.members_merged]⟩
  obtain ⟨cells₂, tracked₂, releasable⟩ := left
  have marks : ∃ w₃, w₂.markBorder (if m = 0 then .cyclicCount else .rawCount) = .ok w₃ := by
    refine exists_markBorder _ fun o tracked => ?_
    obtain ⟨c, hc⟩ := cells o (tracked₂ o ▸ tracked)
    rw [← Arena.cell_congr cells₂] at hc
    exact ⟨⟨_, map_eq_ok.2 ⟨c, hc, rfl⟩⟩, _, map_eq_ok.2 ⟨c, hc, rfl⟩⟩
  obtain ⟨w₃, marked⟩ := marks
  have releases : ∃ k w₄, w₃.releaseStaged = .ok (k, w₄) := by
    obtain ⟨_, _, -, rfl⟩ := marks_of_markBorder marked
    obtain ⟨foreign, released⟩ := (Arena.exists_releaseAll_iff
      (w₂.collector.sets.nodup_members .staged)).2 fun o mem => (releasable o mem).congr cells₂
    exact exists_releaseStaged released
  obtain ⟨k, w₄, released⟩ := releases
  exact ⟨_, w₄, disposeStaged_eq_ok.2 ⟨n, w₁, m, w₂, w₃, k, kept, isolated, marked, released, rfl⟩⟩

theorem exists_disposeStaged (grounded : w.Grounded) :
    ∃ outcome w', w.disposeStaged = .ok (outcome, w') :=
  exists_disposeStaged_of_cells (fun _ => grounded.cell) fun _ o doomed =>
    grounded.closed.releasable (grounded.tracked o (TrackedSets.contains_of_mem_members doomed.1))

structure Intact (w : World Arena) : Prop extends Grounded w where
  bridges : ∀ o h, w.foreign.bridge o = .ok (some h) → h.index < w.host.objects.size
  linked : w.host.Linked
  anchored : ∀ s, w.collector.snapshot? = some s → s.Anchored w.host

theorem Intact.drain {host : HostHeap} (intact : w.Intact) (drained : w.host.drain = .ok host) :
    Intact { w with host } := by
  have onward := HostHeap.onward_drain drained
  obtain ⟨_, same, linked⟩ := intact.linked.exists_drain
  obtain rfl := Except.ok.inj (drained.symm.trans same)
  refine ⟨⟨intact.tracked, intact.closed⟩, fun o h bridged => ?_, linked, fun s taken => ?_⟩
  · exact HostHeap.size_of_map_unmarked onward.same ▸ intact.bridges o h bridged
  · exact (intact.anchored s taken).congr rfl onward

/-- A pass can be finished, and the host heap can trace what it is handed then. -/
theorem exists_finishPass (intact : w.Intact) (orderly : w.collector.Orderly)
    (taken : w.collector.snapshot? = some s) :
    ∃ w' host, w.finishPass = .ok w' ∧ w'.host.drain = .ok host := by
  have records := orderly.records s taken
  have judges : ∃ verdict sets, s.judge w.collector.sets w.foreign w.host w.collector.invalidated =
      .ok (verdict, sets) := by
    refine Snapshot.exists_judge _ fun o mem r found _ => ?_
    obtain ⟨recorded, rfl⟩ := (Snapshot.recordOf_eq_some records.wellformed.nodup).1 found
    obtain ⟨c, hc⟩ := intact.cell (TrackedSets.contains_of_mem_members mem)
    obtain ⟨b, reaches⟩ := HostHeap.exists_reaches (intact.anchored s taken r recorded)
    exact Snapshot.exists_isUnchanged (map_eq_ok.2 ⟨c, hc, rfl⟩) reaches (map_eq_ok.2 ⟨c, hc, rfl⟩)
  obtain ⟨verdict, sets, judged⟩ := judges
  have grounded : (w.discardSnapshot sets).Grounded :=
    intact.toGrounded.congr rfl fun o mem => Snapshot.contains_of_judge judged ▸ mem
  obtain ⟨outcome, v, disposed⟩ := exists_disposeStaged grounded
  obtain ⟨⟨kept, isolated, released, reported, disposes⟩, -⟩ := disposes_of_disposeStaged disposed
  obtain ⟨bridges, handed, mem_bridges⟩ := disposes.border
  have cells := (Arena.cells_of_informed disposes.informed).1
  have linked : v.host.Linked := by
    rw [handed]
    refine intact.linked.promoteAll fun h mem => ?_
    obtain ⟨o, bridged, -⟩ := (mem_bridges h).1 mem
    rw [Arena.foreign_bridge, Arena.bridge_congr cells] at bridged
    exact intact.bridges o h bridged
  obtain ⟨host, drained, -⟩ := linked.exists_drain
  exact ⟨v.endPass (if verdict = .consistent then outcome else .resurrected), host,
    finishPass_of_judge taken judged disposed, drained⟩

/-- A pass that has started comes to its end. -/
theorem exists_completes (intact : w.Intact) (orderly : w.collector.Orderly)
    (inPass : w.collector.phase.inPass = true) : ∃ w', Completes w w' := by
  obtain ⟨s, taken⟩ := Option.isSome_iff_exists.1 (orderly.inPass.trans inPass)
  cases phase : w.collector.phase with
  | idle => simp [phase, Phase.inPass] at inPass
  | sweepDue => simp [phase, Phase.inPass] at inPass
  | marked =>
    obtain ⟨w₁, host, finished, drained⟩ := exists_finishPass intact orderly taken
    exact ⟨_, .last (step_eq_ok.2 (.finish phase finished)) drained⟩
  | marking =>
    refine exists_completes_of_marking
      (P := fun s g => g.Linked ∧ s.Anchored g ∧ w.host.Onward g) orderly phase taken
      ⟨intact.linked, intact.anchored s taken, .refl _⟩ ?visits ?drains ?visit ?drain ?finish
    case visits =>
      rintro eager m i ⟨linked, anchored, -⟩
      exact Marking.exists_visit_of_linked linked anchored eager i
    case drains =>
      rintro s g ⟨linked, -⟩
      obtain ⟨g', drained, -⟩ := linked.exists_drain
      exact ⟨g', drained⟩
    case visit =>
      rintro eager m i m' ⟨linked, anchored, onward⟩ visits
      exact ⟨visits.linked linked anchored, anchored.congr visits.frozen visits.onward,
        onward.trans visits.onward⟩
    case drain =>
      rintro s g g' ⟨linked, anchored, onward⟩ drained
      obtain ⟨_, same, still⟩ := linked.exists_drain
      obtain rfl := Except.ok.inj (drained.symm.trans same)
      have later := HostHeap.onward_drain drained
      exact ⟨still, anchored.congr rfl later, onward.trans later⟩
    case finish =>
      intro w₁ s₁ from_
      obtain ⟨linked, anchored, onward⟩ := from_.kept
      refine exists_finishPass ⟨⟨fun o tracked => ?_, ?_⟩, fun o h bridged => ?_, linked, ?_⟩
        from_.orderly from_.snapshot
      · rw [from_.foreign]
        exact intact.tracked o (from_.sets ▸ tracked)
      · exact from_.foreign ▸ intact.closed
      · rw [from_.foreign] at bridged
        exact HostHeap.size_of_map_unmarked onward.same ▸ intact.bridges o h bridged
      · intro s' same
        exact Option.some.inj (from_.snapshot.symm.trans same) ▸ anchored

end World

end CycleCollector
