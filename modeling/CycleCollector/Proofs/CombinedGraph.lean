import CycleCollector.Proofs.Totality
/-!
# Two heaps as one graph

Stored references, bridges in both directions and edges of the host heap make one graph of both
heaps. A world is *tidy* when the counts agree with that graph and just the objects that were not
released are tracked, none of them with a finalizer. The snapshot of a tidy world is a picture of
the foreign half of the graph: its roots are what the program holds and what is bridged to a
prebuilt object.

## Main definitions

* `World.Live`: what is reached in the graph.
* `World.Tidy`: the worlds in which this decides what stays.
* `World.Pictures`: a snapshot that shows the foreign half.

## Main statements

* `World.Tidy.pictures`: the roots of a tidy world.
* `World.Tidy.exists_startPass`: a tidy world can start a pass.
-/

namespace CycleCollector

theorem Arena.targets_eq (a : Arena) (o : ObjectId) :
    ForeignHeap.targets a o = a.referencesOf o := by
  rw [ForeignHeap.targets, foreign_references, references, cell, referencesOf]
  cases a.cells[o.index]? <;> rfl

inductive Node where
  | foreign (o : ObjectId)
  | host (h : HostRef)
deriving DecidableEq, Repr

namespace World

/-- What is reached in both heaps from the objects that the program holds, from the roots of the
host heap, and from objects bridged to what is alive for ever. Of the bridges, those of objects that
`counts` are crossed, in both directions. -/
inductive Live (w : World Arena) (l : Ledger) (counts : ObjectId → Prop) : Node → Prop
  | held {o : ObjectId} : o ∈ l.held → Live w l counts (.foreign o)
  | root {h : HostRef} : h ∈ w.host.roots → Live w l counts (.host h)
  | prebuilt {o : ObjectId} {h : HostRef} : counts o → w.foreign.bridge o = .ok (some h) →
      HostHeap.Prebuilt w.host.objects h → Live w l counts (.foreign o)
  | reference {o p : ObjectId} : Live w l counts (.foreign o) → p ∈ w.foreign.referencesOf o →
      Live w l counts (.foreign p)
  | across {o : ObjectId} {h : HostRef} : Live w l counts (.foreign o) → counts o →
      w.foreign.bridge o = .ok (some h) → Live w l counts (.host h)
  | back {o : ObjectId} {h : HostRef} : Live w l counts (.host h) → counts o →
      w.foreign.bridge o = .ok (some h) → Live w l counts (.foreign o)
  | edge {h k : HostRef} : Live w l counts (.host h) → HostHeap.Points w.host.objects h k →
      Live w l counts (.host k)

def Unreleased (w : World Arena) (o : ObjectId) : Prop := w.foreign.isReleased o = .ok false

/-- Every count is right, every handle is valid, no object has a finalizer or is a container, and an
idle collector tracks the unreleased objects, none of which waits for anything. -/
structure Tidy (w : World Arena) (l : Ledger) : Prop where
  idle : w.collector.phase = .idle
  cycleDetection : w.collector.options.cycleDetection = true
  tracked : ∀ o, w.collector.sets.contains o = true ↔ w.Unreleased o
  roles : ∀ o, w.collector.sets.contains o = true →
    o ∈ w.collector.sets.members .new ∨ o ∈ w.collector.sets.members .inCollection
  accurate : w.foreign.Accurate l
  small : w.foreign.Small l
  plain : ∀ o c, w.foreign.cell o = .ok c → c.finalizer = .none ∧ c.atomic = false
  emptied : ∀ o c, w.foreign.cell o = .ok c → c.released = true → c.references = []
  closed : w.foreign.Closed
  bridges : ∀ o h, w.foreign.bridge o = .ok (some h) → h.index < w.host.objects.size
  edges : ∀ h k, HostHeap.Points w.host.objects h k → k.index < w.host.objects.size
  roots : ∀ h ∈ w.host.roots, h.index < w.host.objects.size

/-- A snapshot has a record of every unreleased object, edges where there are references, and as
roots what is held and what is bridged to something prebuilt. -/
structure Pictures (w : World Arena) (l : Ledger) (s : Snapshot) : Prop where
  objects : ∀ o, o ∈ s.objects ↔ w.Unreleased o
  bridge : ∀ r ∈ s.records, w.foreign.bridge r.object = .ok r.bridge
  edges : ∀ r ∈ s.records, ∀ (j : Nat) q, s.records[j]? = some q →
    (j ∈ r.edges ↔ q.object ∈ w.foreign.referencesOf r.object)
  roots : ∀ r ∈ s.records, 0 < r.external ↔
    r.object ∈ l.held ∨ ∃ h, r.bridge = some h ∧ HostHeap.Prebuilt w.host.objects h

variable {w : World Arena} {l : Ledger} {taken s₀ : Snapshot} {o : ObjectId} {r : Snapshot.Record}

/-- Tidiness can be checked entry by entry, object by object and edge by edge. -/
theorem tidy_of_checks (idle : w.collector.phase = .idle)
    (cycleDetection : w.collector.options.cycleDetection = true)
    (entries : ∀ e ∈ w.collector.sets.entries, (e.role = .new ∨ e.role = .inCollection) ∧
      w.foreign.isReleased e.object = .ok false)
    (cells : ∀ i : Fin w.foreign.cells.size,
      (w.foreign.cells[i].released = false → w.collector.sets.contains ⟨i⟩ = true) ∧
      (w.foreign.cells[i].released = true → w.foreign.cells[i].references = []) ∧
      (w.foreign.cells[i].finalizer = .none ∧ w.foreign.cells[i].atomic = false) ∧
      ∀ h ∈ w.foreign.cells[i].bridge, h.index < w.host.objects.size)
    (accurate : w.foreign.Accurate l) (closed : w.foreign.Closed)
    (few : (w.foreign.cells.toList.map fun c => c.references.length).sum + l.held.length <
      Refcount.hostBias)
    (edges : ∀ x ∈ w.host.objects.toList, ∀ k ∈ x.edges, k.index < w.host.objects.size)
    (roots : ∀ h ∈ w.host.roots, h.index < w.host.objects.size) : w.Tidy l := by
  have cells := Arena.forall_cell (P := fun o c =>
    (c.released = false → w.collector.sets.contains o = true) ∧
    (c.released = true → c.references = []) ∧ (c.finalizer = .none ∧ c.atomic = false) ∧
    ∀ h ∈ c.bridge, h.index < w.host.objects.size) |>.2 cells
  have entry : ∀ o, w.collector.sets.contains o = true →
      ∃ e ∈ w.collector.sets.entries, e.object = o := fun o => TrackedSets.contains_iff.1
  constructor
  case idle => exact idle
  case cycleDetection => exact cycleDetection
  case tracked =>
    refine fun o => ⟨fun tracked => ?_, fun unreleased => ?_⟩
    · obtain ⟨e, mem, rfl⟩ := entry o tracked
      exact (entries e mem).2
    · obtain ⟨c, hc, fresh⟩ := map_eq_ok.1 unreleased
      exact (cells o c hc).1 fresh
  case roles =>
    intro o tracked
    obtain ⟨e, mem, rfl⟩ := entry o tracked
    simp only [TrackedSets.mem_members, TrackedSets.roleOf_eq_some]
    exact (entries e mem).1.imp (⟨e, mem, rfl, ·⟩) (⟨e, mem, rfl, ·⟩)
  case accurate => exact accurate
  case small => exact Arena.small_of_length few
  case plain => exact fun o c hc => (cells o c hc).2.2.1
  case emptied => exact fun o c hc => (cells o c hc).2.1
  case closed => exact closed
  case bridges =>
    intro o h bridged
    obtain ⟨c, hc, same⟩ := map_eq_ok.1 bridged
    exact (cells o c hc).2.2.2 h same
  case edges =>
    rintro h k ⟨x, hx, mem⟩
    exact edges x (Array.mem_toList_iff.2 (Array.mem_of_getElem? hx)) k mem
  case roots => exact roots

/-! ## The objects in collection -/

def candidates (w : World Arena) : List ObjectId :=
  (w.collector.sets.merged .new .inCollection).members .inCollection

theorem Tidy.mem_candidates (tidy : w.Tidy l) : o ∈ w.candidates ↔ w.Unreleased o := by
  rw [← tidy.tracked, candidates, TrackedSets.members_merged (by decide), if_pos rfl,
    List.mem_append]
  refine ⟨fun mem => ?_, fun tracked => (tidy.roles o tracked).symm⟩
  exact mem.elim TrackedSets.contains_of_mem_members TrackedSets.contains_of_mem_members

theorem Tidy.unreleased_of_refers {p : ObjectId} (tidy : w.Tidy l)
    (refers : p ∈ w.foreign.referencesOf o) : w.Unreleased o := by
  obtain ⟨c, hc, mem⟩ := Arena.mem_referencesOf.1 refers
  refine map_eq_ok.2 ⟨c, hc, ?_⟩
  cases released : c.released with
  | false => rfl
  | true => simp [tidy.emptied o c hc released] at mem

theorem Tidy.isolated_eq_nil (tidy : w.Tidy l) : w.collector.sets.members .isolated = [] := by
  refine List.eq_nil_iff_forall_not_mem.2 fun o mem => ?_
  have roles := tidy.roles o (TrackedSets.contains_of_mem_members mem)
  simp [TrackedSets.mem_members, TrackedSets.mem_members.1 mem] at roles

theorem nodup_candidates (w : World Arena) : w.candidates.Nodup := TrackedSets.nodup_members ..

/-- All references are stored in candidates. -/
theorem Tidy.stored_eq (tidy : w.Tidy l) (o : ObjectId) :
    w.foreign.storedIn w.candidates o = w.foreign.stored o := by
  refine Nat.le_antisymm (Arena.storedIn_le w.nodup_candidates o) (Arena.stored_le_storedIn ?_)
  intro p c hc refers
  exact tidy.mem_candidates.2 (tidy.unreleased_of_refers (Arena.mem_referencesOf.2 ⟨c, hc, refers⟩))

/-! ## The snapshot and its roots -/

section Taken

variable {sets : TrackedSets} {foreign : Arena} {host : HostHeap} {q : Snapshot.Record} {i j : Nat}
  (snapped : Snapshot.take sets foreign host = .ok taken)

include snapped

theorem getElem?_of_take (hr : taken.records[j]? = some r) :
    (sets.members .inCollection)[j]? = some r.object := by
  rw [← Snapshot.objects_take snapped, Snapshot.getElem?_objects, hr]
  rfl

/-- As many edges lead to a record as there are references to its object in those of the others. -/
theorem count_edgeTable_of_take (hr : taken.records[j]? = some r) :
    taken.edgeTable.count j = foreign.storedIn (sets.members .inCollection) r.object := by
  simp only [Snapshot.count_edgeTable_of_take snapped hr, Arena.targets_eq, Arena.storedIn]

/-- An edge is a reference. -/
theorem mem_edges_of_take (hr : taken.records[i]? = some r) (hq : taken.records[j]? = some q) :
    j ∈ r.edges ↔ q.object ∈ foreign.referencesOf r.object := by
  obtain ⟨targets, refs, edges⟩ :=
    (Snapshot.describes_of_take snapped (Array.mem_of_getElem? hr)).edges
  obtain ⟨c, hc, rfl⟩ := Arena.references_eq_ok.1 refs
  have counted := Snapshot.count_filterMap_idxOf? (sets.nodup_members .inCollection)
    (getElem?_of_take snapped hq) c.references
  rw [← edges] at counted
  rw [Arena.referencesOf_eq hc, ← List.count_pos_iff, counted, List.count_pos_iff]

end Taken

variable (htaken : Snapshot.take (w.collector.sets.merged .new .inCollection) w.foreign
  w.host.beginCollection = .ok taken)

include htaken

theorem Tidy.count_edgeTable (tidy : w.Tidy l) {j : Nat} (hr : taken.records[j]? = some r) :
    taken.edgeTable.count j = w.foreign.stored r.object :=
  (count_edgeTable_of_take htaken hr).trans (tidy.stored_eq r.object)

/-- A fresh record counts the references that are stored, the holds, and a bridge that is
reached. -/
theorem Tidy.external_eq (tidy : w.Tidy l) (mem : r ∈ taken.records) : r.external =
    w.foreign.stored r.object + l.held.count r.object + r.bridgeRooted.toNat := by
  have describes := Snapshot.describes_of_take htaken mem
  rw [describes.external, Snapshot.Record.intrinsic,
    tidy.accurate.stripBias_eq tidy.small describes.refcount]

/-- At the start of a collection only prebuilt host objects make a bridge a root. -/
theorem bridgeRooted_iff (mem : r ∈ taken.records) : r.bridgeRooted = true ↔
    ∃ h, r.bridge = some h ∧ HostHeap.Prebuilt w.host.objects h := by
  have answer := (Snapshot.describes_of_take htaken mem).rooted
  have same : r.bridgeRooted = true ↔ w.host.beginCollection.reaches r.bridge = .ok true := by
    rw [answer, Except.ok.injEq]
  rw [same, HostHeap.reaches_eq_ok_true]
  simp only [HostHeap.not_marked_beginCollection, false_or,
    HostHeap.prebuilt_congr (HostHeap.map_unmarked_beginCollection w.host)]

/-- The roots of a tidy world can be collected. -/
theorem Tidy.exists_collectRoots (tidy : w.Tidy l) : ∃ s₀, taken.collectRoots = .ok s₀ := by
  refine Snapshot.exists_collectRoots fun j r hr => ?_
  rw [tidy.count_edgeTable htaken hr, tidy.external_eq htaken (Array.mem_of_getElem? hr)]
  omega

/-- The snapshot of a tidy world shows the foreign half of the graph. -/
theorem Tidy.pictures (tidy : w.Tidy l) (roots : taken.collectRoots = .ok s₀) :
    w.Pictures l s₀ := by
  constructor
  case objects =>
    intro o
    rw [Snapshot.objects_congr (Snapshot.frozen_collectRoots roots), Snapshot.objects_take htaken]
    exact tidy.mem_candidates
  case bridge =>
    intro r mem
    obtain ⟨i, hi⟩ := Array.mem_iff_getElem?.1 mem
    obtain ⟨q, hq, rfl⟩ := Snapshot.exists_record_of_collectRoots roots hi
    exact (Snapshot.describes_of_take htaken (Array.mem_of_getElem? hq)).bridge
  case edges =>
    intro r mem j p hp
    obtain ⟨i, hi⟩ := Array.mem_iff_getElem?.1 mem
    obtain ⟨q, hq, rfl⟩ := Snapshot.exists_record_of_collectRoots roots hi
    obtain ⟨p, recorded, rfl⟩ := Snapshot.exists_record_of_collectRoots roots hp
    have same := mem_edges_of_take htaken hq recorded
    exact same
  case roots =>
    intro r mem
    obtain ⟨i, hi⟩ := Array.mem_iff_getElem?.1 mem
    obtain ⟨q, hq, rfl⟩ := Snapshot.exists_record_of_collectRoots roots hi
    have mem := Array.mem_of_getElem? hq
    have external := tidy.external_eq htaken mem
    dsimp only
    rw [tidy.count_edgeTable htaken hq, external, ← bridgeRooted_iff htaken mem,
      ← List.count_pos_iff]
    cases q.bridgeRooted with
    | false => simp only [Bool.toNat_false, Bool.false_eq_true, or_false]; omega
    | true => simp only [Bool.toNat_true, or_true, iff_true]; omega

omit htaken

/-! ## The start of a pass -/

/-- A tidy world has no container to let go of. -/
theorem Tidy.prepareSets_eq (tidy : w.Tidy l) (host : HostHeap) :
    prepareSets { w with host } = .ok { w with host } := by
  have solid : ∀ o ∈ w.collector.sets.members .new, w.foreign.isAtomic o = .ok false := by
    intro o mem
    obtain ⟨c, hc, -⟩ := map_eq_ok.1 ((tidy.tracked o).1 (TrackedSets.contains_of_mem_members mem))
    exact map_eq_ok.2 ⟨c, hc, (tidy.plain o c hc).2⟩
  unfold prepareSets
  split
  · have none : ForeignHeap.select (fun o => do
        if ← ForeignHeap.mayUntrack w.foreign o then
          return (← ForeignHeap.bridge w.foreign o).isNone
        else return false) (w.collector.sets.members .new) = .ok [] := by
      refine ForeignHeap.select_eq_ok.2 ⟨fun o mem => ⟨false, ?_⟩, ?_⟩
      · rw [Arena.foreign_mayUntrack, solid o mem]
        rfl
      · refine (List.filter_eq_nil_iff.2 fun o mem => ?_).symm
        simp [solid o mem, bind, Except.bind, pure, Except.pure]
    exact bind_eq_ok.2 ⟨[], none, rfl⟩
  · rfl

/-- A tidy world can start a pass, and then it has nothing to fear. -/
theorem Tidy.exists_startPass (tidy : w.Tidy l) (orderly : w.collector.Orderly) :
    ∃ w', startPass { w with host := w.host.beginCollection } = .ok w' ∧ w'.Intact := by
  have size : w.host.beginCollection.objects.size = w.host.objects.size := by
    simp [HostHeap.beginCollection]
  have takes : ∃ taken, Snapshot.take (w.collector.sets.merged .new .inCollection) w.foreign
      w.host.beginCollection = .ok taken := by
    refine exists_take fun o mem => ?_
    obtain ⟨c, hc, -⟩ := map_eq_ok.1 (tidy.mem_candidates.1 mem)
    exact ⟨c, hc, fun h bridged => size ▸ tidy.bridges o h (map_eq_ok.2 ⟨c, hc, bridged⟩)⟩
  obtain ⟨taken, htaken⟩ := takes
  obtain ⟨s₀, roots⟩ := tidy.exists_collectRoots htaken
  have pictures := tidy.pictures htaken roots
  obtain ⟨w', started⟩ := World.exists_startPass (w := { w with host := w.host.beginCollection })
    orderly tidy.idle (tidy.prepareSets_eq _) htaken roots
  refine ⟨w', started, ?_⟩
  obtain ⟨v, taken', s, stats, prepared, htaken', roots', -, rfl⟩ := startPass_eq_ok started
  obtain rfl := Except.ok.inj ((tidy.prepareSets_eq _).symm.trans prepared)
  obtain rfl := Except.ok.inj (htaken.symm.trans htaken')
  obtain rfl := Except.ok.inj (roots.symm.trans roots')
  refine ⟨⟨fun o tracked => ?_, tidy.closed⟩, fun o h bridged => ?_, ?_,
    fun s taken r mem h bridged => ?_⟩
  · exact (tidy.tracked o).1 (by simpa using tracked)
  · exact size.symm ▸ tidy.bridges o h bridged
  · exact HostHeap.Linked.beginCollection tidy.edges tidy.roots
  · obtain rfl := Option.some.inj taken
    exact size.symm ▸ tidy.bridges r.object h (bridged ▸ pictures.bridge r mem)

end World

end CycleCollector
