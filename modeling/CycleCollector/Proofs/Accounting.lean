import Mathlib.Algebra.GroupWithZero.Nat
import Mathlib.Data.List.Forall2
import Mathlib.Data.List.Nodup
import CycleCollector.Snapshot.Roots
import CycleCollector.Marking.Progress
import CycleCollector.TrackedSets.Lemmas
/-!
# Root accounting

Every reference to a record is either an edge of the snapshot or comes from outside. Collecting
roots takes all edges off their targets, and a record that is found alive puts its own edges back.
So at any time an unprocessed record has its references from outside as external count, and those
from processed records; what is missing are its edges from unprocessed records.

## Main definitions

* `ForeignHeap.targets`: the references that an object stores.
* `Snapshot.objects`: the objects of the records, in order.
* `Snapshot.openEdges`: the edges of the records that are not found alive.
* `Snapshot.Balanced`: external count and open edges make up the references of a record.
-/

namespace CycleCollector

def ForeignHeap.targets {ρ : Type} [ForeignHeap ρ] (foreign : ρ) (o : ObjectId) : List ObjectId :=
  (ForeignHeap.references foreign o).toOption.getD []

theorem ForeignHeap.targets_of_references {ρ : Type} [ForeignHeap ρ] {foreign : ρ} {o : ObjectId}
    {os : List ObjectId} (h : ForeignHeap.references foreign o = .ok os) :
    ForeignHeap.targets foreign o = os := by
  rw [targets, h]
  rfl

/-- What marking never changes of a record. -/
def Snapshot.Record.frozen (r : Snapshot.Record) : Snapshot.Record :=
  { r with external := 0, processed := false }

def Snapshot.frozen (s : Snapshot) : Snapshot := ⟨s.records.map Snapshot.Record.frozen⟩

namespace Snapshot

variable {s s' : Snapshot} {r : Record} {i j : Nat} {positions : List Nat}
  {records records' : Array Record} {o : ObjectId}

def objects (s : Snapshot) : List ObjectId := s.records.toList.map Record.object

def openEdges (s : Snapshot) : List Nat :=
  s.records.toList.flatMap fun r => if r.processed then [] else r.edges

/-! ## Records by object and by position -/

theorem getElem?_objects (s : Snapshot) (i : Nat) :
    s.objects[i]? = s.records[i]?.map Record.object := by
  simp [objects]

theorem length_objects (s : Snapshot) : s.objects.length = s.size := by
  simp [objects, size]

@[simp] theorem objects_frozen (s : Snapshot) : s.frozen.objects = s.objects := by
  simp [objects, frozen, Function.comp_def, Record.frozen]

theorem objects_congr (same : s'.frozen = s.frozen) : s'.objects = s.objects := by
  rw [← objects_frozen, same, objects_frozen]

/-- Snapshots that marking does not tell apart agree record by record. -/
theorem exists_of_frozen_eq (same : s'.frozen = s.frozen) (hr : s.records[i]? = some r) :
    ∃ r', s'.records[i]? = some r' ∧ r'.frozen = r.frozen := by
  have at_i := congrArg (·.records[i]?) same
  simpa [frozen, hr] using at_i

theorem edgeTable_congr (same : s'.frozen = s.frozen) : s'.edgeTable = s.edgeTable := by
  have edges := congrArg (·.records.toList.flatMap Record.edges) same
  simpa [frozen, edgeTable, List.flatMap_map, Record.frozen] using edges

theorem contains_iff : s.contains o = true ↔ o ∈ s.objects := by
  simp only [contains, recordOf, objects, Array.find?_isSome, List.mem_map, Array.mem_toList_iff,
    decide_eq_true_eq]

theorem recordOf_eq_some (nodup : s.objects.Nodup) :
    s.recordOf o = some r ↔ r ∈ s.records ∧ r.object = o := by
  constructor
  · intro found
    exact ⟨Array.mem_of_find?_eq_some found, by simpa using Array.find?_some found⟩
  · rintro ⟨mem, rfl⟩
    cases found : s.recordOf r.object with
    | none =>
      have all := Array.find?_eq_none.1 found r mem
      simp at all
    | some r' =>
      have same : r'.object = r.object := by simpa using Array.find?_some found
      have := List.inj_on_of_nodup_map nodup
        (Array.mem_toList_iff.2 (Array.mem_of_find?_eq_some found))
        (Array.mem_toList_iff.2 mem) same
      rw [this]

theorem objectsAt_eq (s : Snapshot) (positions : List Nat) :
    s.objectsAt positions = positions.filterMap (s.objects[·]?) := by
  simp only [objectsAt, getElem?_objects]

/-! ## Raising and settling -/

theorem getElem?_raise (s : Snapshot) (positions : List Nat) (j : Nat) :
    (s.raise positions).records[j]? =
      s.records[j]?.map fun r => { r with external := r.external + positions.count j } := by
  induction positions generalizing s with
  | nil => simp [raise]
  | cons p ps ih =>
    refine (ih (s.raise [p])).trans ?_
    simp only [raise, List.foldl_cons, List.foldl_nil, Array.getElem?_modify, List.count_cons,
      beq_iff_eq]
    split
    · simp [Function.comp_def, Nat.add_assoc, Nat.add_comm 1]
    · simp

theorem getElem?_settle (hr : s.records[i]? = some r) (external : Nat) (j : Nat) :
    (s.settle i r external).records[j]? =
      if j = i then some { r with external := external + r.edges.count i, processed := true }
      else s.records[j]?.map fun q => { q with external := q.external + r.edges.count j } := by
  have bound := (Array.getElem?_eq_some_iff.1 hr).1
  rw [settle, getElem?_raise]
  by_cases same : j = i
  · subst j
    simp [bound]
  · simp [same, Ne.symm same]

theorem frozen_settle (hr : s.records[i]? = some r) (external : Nat) :
    (s.settle i r external).frozen = s.frozen := by
  refine congrArg Snapshot.mk (Array.ext_getElem? fun j => ?_)
  rw [Array.getElem?_map, getElem?_settle hr, Array.getElem?_map]
  split
  · subst j
    simp [hr, Record.frozen]
  · rw [Option.map_map]
    rfl

/-! ## Open edges -/

theorem openEdges_congr (same : s'.records.map (fun r => (r.processed, r.edges)) =
    s.records.map fun r => (r.processed, r.edges)) : s'.openEdges = s.openEdges := by
  have lists := congrArg (fun a => a.toList.flatMap fun p => if p.1 then [] else p.2) same
  simpa [openEdges, List.flatMap_map] using lists

theorem count_openEdges_settle (hr : s.records[i]? = some r) (open_ : r.processed = false)
    (external j : Nat) :
    (s.settle i r external).openEdges.count j + r.edges.count j = s.openEdges.count j := by
  let closed : Snapshot := ⟨s.records.setIfInBounds i { r with external, processed := true }⟩
  have raised : (s.settle i r external).openEdges = closed.openEdges := by
    apply openEdges_congr
    apply Array.ext_getElem?
    intro k
    simp only [settle, Array.getElem?_map, getElem?_raise, Option.map_map]
    rfl
  have split : ∀ (rs : List Record) (i : Nat), rs[i]? = some r →
      ((rs.set i { r with external, processed := true }).flatMap fun r =>
        if r.processed then [] else r.edges).count j + r.edges.count j =
      (rs.flatMap fun r => if r.processed then [] else r.edges).count j := by
    intro rs
    induction rs with
    | nil => simp
    | cons q qs ih =>
      intro i hr
      cases i with
      | zero =>
        obtain rfl : q = r := by simpa using hr
        simp [open_, Nat.add_comm]
      | succ i =>
        have := ih i (by simpa using hr)
        simp only [List.set_cons_succ, List.flatMap_cons, List.count_append]
        omega
  rw [raised]
  simpa [closed, openEdges] using split s.records.toList i (by simpa using hr)

/-! ## Collecting roots -/

theorem discount_eq_ok : discount records i = .ok records' ↔
    (∀ r, records[i]? = some r → 0 < r.external) ∧
      records' = records.modify i fun r => { r with external := r.external - 1 } := by
  unfold discount
  split
  · next none =>
    have same : records.modify i (fun r => { r with external := r.external - 1 }) = records := by
      refine Array.ext_getElem? fun j => ?_
      rw [Array.getElem?_modify]
      split
      · subst j
        simp [none]
      · rfl
    simp [none, same, eq_comm]
  · next r hr =>
    have same : records.setIfInBounds i { r with external := r.external - 1 } =
        records.modify i (fun r => { r with external := r.external - 1 }) := by
      obtain ⟨bound, rfl⟩ := Array.getElem?_eq_some_iff.1 hr
      refine Array.ext_getElem? fun j => ?_
      rw [Array.getElem?_modify, Array.getElem?_setIfInBounds]
      split
      · subst j
        simp [bound]
      · rfl
    split
    · simp_all
    · simp [hr, ← same, eq_comm]
      omega

/-- Taking edges off their targets succeeds when no target has fewer references than edges, and
then it takes off as many as lead there. -/
theorem foldlM_discount_eq_ok : positions.foldlM discount records = .ok records' ↔
    (∀ (j : Nat) r, records[j]? = some r → positions.count j ≤ r.external) ∧
      ∀ j : Nat, records'[j]? =
        records[j]?.map fun r => { r with external := r.external - positions.count j } := by
  induction positions generalizing records with
  | nil =>
    simp only [List.foldlM_nil, pure_eq_ok, List.count_nil, Nat.zero_le, implies_true, true_and,
      Nat.sub_zero, Option.map_id_fun', id]
    exact ⟨fun same => by simp [same], fun same => (Array.ext_getElem? same).symm⟩
  | cons p ps ih =>
    have first : ∀ j : Nat, (records.modify p fun r => { r with external := r.external - 1 })[j]? =
        records[j]?.map fun r => { r with external := r.external - if p = j then 1 else 0 } := by
      intro j
      rw [Array.getElem?_modify]
      split <;> simp
    have count : ∀ j, (p :: ps).count j = ps.count j + if p = j then 1 else 0 := by
      simp [List.count_cons]
    simp only [List.foldlM_cons, bind_eq_ok, discount_eq_ok, and_assoc, exists_and_left,
      exists_eq_left, ih, first, Option.map_map, Function.comp_def, Nat.sub_sub, count,
      Option.map_eq_some_iff, Nat.add_comm (ps.count _)]
    constructor
    · rintro ⟨positive, enough, same⟩
      refine ⟨fun j r hr => ?_, same⟩
      have rest := enough j _ ⟨r, hr, rfl⟩
      by_cases here : p = j
      · have := positive r (here ▸ hr)
        simp only [here, if_true] at rest ⊢
        omega
      · simpa [here] using rest
    · rintro ⟨enough, same⟩
      refine ⟨fun r hr => ?_, fun j q => ?_, same⟩
      · have := enough p r hr
        simp only [if_true] at this
        omega
      · rintro ⟨r, hr, rfl⟩
        have := enough j r hr
        show ps.count j ≤ r.external - _
        omega

theorem collectRoots_eq_ok : s.collectRoots = .ok s' ↔
    (∀ (j : Nat) r, s.records[j]? = some r → s.edgeTable.count j ≤ r.external) ∧
      ∀ j : Nat, s'.records[j]? =
        s.records[j]?.map fun r => { r with external := r.external - s.edgeTable.count j } := by
  rw [← foldlM_discount_eq_ok]
  simp only [collectRoots, bind_eq_ok, pure_eq_ok]
  cases s'
  simp

/-- The records after edges were taken off that no target had too many of. -/
theorem foldlM_discount_of_le
    (enough : ∀ (j : Nat) r, records[j]? = some r → positions.count j ≤ r.external) :
    positions.foldlM discount records =
      .ok (records.mapIdx fun j r => { r with external := r.external - positions.count j }) :=
  foldlM_discount_eq_ok.2 ⟨enough, fun j => by simp⟩

/-- Roots are collected if no record has more incoming edges than references. -/
theorem exists_collectRoots
    (enough : ∀ (j : Nat) r, s.records[j]? = some r → s.edgeTable.count j ≤ r.external) :
    ∃ s', s.collectRoots = .ok s' :=
  ⟨_, bind_eq_ok.2 ⟨_, foldlM_discount_of_le enough, rfl⟩⟩

/-- Every record has kept all but its external count, which has lost the edges to it. -/
theorem exists_record_of_collectRoots (collected : s.collectRoots = .ok s')
    (hr : s'.records[j]? = some r) : ∃ q, s.records[j]? = some q ∧
      r = { q with external := q.external - s.edgeTable.count j } := by
  have records := (collectRoots_eq_ok.1 collected).2 j
  obtain ⟨q, hq, rfl⟩ := Option.map_eq_some_iff.1 (records.symm.trans hr)
  exact ⟨q, hq, rfl⟩

/-! ## Positions -/

section Positions

variable {candidates targets : List ObjectId}

theorem idxOf?_eq_some (nodup : candidates.Nodup) :
    candidates.idxOf? o = some j ↔ candidates[j]? = some o := by
  rw [List.idxOf?_eq_some_iff, List.getElem?_eq_some_iff]
  refine exists_congr fun bound => and_iff_left_of_imp ?_
  rintro rfl k earlier same
  exact Nat.ne_of_lt earlier ((nodup.getElem_inj_iff).1 same)

/-- As many edges lead to a candidate as there are references to it. -/
theorem count_filterMap_idxOf? (nodup : candidates.Nodup) (at_j : candidates[j]? = some o)
    (targets : List ObjectId) :
    (targets.filterMap fun target => candidates.idxOf? target).count j = targets.count o := by
  induction targets with
  | nil => rfl
  | cons p ps ih =>
    have here : candidates.idxOf? p = some j ↔ p = o := by
      rw [idxOf?_eq_some nodup, at_j, Option.some.injEq, eq_comm]
    cases found : candidates.idxOf? p with
    | none =>
      have other : p ≠ o := fun same => by simp [here.2 same] at found
      simp [found, other, ih]
    | some k =>
      by_cases same : p = o
      · obtain rfl := Option.some.inj (found.symm.trans (here.2 same))
        subst same
        simp [found, ih]
      · have other : k ≠ j := fun eq => same (here.1 (eq ▸ found))
        simp [found, same, other, ih]

/-- The edges of a record lead to those of its references that are candidates. -/
theorem filterMap_filterMap_idxOf? (nodup : candidates.Nodup) (targets : List ObjectId) :
    (targets.filterMap fun target => candidates.idxOf? target).filterMap (candidates[·]?) =
      targets.filter (· ∈ candidates) := by
  induction targets with
  | nil => rfl
  | cons p ps ih =>
    cases found : candidates.idxOf? p with
    | none =>
      have apart := List.idxOf?_eq_none_iff.1 found
      simp [found, apart, ih]
    | some k =>
      have at_k := (idxOf?_eq_some nodup).1 found
      have mem := List.mem_of_getElem? at_k
      simp [found, at_k, mem, ih]

end Positions

/-! ## What a snapshot records -/

section Take

variable {ρ : Type} [ForeignHeap ρ] {candidates : List ObjectId} {foreign : ρ} {host : HostHeap}
  {sets : TrackedSets} {os : List ObjectId} {rs : List Record}

/-- A fresh record of `o`. -/
structure Describes (candidates : List ObjectId) (foreign : ρ) (host : HostHeap) (o : ObjectId)
    (r : Record) : Prop where
  object : r.object = o
  refcount : ForeignHeap.refcount foreign o = .ok r.refcount
  bridge : ForeignHeap.bridge foreign o = .ok r.bridge
  rooted : host.reaches r.bridge = .ok r.bridgeRooted
  edges : ∃ targets, ForeignHeap.references foreign o = .ok targets ∧
    r.edges = targets.filterMap fun target => candidates.idxOf? target
  external : r.external = r.intrinsic
  unprocessed : r.processed = false

theorem describe_eq_ok :
    describe candidates foreign host o = .ok r ↔ Describes candidates foreign host o r := by
  simp only [describe, bind_eq_ok, pure_eq_ok]
  constructor
  · rintro ⟨n, hn, bridge, hb, rooted, hr, targets, ht, rfl⟩
    exact ⟨rfl, hn, hb, hr, ⟨targets, ht, rfl⟩, rfl, rfl⟩
  · rintro ⟨rfl, hn, hb, hr, ⟨targets, ht, he⟩, hx, hp⟩
    refine ⟨_, hn, _, hb, _, hr, targets, ht, ?_⟩
    cases r
    simp_all [Record.intrinsic]

theorem describeAll_eq_ok : describeAll candidates foreign host os = .ok rs ↔
    List.Forall₂ (Describes candidates foreign host) os rs := by
  induction os generalizing rs with
  | nil => simp [describeAll, eq_comm]
  | cons o os ih =>
    simp only [describeAll, bind_eq_ok, pure_eq_ok, List.forall₂_cons_left_iff, ← ih,
      describe_eq_ok]
    grind

theorem take_eq_ok : take sets foreign host = .ok s ↔
    List.Forall₂ (Describes (sets.members .inCollection) foreign host)
      (sets.members .inCollection) s.records.toList := by
  simp only [take, bind_eq_ok, pure_eq_ok, describeAll_eq_ok]
  constructor
  · rintro ⟨rs, all, rfl⟩
    exact all
  · intro all
    exact ⟨_, all, by simp⟩

/-- The records of a snapshot are those of the objects in collection, in order. -/
theorem objects_take (taken : take sets foreign host = .ok s) :
    s.objects = sets.members .inCollection := by
  have named := (take_eq_ok.1 taken).imp fun _ _ describes => describes.object.symm
  rw [← List.forall₂_map_right_iff, List.forall₂_eq_eq_eq] at named
  exact named.symm

theorem describes_of_take (taken : take sets foreign host = .ok s) (mem : r ∈ s.records) :
    Describes (sets.members .inCollection) foreign host r.object r := by
  obtain ⟨i, hi⟩ := List.mem_iff_getElem?.1 (Array.mem_toList_iff.2 mem)
  obtain ⟨bound, rfl⟩ := List.getElem?_eq_some_iff.1 hi
  have all := List.forall₂_iff_get.1 (take_eq_ok.1 taken)
  have describes := all.2 i (all.1 ▸ bound) bound
  simp only [List.get_eq_getElem] at describes
  rwa [describes.object]

/-- As many edges lead to a candidate as there are references to it in the objects described. -/
theorem count_flatMap_edges (nodup : candidates.Nodup) (at_j : candidates[j]? = some o)
    (described : List.Forall₂ (Describes candidates foreign host) os rs) :
    (rs.flatMap Record.edges).count j =
      (os.map fun p => (ForeignHeap.targets foreign p).count o).sum := by
  induction described with
  | nil => rfl
  | @cons p r os rs describes _ ih =>
    obtain ⟨targets, references, edges⟩ := describes.edges
    rw [List.flatMap_cons, List.count_append, ih, edges, count_filterMap_idxOf? nodup at_j,
      List.map_cons, List.sum_cons, ForeignHeap.targets_of_references references]

/-- As many edges lead to a record as there are references to its object in those of the others. -/
theorem count_edgeTable_of_take (taken : take sets foreign host = .ok s)
    (hr : s.records[j]? = some r) : s.edgeTable.count j =
      ((sets.members .inCollection).map fun p =>
        (ForeignHeap.targets foreign p).count r.object).sum := by
  refine count_flatMap_edges (sets.nodup_members .inCollection) ?_ (take_eq_ok.1 taken)
  rw [← objects_take taken, getElem?_objects, hr, Option.map_some]

/-- A record can be made of an object if both heaps answer. -/
theorem exists_describe {n : Nat} {bridge : Option HostRef} {b : Bool}
    (count : ForeignHeap.refcount foreign o = .ok n)
    (bridged : ForeignHeap.bridge foreign o = .ok bridge) (reaches : host.reaches bridge = .ok b)
    (references : ForeignHeap.references foreign o = .ok os) :
    ∃ r, Describes candidates foreign host o r :=
  ⟨_, describe_eq_ok.1
    (by simp only [describe, count, bridged, reaches, references, bind, Except.bind]; rfl)⟩

theorem exists_describeAll (describable : ∀ o ∈ os, ∃ r, Describes candidates foreign host o r) :
    ∃ rs, describeAll candidates foreign host os = .ok rs := by
  induction os with
  | nil => exact ⟨[], rfl⟩
  | cons o os ih =>
    obtain ⟨r, hr⟩ := describable o (by simp)
    obtain ⟨rs, hrs⟩ := ih fun o mem => describable o (by simp [mem])
    exact ⟨r :: rs, describeAll_eq_ok.2 (.cons hr (describeAll_eq_ok.1 hrs))⟩

end Take

structure Wellformed (s : Snapshot) : Prop where
  nodup : s.objects.Nodup
  bounded : ∀ r ∈ s.records, ∀ j ∈ r.edges, j < s.size

theorem wellformed_take {ρ : Type} [ForeignHeap ρ] {sets : TrackedSets} {foreign : ρ}
    {host : HostHeap} (taken : take sets foreign host = .ok s) : s.Wellformed := by
  have objects := objects_take taken
  constructor
  · rw [objects]
    exact sets.nodup_members _
  · intro r mem j edge
    obtain ⟨targets, -, edges⟩ := (describes_of_take taken mem).edges
    rw [edges, List.mem_filterMap] at edge
    obtain ⟨target, -, at_j⟩ := edge
    rw [← length_objects, objects]
    exact (List.idxOf?_eq_some_iff.1 at_j).1

theorem Wellformed.congr (well : s.Wellformed) (same : s'.frozen = s.frozen) : s'.Wellformed := by
  constructor
  · rw [objects_congr same]
    exact well.nodup
  · intro r mem j edge
    obtain ⟨i, hi⟩ := Array.mem_iff_getElem?.1 mem
    obtain ⟨r', hr', eq⟩ := exists_of_frozen_eq same.symm hi
    rw [← length_objects, objects_congr same, length_objects]
    exact well.bounded r' (Array.mem_of_getElem? hr') j ((congrArg Record.edges eq) ▸ edge)

theorem frozen_collectRoots (collected : s.collectRoots = .ok s') : s'.frozen = s.frozen := by
  refine congrArg Snapshot.mk (Array.ext_getElem? fun i => ?_)
  rw [Array.getElem?_map, (collectRoots_eq_ok.1 collected).2, Array.getElem?_map, Option.map_map]
  rfl

/-! ## The balance -/

/-- External count and open edges make up the references of a record that is not found alive. -/
structure Balanced (s : Snapshot) : Prop where
  alive : ∀ r ∈ s.records, r.processed = true → 0 < r.external
  unexplained : ∀ (i : Nat) r, s.records[i]? = some r → r.processed = false →
    r.external + s.openEdges.count i = r.intrinsic

theorem Balanced.settle (balanced : s.Balanced) (hr : s.records[i]? = some r)
    (open_ : r.processed = false) {external : Nat} (positive : 0 < external) :
    (s.settle i r external).Balanced := by
  constructor
  · intro q mem processed
    obtain ⟨j, hj⟩ := Array.mem_iff_getElem?.1 mem
    rw [getElem?_settle hr] at hj
    split at hj
    · obtain rfl := Option.some.inj hj
      exact Nat.lt_of_lt_of_le positive (Nat.le_add_right ..)
    · obtain ⟨q', hq', rfl⟩ := Option.map_eq_some_iff.1 hj
      have := balanced.alive q' (Array.mem_of_getElem? hq') processed
      exact Nat.lt_of_lt_of_le this (Nat.le_add_right ..)
  · intro j q hq unprocessed
    have closed := count_openEdges_settle hr open_ external j
    rw [getElem?_settle hr] at hq
    split at hq
    · obtain rfl := Option.some.inj hq
      simp at unprocessed
    · obtain ⟨q', hq', rfl⟩ := Option.map_eq_some_iff.1 hq
      have := balanced.unexplained j q' hq' unprocessed
      simp only [Record.intrinsic] at this ⊢
      omega

/-- As long as no record is processed, all edges are open. -/
theorem openEdges_of_unprocessed (unprocessed : ∀ r ∈ s.records, r.processed = false) :
    s.openEdges = s.edgeTable := by
  refine List.flatMap_congr fun r mem => ?_
  rw [unprocessed r (Array.mem_toList_iff.1 mem), if_neg Bool.false_ne_true]

/-- Collecting the roots of fresh records balances them, and processes none. -/
theorem balanced_collectRoots
    (fresh : ∀ r ∈ s.records, r.external = r.intrinsic ∧ r.processed = false)
    (collected : s.collectRoots = .ok s') :
    s'.Balanced ∧ ∀ r ∈ s'.records, r.processed = false := by
  have unprocessed : ∀ r ∈ s'.records, r.processed = false := by
    intro r mem
    obtain ⟨i, hi⟩ := Array.mem_iff_getElem?.1 mem
    obtain ⟨q, hq, rfl⟩ := exists_record_of_collectRoots collected hi
    exact (fresh q (Array.mem_of_getElem? hq)).2
  refine ⟨?_, unprocessed⟩
  constructor
  · intro r mem processed
    simp [unprocessed r mem] at processed
  · intro i r hr _
    obtain ⟨q, hq, rfl⟩ := exists_record_of_collectRoots collected hr
    have covered := (collectRoots_eq_ok.1 collected).1 i q hq
    have start := (fresh q (Array.mem_of_getElem? hq)).1
    rw [openEdges_of_unprocessed unprocessed, edgeTable_congr (frozen_collectRoots collected)]
    simp only [Record.intrinsic] at start ⊢
    omega

/-- The records of a snapshot are fresh when it is taken. -/
theorem balanced_of_take {ρ : Type} [ForeignHeap ρ] {sets : TrackedSets} {foreign : ρ}
    {host : HostHeap} (taken : take sets foreign host = .ok s)
    (collected : s.collectRoots = .ok s') :
    s'.Balanced ∧ ∀ r ∈ s'.records, r.processed = false := by
  refine balanced_collectRoots (fun r mem => ?_) collected
  have describes := describes_of_take taken mem
  exact ⟨describes.external, describes.unprocessed⟩

/-! ## Dead records -/

def dead (s : Snapshot) : List ObjectId :=
  (s.records.toList.filter Record.isDead).map Record.object

theorem mem_dead : o ∈ s.dead ↔ ∃ r ∈ s.records, r.external = 0 ∧ r.object = o := by
  simp [dead, Record.isDead, and_assoc]

theorem nodup_dead (nodup : s.objects.Nodup) : s.dead.Nodup :=
  nodup.sublist (List.filter_sublist.map _)

/-- Looking positions up by object and counting by position agree. -/
theorem count_objectsAt (nodup : s.objects.Nodup) (hr : s.records[i]? = some r)
    (positions : List Nat) : (s.objectsAt positions).count r.object = positions.count i := by
  have at_i : s.objects[i]? = some r.object := by simp [getElem?_objects, hr]
  have bound := (List.getElem?_eq_some_iff.1 at_i).1
  have same : ∀ j, s.objects[j]? = some r.object ↔ j = i := by
    intro j
    rw [← at_i, eq_comm, List.getElem?_inj bound nodup, eq_comm]
  rw [objectsAt_eq]
  induction positions with
  | nil => simp
  | cons j js ih =>
    by_cases here : j = i
    · subst j
      simp [at_i, ih]
    · cases at_j : s.objects[j]? with
      | none => simp [at_j, here, ih]
      | some p =>
        have other : p ≠ r.object := fun eq => here ((same j).1 (eq ▸ at_j))
        simp [at_j, here, other, ih]

/-- In a balanced snapshot whose dead records are those not found alive, the references of a dead
record are the edges that dead records have to it. -/
theorem Balanced.intrinsic_eq_sum (balanced : s.Balanced) (nodup : s.objects.Nodup)
    (dead : ∀ r ∈ s.records, r.external = 0 ↔ r.processed = false) (hr : s.records[i]? = some r)
    (r_dead : r.external = 0) : r.intrinsic =
      ((s.records.toList.filter Record.isDead).map fun q =>
        (s.objectsAt q.edges).count r.object).sum := by
  have mem := Array.mem_of_getElem? hr
  have unexplained := balanced.unexplained i r hr ((dead r mem).1 r_dead)
  have open_ : ∀ rs : List Record, (∀ q ∈ rs, q.external = 0 ↔ q.processed = false) →
      (rs.flatMap fun q => if q.processed then [] else q.edges).count i =
        ((rs.filter Record.isDead).map fun q => (s.objectsAt q.edges).count r.object).sum := by
    intro rs
    induction rs with
    | nil => simp
    | cons q qs ih =>
      intro dead
      have rest := ih fun q mem => dead q (by simp [mem])
      have here := dead q (by simp)
      rw [List.flatMap_cons, List.count_append, rest]
      cases h : q.processed with
      | true =>
        have alive : ¬q.external = 0 := by simp [here, h]
        simp [Record.isDead, alive]
      | false =>
        have gone : q.external = 0 := here.2 h
        simp [Record.isDead, gone, count_objectsAt nodup hr]
  rw [← unexplained, r_dead, Nat.zero_add]
  exact open_ s.records.toList fun q mem => dead q (Array.mem_toList_iff.1 mem)

end Snapshot

end CycleCollector
