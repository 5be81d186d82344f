import Mathlib.Algebra.BigOperators.Group.Finset.Basic
import Std.Data.HashMap.Lemmas
import CycleCollector.Snapshot.Flat
import CycleCollector.Proofs.RootCounts
import CycleCollector.Proofs.Totality
/-!
# Flat tables hold the graph

The snapshot in three tables is the same graph as the snapshot whose records hold their edges:
taking either one gives the same records or the same fault, and every look-up in the tables stays
within them and answers as the other snapshot does. What a snapshot should show is said of the two
heaps: the objects in collection in their order, and the references between them.

## Main definitions

* `Snapshot.flatten`: the tables of a snapshot.
* `FlatSnapshot.Sliced`: the edge table cut into the ranges of the records.
* `FlatSnapshot.Encodes`: the tables show the references between some objects.
* `FlatSnapshot.Presents`: the tables answer as a snapshot does.

## Main statements

* `FlatSnapshot.take_eq`: tables are filled as snapshots are taken.
* `FlatSnapshot.presents_flatten`: the tables of a snapshot answer as it does.
* `FlatSnapshot.encodes_of_take`: what is taken encodes the objects in collection.
-/

namespace CycleCollector

namespace Snapshot

variable {s s' : Snapshot} {r : Record} {i j k : Nat}

/-! ## Where the edges of a record are -/

theorem edgeStart_zero (s : Snapshot) : s.edgeStart 0 = 0 := by simp [edgeStart]

theorem edgeStart_size (s : Snapshot) : s.edgeStart s.size = s.edgeCount := by
  rw [edgeStart, size, ← Array.length_toList, List.take_length]
  rfl

theorem edgeStart_succ (hr : s.records[i]? = some r) :
    s.edgeStart (i + 1) = s.edgeStart i + r.edges.length := by
  have at_i : s.records.toList[i]? = some r := by simpa using hr
  simp [edgeStart, List.take_add_one, at_i]

theorem edgeStart_mono (le : i ≤ j) : s.edgeStart i ≤ s.edgeStart j :=
  ((List.take_sublist_take_left le).flatMap _).length_le

theorem edgeStart_congr (same : s'.frozen = s.frozen) : s'.edgeStart = s.edgeStart := by
  have edges := congrArg (fun t : Snapshot => t.records.toList.map Record.edges) same
  have lists : s'.records.toList.map Record.edges = s.records.toList.map Record.edges := by
    simpa [frozen, Record.frozen, Function.comp_def] using edges
  funext i
  have firsts := congrArg (fun edges => (edges.take i).flatten.length) lists
  simpa [edgeStart, List.flatMap_def, List.map_take] using firsts

theorem take_drop_edgeTable (hr : s.records[i]? = some r) :
    (s.edgeTable.drop (s.edgeStart i)).take r.edges.length = r.edges := by
  rw [edgeTable_split hr, edgeStart, List.drop_left, List.take_left]

/-- An edge before those of record `n` belongs to an earlier record. -/
theorem exists_record_of_lt_edgeStart {n : Nat} (bound : n ≤ s.size) (before : k < s.edgeStart n) :
    ∃ i r, s.records[i]? = some r ∧ s.edgeStart i ≤ k ∧ k < s.edgeStart i + r.edges.length := by
  induction n with
  | zero => simp [edgeStart_zero] at before
  | succ n ih =>
    by_cases earlier : k < s.edgeStart n
    · exact ih (by omega) earlier
    · have hr : s.records[n]? = some s.records[n] := Array.getElem?_eq_getElem bound
      exact ⟨n, _, hr, by omega, edgeStart_succ hr ▸ before⟩

theorem le_of_edgeStart_le (hr : s.records[i]? = some r)
    (before : k < s.edgeStart i + r.edges.length) (after : s.edgeStart j ≤ k) : j ≤ i := by
  by_contra later
  have next : s.edgeStart (i + 1) ≤ s.edgeStart j := edgeStart_mono (by omega)
  rw [edgeStart_succ hr] at next
  omega

/-- Every edge belongs to exactly one record. -/
theorem existsUnique_edge (inside : k < s.edgeCount) : ∃! i, ∃ r, s.records[i]? = some r ∧
    s.edgeStart i ≤ k ∧ k < s.edgeStart i + r.edges.length := by
  rw [← edgeStart_size] at inside
  obtain ⟨i, r, hr, after, before⟩ := exists_record_of_lt_edgeStart le_rfl inside
  refine ⟨i, ⟨r, hr, after, before⟩, fun j ⟨q, hq, after', before'⟩ => ?_⟩
  exact Nat.le_antisymm (le_of_edgeStart_le hr before after') (le_of_edgeStart_le hq before' after)

theorem indexOf_eq (s : Snapshot) (o : ObjectId) : s.indexOf o = s.objects.idxOf? o := by
  rw [indexOf, objects, List.idxOf?, List.findIdx?_map, ← List.findIdx?_toArray]
  rfl

section Taken

variable {ρ : Type} [ForeignHeap ρ] {foreign : ρ} {host : HostHeap} {sets : TrackedSets}
  {o : ObjectId}

theorem exists_record_of_take (taken : take sets foreign host = .ok s)
    (at_i : (sets.members .inCollection)[i]? = some o) :
    ∃ r, s.records[i]? = some r ∧ Describes (sets.members .inCollection) foreign host o r := by
  rw [← objects_take taken, getElem?_objects] at at_i
  obtain ⟨r, hr, rfl⟩ := Option.map_eq_some_iff.1 at_i
  exact ⟨r, hr, describes_of_take taken (Array.mem_of_getElem? hr)⟩

theorem targetsOf_of_take (taken : take sets foreign host = .ok s)
    (mem : o ∈ sets.members .inCollection) :
    ∃ targets, ForeignHeap.references foreign o = .ok targets ∧
      s.targetsOf o = targets.filter (· ∈ sets.members .inCollection) := by
  have nodup := sets.nodup_members .inCollection
  have objects := objects_take taken
  obtain ⟨i, at_i⟩ := List.mem_iff_getElem?.1 mem
  obtain ⟨r, hr, describes⟩ := exists_record_of_take taken at_i
  obtain ⟨targets, references, edges⟩ := describes.edges
  have found : s.recordOf o = some r :=
    (recordOf_eq_some (objects ▸ nodup)).2 ⟨Array.mem_of_getElem? hr, describes.object⟩
  refine ⟨targets, references, ?_⟩
  calc s.targetsOf o
    _ = s.objectsAt r.edges := by simp [targetsOf, found]
    _ = (targets.filterMap fun target => (sets.members .inCollection).idxOf? target).filterMap
        ((sets.members .inCollection)[·]?) := by rw [objectsAt_eq, objects, edges]
    _ = targets.filter (· ∈ sets.members .inCollection) := filterMap_filterMap_idxOf? nodup targets

end Taken

/-! ## Three tables -/

def Record.place (r : Record) (first : Nat) : FlatSnapshot.Record where
  object := r.object
  refcount := r.refcount
  external := r.external
  bridge := r.bridge
  bridgeRooted := r.bridgeRooted
  processed := r.processed
  first
  count := r.edges.length

def flatten (s : Snapshot) (index : Std.HashMap ObjectId UInt32) : FlatSnapshot where
  records := s.records.mapIdx fun i r => r.place (s.edgeStart i)
  refs := (s.edgeTable.map UInt32.ofNat).toArray
  index

structure Addressable (s : Snapshot) : Prop where
  bounded : ∀ r ∈ s.records, ∀ j ∈ r.edges, j < s.size
  size : s.size ≤ UInt32.size

variable {index : Std.HashMap ObjectId UInt32}

theorem Addressable.lt_size (addressable : s.Addressable) (mem : j ∈ s.edgeTable) : j < s.size := by
  obtain ⟨r, recorded, edge⟩ := List.mem_flatMap.1 mem
  exact addressable.bounded r (Array.mem_toList_iff.1 recorded) j edge

theorem getElem?_flatten (s : Snapshot) (index : Std.HashMap ObjectId UInt32) (i : Nat) :
    (s.flatten index).records[i]? = s.records[i]?.map fun r => r.place (s.edgeStart i) :=
  Array.getElem?_mapIdx

theorem size_flatten : (s.flatten index).size = s.size := by
  simp [flatten, FlatSnapshot.size, size]

theorem edgeCount_flatten : (s.flatten index).edgeCount = s.edgeCount := by
  simp [flatten, FlatSnapshot.edgeCount, edgeCount]

/-- Words name positions without loss. -/
theorem Addressable.edgeTable_flatten (addressable : s.Addressable)
    (index : Std.HashMap ObjectId UInt32) : (s.flatten index).edgeTable = s.edgeTable := by
  have same : ∀ j ∈ s.edgeTable, (UInt32.toNat ∘ UInt32.ofNat) j = id j := fun j mem =>
    UInt32.toNat_ofNat_of_lt' (Nat.lt_of_lt_of_le (addressable.lt_size mem) addressable.size)
  simp only [FlatSnapshot.edgeTable, flatten, List.map_map]
  rw [List.map_congr_left same, List.map_id]

end Snapshot

namespace FlatSnapshot

/-! ## Taking -/

section Take

variable {ρ : Type} [ForeignHeap ρ] {foreign : ρ} {host : HostHeap} {sets : TrackedSets}
  {candidates os : List ObjectId} {index : Std.HashMap ObjectId UInt32} {f : FlatSnapshot}
  {o : ObjectId}

def Numbers (candidates : List ObjectId) (index : Std.HashMap ObjectId UInt32) : Prop :=
  ∀ o, index[o]? = (candidates.idxOf? o).map UInt32.ofNat

theorem getElem?_foldl_insert (nodup : os.Nodup) (start : Nat)
    (index : Std.HashMap ObjectId UInt32) (o : ObjectId) :
    ((os.zipIdx start).foldl (fun index (o, i) => index.insert o (UInt32.ofNat i)) index)[o]? =
      ((os.idxOf? o).map fun i => UInt32.ofNat (start + i)).or index[o]? := by
  induction os generalizing start index with
  | nil => simp
  | cons p ps ih =>
    obtain ⟨notMem, nodup⟩ := List.nodup_cons.1 nodup
    rw [List.zipIdx_cons, List.foldl_cons, ih nodup, Std.HashMap.getElem?_insert, List.idxOf?_cons]
    by_cases here : p = o
    · subst p
      simp [List.idxOf?_eq_none_iff.2 notMem]
    · simp [here, Function.comp_def, Nat.add_assoc, Nat.add_comm 1]

theorem numbers_number (nodup : os.Nodup) : Numbers os (number os) := by
  intro o
  simp [number, getElem?_foldl_insert nodup]

/-- References that lead to candidates become edges. -/
theorem enterRefs_eq (numbers : Numbers candidates index) (refs : Array UInt32)
    (targets : List ObjectId) : enterRefs index refs targets = refs ++
      ((targets.filterMap fun target => candidates.idxOf? target).map UInt32.ofNat).toArray := by
  unfold enterRefs
  induction targets generalizing refs with
  | nil => simp
  | cons target targets ih =>
    rw [List.foldl_cons, ih, numbers target]
    cases found : candidates.idxOf? target <;> simp [found]

def push (f : FlatSnapshot) (r : Snapshot.Record) : FlatSnapshot :=
  { f with
    records := f.records.push (r.place f.refs.size)
    refs := f.refs ++ (r.edges.map UInt32.ofNat).toArray }

theorem enter_eq (numbers : Numbers candidates f.index) (o : ObjectId) :
    enter foreign host f o = f.push <$> Snapshot.describe candidates foreign host o := by
  simp only [enter, Snapshot.describe, enterRefs_eq numbers]
  cases ForeignHeap.refcount foreign o with
  | error => rfl
  | ok n =>
    cases bridged : ForeignHeap.bridge foreign o with
    | error => rfl
    | ok bridge =>
      cases reaches : host.reaches bridge with
      | error => simp [reaches, bind, Except.bind, Functor.map, Except.map]
      | ok b =>
        cases ForeignHeap.references foreign o with
        | error => simp [reaches, bind, Except.bind, Functor.map, Except.map]
        | ok targets =>
          simp [reaches, bind, Except.bind, Functor.map, Except.map, pure, Except.pure, push,
            Snapshot.Record.place]

theorem foldlM_enter_eq (numbers : Numbers candidates f.index) (os : List ObjectId) :
    os.foldlM (enter foreign host) f =
      (fun rs => rs.foldl push f) <$> Snapshot.describeAll candidates foreign host os := by
  induction os generalizing f with
  | nil => rfl
  | cons o os ih =>
    rw [List.foldlM_cons, enter_eq numbers, Snapshot.describeAll]
    cases Snapshot.describe candidates foreign host o with
    | error => rfl
    | ok r =>
      refine (ih (f := f.push r) numbers).trans ?_
      cases Snapshot.describeAll candidates foreign host os <;> rfl

theorem flatten_push (s : Snapshot) (r : Snapshot.Record) :
    (⟨s.records.push r⟩ : Snapshot).flatten index = (s.flatten index).push r := by
  have starts : ∀ i ≤ s.size, (⟨s.records.push r⟩ : Snapshot).edgeStart i = s.edgeStart i := by
    intro i le
    have kept : (s.records.toList ++ [r]).take i = s.records.toList.take i :=
      List.take_append_of_le_length le
    simp only [Snapshot.edgeStart, Array.toList_push, kept]
  have records : ((⟨s.records.push r⟩ : Snapshot).flatten index).records =
      ((s.flatten index).push r).records := by
    refine Array.ext_getElem? fun i => ?_
    rw [Snapshot.getElem?_flatten, push, Array.getElem?_push, Array.getElem?_push,
      Snapshot.getElem?_flatten]
    have sizes : (s.flatten index).records.size = s.records.size := Snapshot.size_flatten
    rw [sizes]
    split
    · next last =>
      subst i
      have start := (starts s.size le_rfl).trans s.edgeStart_size
      have edges : (s.flatten index).refs.size = s.edgeCount := Snapshot.edgeCount_flatten
      rw [Option.map_some, edges]
      exact congrArg (fun start => some (r.place start)) start
    · cases hq : s.records[i]? with
      | none => rfl
      | some q => simp [starts i (Nat.le_of_lt (Array.getElem?_eq_some_iff.1 hq).1)]
  simp only [Snapshot.flatten, push, Snapshot.edgeTable, Array.toList_push, List.flatMap_append,
    List.map_append] at records ⊢
  simp [records]

theorem foldl_push_eq (rs : List Snapshot.Record) (index : Std.HashMap ObjectId UInt32) :
    rs.foldl push { index } = (⟨rs.toArray⟩ : Snapshot).flatten index := by
  induction rs using List.reverseRecOn with
  | nil => rfl
  | append_singleton rs r ih =>
    rw [List.foldl_concat, ih, ← flatten_push, List.push_toArray]

/-- The tables that are filled object by object are those of the snapshot, and a fault in the one is
the same fault in the other. -/
theorem take_eq (sets : TrackedSets) (foreign : ρ) (host : HostHeap) :
    take sets foreign host =
      (fun s : Snapshot => s.flatten (number (sets.members .inCollection))) <$>
        Snapshot.take sets foreign host := by
  have numbers := numbers_number (sets.nodup_members .inCollection)
  simp only [take, foldlM_enter_eq (f := { index := number _ }) numbers, foldl_push_eq,
    Snapshot.take]
  cases Snapshot.describeAll (sets.members .inCollection) foreign host
    (sets.members .inCollection) <;> rfl

end Take

/-! ## Look-ups -/

section LookUps

variable {s : Snapshot} {index : Std.HashMap ObjectId UInt32} {i : Nat} {r : Snapshot.Record}
  {o : ObjectId} {positions : List Nat} {counts : Array Nat}

theorem indexOf_flatten (addressable : s.Addressable) (numbers : Numbers s.objects index)
    (o : ObjectId) : (s.flatten index).indexOf o = s.indexOf o := by
  rw [Snapshot.indexOf_eq, indexOf, Snapshot.flatten, numbers o, Option.map_map]
  cases found : s.objects.idxOf? o with
  | none => rfl
  | some i =>
    have bound := (List.idxOf?_eq_some_iff.1 found).1
    rw [Snapshot.length_objects] at bound
    exact congrArg some (UInt32.toNat_ofNat_of_lt' (Nat.lt_of_lt_of_le bound addressable.size))

theorem edges_flatten (addressable : s.Addressable) (i : Nat) :
    (s.flatten index).edges i = s.records[i]?.map Snapshot.Record.edges := by
  simp only [edges, Snapshot.getElem?_flatten]
  cases hr : s.records[i]? with
  | none => rfl
  | some r =>
    have within : s.edgeStart i + r.edges.length ≤ (s.flatten index).refs.size :=
      (Snapshot.edgeStart_add_le hr).trans_eq Snapshot.edgeCount_flatten.symm
    have read : (((s.flatten index).refs.toList.map UInt32.toNat).drop (s.edgeStart i)).take
        r.edges.length = r.edges := by
      rw [← edgeTable, addressable.edgeTable_flatten, Snapshot.take_drop_edgeTable hr]
    simp [Snapshot.Record.place, within, read]

theorem foldlM_countEdge (bounded : ∀ j ∈ positions, j < counts.size) :
    ∃ counts', positions.foldlM countEdge counts = some counts' ∧
      ∀ j : Nat, counts'[j]? = counts[j]?.map (· + positions.count j) := by
  induction positions generalizing counts with
  | nil => exact ⟨counts, rfl, by simp⟩
  | cons p ps ih =>
    rw [List.forall_mem_cons] at bounded
    have others : ∀ j ∈ ps, j < (counts.modify p (· + 1)).size := by simpa using bounded.2
    obtain ⟨counts', folded, at_j⟩ := ih others
    refine ⟨counts', by simp [countEdge, bounded.1, folded], fun j => ?_⟩
    rw [at_j, Array.getElem?_modify, List.count_cons]
    by_cases here : p = j <;> simp [here, Function.comp_def, Nat.add_comm, Nat.add_left_comm]

theorem incomingCounts_flatten (addressable : s.Addressable) :
    (s.flatten index).incomingCounts = some s.incomingCounts.toArray := by
  rw [incomingCounts, addressable.edgeTable_flatten, Snapshot.size_flatten]
  have bounded : ∀ j ∈ s.edgeTable, j < (Array.replicate s.size 0).size :=
    fun j mem => by simpa using addressable.lt_size mem
  obtain ⟨counts, folded, at_j⟩ := foldlM_countEdge bounded
  rw [folded]
  refine congrArg some (Array.ext_getElem? fun j => ?_)
  by_cases bound : j < s.size <;> simp [at_j, Snapshot.incomingCounts, bound]

theorem mapM_object_flatten (bounded : ∀ j ∈ positions, j < s.size) :
    positions.mapM (fun j => (s.flatten index).records[j]?.map Record.object) =
      some (s.objectsAt positions) := by
  induction positions with
  | nil => rfl
  | cons j js ih =>
    obtain ⟨here, others⟩ := List.forall_mem_cons.1 bounded
    have hr : s.records[j]? = some s.records[j] := Array.getElem?_eq_getElem here
    have head : (s.flatten index).records[j]?.map Record.object = some s.records[j].object := by
      rw [Snapshot.getElem?_flatten, hr]
      rfl
    rw [List.mapM_cons, head, ih others]
    simp [Snapshot.objectsAt, hr]

theorem recordOf_flatten (addressable : s.Addressable) (numbers : Numbers s.objects index)
    (o : ObjectId) : (s.flatten index).recordOf o =
      some ((s.indexOf o).bind fun i => s.records[i]?.map fun r => r.place (s.edgeStart i)) := by
  rw [recordOf, indexOf_flatten addressable numbers]
  cases found : s.indexOf o with
  | none => rfl
  | some i =>
    obtain ⟨bound, -⟩ := Array.findIdx?_eq_some_iff_getElem.1 found
    simp [Snapshot.getElem?_flatten, bound]

theorem targetsOf_flatten (addressable : s.Addressable) (numbers : Numbers s.objects index)
    (o : ObjectId) : (s.flatten index).targetsOf o = some (s.targetsOf o) := by
  rw [targetsOf, Snapshot.targetsOf, indexOf_flatten addressable numbers, Snapshot.recordOf,
    Array.find?_eq_bind_findIdx?_getElem?, ← Snapshot.indexOf]
  cases found : s.indexOf o with
  | none => rfl
  | some i =>
    obtain ⟨bound, -⟩ := Array.findIdx?_eq_some_iff_getElem.1 found
    have hr : s.records[i]? = some s.records[i] := Array.getElem?_eq_getElem bound
    simp only [edges_flatten addressable, hr, Option.map_some, Option.bind_some]
    exact mapM_object_flatten (addressable.bounded _ (Array.getElem_mem bound))

theorem unbalanced?_flatten (addressable : s.Addressable) :
    (s.flatten index).unbalanced? = some s.unbalanced? := by
  have same : ((s.flatten index).records.toList.zip s.incomingCounts).map (fun p =>
        (p.1.object, decide (p.1.intrinsic ≠ p.1.external + p.2))) =
      (s.records.toList.zip s.incomingCounts).map (fun p =>
        (p.1.object, decide (p.1.intrinsic ≠ p.1.external + p.2))) := by
    refine List.ext_getElem? fun i => ?_
    rw [Snapshot.flatten, Array.toList_mapIdx, List.zip, List.zip, List.map_zipWith,
      List.map_zipWith, List.getElem?_zipWith, List.getElem?_zipWith, List.getElem?_mapIdx]
    cases s.records.toList[i]? <;> cases s.incomingCounts[i]? <;> rfl
  have first := congrArg (fun verdicts => (verdicts.find? Prod.snd).map Prod.fst) same
  simp only [List.find?_map, Option.map_map] at first
  rw [unbalanced?, incomingCounts_flatten addressable]
  exact congrArg some first

/-- The tables are those of a snapshot, and all look-ups stay within them and answer as that
snapshot does. -/
structure Presents (f : FlatSnapshot) (s : Snapshot) : Prop where
  tables : f = s.flatten f.index
  edgeTable : f.edgeTable = s.edgeTable
  indexOf : ∀ o, f.indexOf o = s.indexOf o
  recordOf : ∀ o, f.recordOf o =
    some ((s.indexOf o).bind fun i => s.records[i]?.map fun r => r.place (s.edgeStart i))
  edges : ∀ i, f.edges i = s.records[i]?.map Snapshot.Record.edges
  targetsOf : ∀ o, f.targetsOf o = some (s.targetsOf o)
  incomingCounts : f.incomingCounts = some s.incomingCounts.toArray
  unbalanced? : f.unbalanced? = some s.unbalanced?

theorem presents_flatten (addressable : s.Addressable) (numbers : Numbers s.objects index) :
    (s.flatten index).Presents s where
  tables := rfl
  edgeTable := addressable.edgeTable_flatten index
  indexOf := indexOf_flatten addressable numbers
  recordOf := recordOf_flatten addressable numbers
  edges := edges_flatten addressable
  targetsOf := targetsOf_flatten addressable numbers
  incomingCounts := incomingCounts_flatten addressable
  unbalanced? := unbalanced?_flatten addressable

end LookUps

/-! ## What the tables show -/

section Encodes

variable {ρ : Type} [ForeignHeap ρ] {foreign : ρ} {host : HostHeap} {sets : TrackedSets}
  {candidates : List ObjectId} {f : FlatSnapshot} {s : Snapshot} {o : ObjectId}

/-- A fresh record of `o`, but for its edges. -/
structure Record.Describes (foreign : ρ) (host : HostHeap) (o : ObjectId) (r : Record) : Prop where
  object : r.object = o
  refcount : ForeignHeap.refcount foreign o = .ok r.refcount
  bridge : ForeignHeap.bridge foreign o = .ok r.bridge
  rooted : host.reaches r.bridge = .ok r.bridgeRooted
  external : r.external = r.intrinsic
  unprocessed : r.processed = false

/-- The ranges of the records follow each other from one end of the edge table to the other, so that
every edge lies in exactly one of them. -/
structure Sliced (f : FlatSnapshot) : Prop where
  first : ∀ r : Record, f.records[0]? = some r → r.first = 0
  next : ∀ (i : Nat) (r r' : Record), f.records[i]? = some r → f.records[i + 1]? = some r' →
    r'.first = r.first + r.count
  last : ∀ r : Record, f.records[f.size - 1]? = some r → r.first + r.count = f.edgeCount
  unique : ∀ k < f.edgeCount, ∃! i : Nat, ∃ r : Record, f.records[i]? = some r ∧ r.first ≤ k ∧
    k < r.first + r.count

/-- The tables show some objects in their order, and all references between them. -/
structure Encodes (candidates : List ObjectId) (foreign : ρ) (host : HostHeap) (f : FlatSnapshot) :
    Prop where
  size : f.size = candidates.length
  indexOf : ∀ (o : ObjectId) (i : Nat), f.indexOf o = some i ↔ candidates[i]? = some o
  records : ∀ (o : ObjectId) (i : Nat), candidates[i]? = some o → ∃ r : Record,
    f.records[i]? = some r ∧ f.recordOf o = some (some r) ∧ r.Describes foreign host o
  absent : ∀ o, o ∉ candidates →
    f.indexOf o = none ∧ f.recordOf o = some none ∧ f.targetsOf o = some []
  sliced : f.Sliced
  bounded : ∀ j ∈ f.edgeTable, j < f.size
  targets : ∀ o ∈ candidates, ∃ targets, ForeignHeap.references foreign o = .ok targets ∧
    f.targetsOf o = some (targets.filter (· ∈ candidates))
  /-- The edges of the records make up the edge table, and the counts count them. -/
  incoming : ∃ (edges : List (List Nat)) (counts : Array Nat), (∀ i, f.edges i = edges[i]?) ∧
    edges.length = f.size ∧ edges.flatten = f.edgeTable ∧ f.incomingCounts = some counts ∧
    counts.size = f.size ∧ (∀ j < f.size, counts[j]? = some (edges.map (List.count j)).sum) ∧
    counts.sum = f.edgeCount

theorem sliced_flatten (s : Snapshot) (index : Std.HashMap ObjectId UInt32) :
    (s.flatten index).Sliced where
  first r hr := by
    rw [Snapshot.getElem?_flatten] at hr
    obtain ⟨q, hq, rfl⟩ := Option.map_eq_some_iff.1 hr
    exact s.edgeStart_zero
  next i r r' hr hr' := by
    rw [Snapshot.getElem?_flatten] at hr hr'
    obtain ⟨q, hq, rfl⟩ := Option.map_eq_some_iff.1 hr
    obtain ⟨q', hq', rfl⟩ := Option.map_eq_some_iff.1 hr'
    exact Snapshot.edgeStart_succ hq
  last r hr := by
    rw [Snapshot.getElem?_flatten, Snapshot.size_flatten] at hr
    obtain ⟨q, hq, rfl⟩ := Option.map_eq_some_iff.1 hr
    have bound : s.size - 1 < s.size := (Array.getElem?_eq_some_iff.1 hq).1
    have last : s.size - 1 + 1 = s.size := by omega
    calc s.edgeStart (s.size - 1) + q.edges.length
      _ = s.edgeStart (s.size - 1 + 1) := (Snapshot.edgeStart_succ hq).symm
      _ = s.edgeCount := by rw [last, s.edgeStart_size]
      _ = (s.flatten index).edgeCount := Snapshot.edgeCount_flatten.symm
  unique k inside := by
    obtain ⟨i, ⟨r, hr, after, before⟩, only⟩ :=
      Snapshot.existsUnique_edge (inside.trans_eq Snapshot.edgeCount_flatten)
    refine ⟨i, ⟨r.place (s.edgeStart i), ?_, after, before⟩, ?_⟩
    · rw [Snapshot.getElem?_flatten, hr]
      rfl
    · rintro j ⟨r', hr', after, before⟩
      rw [Snapshot.getElem?_flatten] at hr'
      obtain ⟨q, hq, rfl⟩ := Option.map_eq_some_iff.1 hr'
      exact only j ⟨q, hq, after, before⟩

/-- Counting by position counts every edge once. -/
theorem sum_incomingCounts (addressable : s.Addressable) : s.incomingCounts.sum = s.edgeCount := by
  have card := Multiset.sum_count_eq_card (s := Finset.range s.size)
    (m := (s.edgeTable : Multiset Nat)) fun j mem => Finset.mem_range.2 (addressable.lt_size mem)
  simp only [Multiset.coe_count, Multiset.coe_card] at card
  exact card

theorem addressable_of_take (taken : Snapshot.take sets foreign host = .ok s)
    (handles : ∀ o ∈ sets.members .inCollection, o.index < 1 <<< 32) : s.Addressable where
  bounded := (Snapshot.wellformed_take taken).bounded
  size := (Marking.size_le_of_handles taken handles).trans (by decide)

/-- The tables of a snapshot that was just taken show the objects in collection. -/
theorem encodes_flatten (taken : Snapshot.take sets foreign host = .ok s)
    (addressable : s.Addressable) {index : Std.HashMap ObjectId UInt32}
    (numbers : Numbers (sets.members .inCollection) index) :
    (s.flatten index).Encodes (sets.members .inCollection) foreign host := by
  have objects := Snapshot.objects_take taken
  have nodup := sets.nodup_members .inCollection
  have numbered : Numbers s.objects index := objects ▸ numbers
  have position : ∀ o, (s.flatten index).indexOf o = (sets.members .inCollection).idxOf? o :=
    fun o => by rw [indexOf_flatten addressable numbered, Snapshot.indexOf_eq, objects]
  constructor
  case size => rw [Snapshot.size_flatten, ← objects, Snapshot.length_objects]
  case indexOf =>
    intro o i
    rw [position, Snapshot.idxOf?_eq_some nodup]
  case records =>
    intro o i at_i
    obtain ⟨r, hr, describes⟩ := Snapshot.exists_record_of_take taken at_i
    have found : (s.flatten index).indexOf o = some i :=
      (position _).trans ((Snapshot.idxOf?_eq_some nodup).2 at_i)
    have placed : (s.flatten index).records[i]? = some (r.place (s.edgeStart i)) := by
      rw [Snapshot.getElem?_flatten, hr, Option.map_some]
    exact ⟨_, placed, by simp [recordOf, found, placed], describes.object, describes.refcount,
      describes.bridge, describes.rooted, describes.external, describes.unprocessed⟩
  case absent =>
    intro o apart
    have none : (s.flatten index).indexOf o = none :=
      (position o).trans (List.idxOf?_eq_none_iff.2 apart)
    exact ⟨none, by simp [recordOf, none], by simp [targetsOf, none]⟩
  case sliced => exact sliced_flatten s index
  case bounded =>
    intro j mem
    rw [addressable.edgeTable_flatten] at mem
    exact addressable.lt_size mem |>.trans_eq Snapshot.size_flatten.symm
  case targets =>
    intro o mem
    obtain ⟨targets, references, shown⟩ := Snapshot.targetsOf_of_take taken mem
    exact ⟨targets, references, by rw [targetsOf_flatten addressable numbered, shown]⟩
  case incoming =>
    refine ⟨s.records.toList.map Snapshot.Record.edges, s.incomingCounts.toArray, fun i => ?_, ?_,
      ?_, incomingCounts_flatten addressable, ?_, fun j bound => ?_, ?_⟩
    · rw [edges_flatten addressable]
      simp
    · simp [Snapshot.size_flatten, Snapshot.size]
    · rw [addressable.edgeTable_flatten, Snapshot.edgeTable, List.flatMap_def]
    · simp [Snapshot.size_flatten, Snapshot.incomingCounts]
    · rw [Snapshot.size_flatten] at bound
      simp [Snapshot.incomingCounts, bound, Snapshot.edgeTable, List.count_flatMap,
        Function.comp_def]
    · rw [List.sum_toArray, sum_incomingCounts addressable, Snapshot.edgeCount_flatten]

end Encodes

/-- A snapshot of objects that both heaps know has one record for each of them, in their order, and
its tables show their references to each other, in order and with repetitions. Nothing else has a
position, a record or targets. The ranges of the records cut the edge table into consecutive parts,
and the edges to each record are counted. The records that hold their edges are the same graph. -/
theorem encodes_of_take {sets : TrackedSets} {foreign : Arena} {host : HostHeap}
    (allocated : ∀ o ∈ sets.members .inCollection, o.index < foreign.size)
    (bridges : ∀ o ∈ sets.members .inCollection, ∀ h, foreign.bridge o = .ok (some h) →
      h.index < host.objects.size)
    (handles : ∀ o ∈ sets.members .inCollection, o.index < 1 <<< 32) :
    ∃ f s, take sets foreign host = .ok f ∧ Snapshot.take sets foreign host = .ok s ∧
      f.Encodes (sets.members .inCollection) foreign host ∧ f.Presents s := by
  have cells : ∀ o ∈ sets.members .inCollection, ∃ c, foreign.cell o = .ok c ∧
      ∀ h ∈ c.bridge, h.index < host.objects.size := by
    intro o mem
    obtain ⟨c, hc⟩ := Arena.cell_of_lt (allocated o mem)
    exact ⟨c, hc, fun h bridge => bridges o mem h (map_eq_ok.2 ⟨c, hc, bridge⟩)⟩
  obtain ⟨s, taken⟩ := World.exists_take cells
  have addressable := addressable_of_take taken handles
  have numbers := numbers_number (sets.nodup_members .inCollection)
  refine ⟨_, s, by rw [take_eq, taken]; rfl, taken, encodes_flatten taken addressable numbers,
    presents_flatten addressable ?_⟩
  rwa [Snapshot.objects_take taken]

/-- The first object in collection refers to a later one twice, to itself, to an isolated object, to
one that is not tracked and to one that does not exist. -/
theorem encodes_of_take_crossed :
    let foreign : Arena := { cells := #[
      { refcount := 3, references := [⟨3⟩, ⟨2⟩] },
      { refcount := 1 },
      { refcount := Refcount.hostBias + 2, references := [⟨0⟩, ⟨2⟩, ⟨1⟩, ⟨4⟩, ⟨9⟩, ⟨0⟩],
        bridge := some ⟨0⟩ },
      { refcount := 1 },
      { refcount := 1 }] }
    let host : HostHeap := { objects := #[{ flags := { noHeapPtrs := true } }] }
    let sets : TrackedSets := { entries := [⟨⟨2⟩, .inCollection, 0⟩, ⟨⟨1⟩, .isolated, 0⟩,
      ⟨⟨0⟩, .inCollection, 0⟩, ⟨⟨3⟩, .inCollection, 0⟩], nodup := by decide }
    ∃ f, take sets foreign host = .ok f ∧ f.size = 3 ∧ f.edgeTable = [1, 0, 1, 2, 0] ∧
      f.indexOf ⟨0⟩ = some 1 ∧ f.indexOf ⟨1⟩ = none ∧ f.edges 1 = some [2, 0] ∧
      f.targetsOf ⟨2⟩ = some [⟨0⟩, ⟨2⟩, ⟨0⟩] ∧ f.targetsOf ⟨4⟩ = some [] ∧
      f.incomingCounts = some #[2, 2, 1] := by
  intro foreign host sets
  let s := (Snapshot.take sets foreign host).toOption.getD {}
  have plain : Snapshot.take sets foreign host = .ok s := by decide +kernel
  have handles : ∀ o ∈ sets.members .inCollection, o.index < 1 <<< 32 := by decide +kernel
  have allocated : ∀ o ∈ sets.members .inCollection, o.index < foreign.size := by decide +kernel
  have valid : ∀ o ∈ sets.members .inCollection, ∀ h ∈ (foreign.bridge o).toOption.join,
      h.index < host.objects.size := by decide +kernel
  have bridges : ∀ o ∈ sets.members .inCollection, ∀ h, foreign.bridge o = .ok (some h) →
      h.index < host.objects.size := fun o mem h bridged => valid o mem h (by rw [bridged]; rfl)
  obtain ⟨f, s', taken, plain', encodes, presents⟩ := encodes_of_take allocated bridges handles
  obtain rfl : s' = s := Except.ok.inj (plain'.symm.trans plain)
  refine ⟨f, taken, encodes.size, ?_, ?_, ?_, ?_, ?_, ?_, ?_⟩
  · rw [presents.edgeTable]
    decide +kernel
  · exact (encodes.indexOf ⟨0⟩ 1).2 (by decide +kernel)
  · exact (encodes.absent ⟨1⟩ (by decide +kernel)).1
  · rw [presents.edges]
    decide +kernel
  · rw [presents.targetsOf]
    decide +kernel
  · exact (encodes.absent ⟨4⟩ (by decide +kernel)).2.2
  · rw [presents.incomingCounts]
    decide +kernel

end FlatSnapshot

end CycleCollector
