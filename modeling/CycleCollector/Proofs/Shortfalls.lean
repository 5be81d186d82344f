import CycleCollector.Proofs.FlatSnapshots
/-!
# Where collecting roots fails

Edges are taken off their targets one by one, so the first one that a target has no reference left
for stops the collection. Whether there is such an edge depends on the sums alone: some record has
more edges to it than references to account for.

## Main definitions

* `FlatSnapshot.Overdraws`: an edge is one more than the references of its target.
* `FlatSnapshot.Overdrawn`: a record has more edges to it than references.
* `FlatSnapshot.Reorders`: the same objects and references in another order.

## Main statements

* `Snapshot.foldlM_discount_eq_error`, `Snapshot.exists_foldlM_discount_eq_error_iff`: which edge
  fails, and whether one does.
* `FlatSnapshot.collectRoots_flatten`: both kinds of snapshot collect roots alike.
* `FlatSnapshot.collectRoots_of_take`: when it fails, what is named, and what is left otherwise.
-/

namespace CycleCollector

namespace Snapshot

variable {j k : Nat} {positions : List Nat} {records : Array Record} {fault : Fault}

theorem discount_eq_error : discount records j = .error fault ↔
    ∃ r, records[j]? = some r ∧ r.external = 0 ∧ fault = .negativeExternal r.object := by
  unfold discount
  cases records[j]? with
  | none => simp
  | some r =>
    by_cases zero : r.external = 0 <;> simp [zero, eq_comm]

theorem count_take_succ (at_k : positions[k]? = some j) :
    (positions.take (k + 1)).count j = (positions.take k).count j + 1 := by
  simp [List.take_add_one, at_k]

/-- The edge that fails finds as many edges to its target before it as that has references, and none
of those has failed. -/
theorem foldlM_discount_eq_error : positions.foldlM discount records = .error fault ↔
    ∃ (k j : Nat) (r : Record), positions[k]? = some j ∧ records[j]? = some r ∧
      (∀ (i : Nat) q, records[i]? = some q → (positions.take k).count i ≤ q.external) ∧
      r.external < (positions.take (k + 1)).count j ∧ fault = .negativeExternal r.object := by
  rw [foldlM_eq_error]
  constructor
  · rintro ⟨k, j, left, at_k, before, fails⟩
    obtain ⟨enough, same⟩ := foldlM_discount_eq_ok.1 before
    obtain ⟨r, hr, zero, rfl⟩ := discount_eq_error.1 fails
    obtain ⟨q, hq, rfl⟩ := Option.map_eq_some_iff.1 ((same j).symm.trans hr)
    refine ⟨k, j, q, at_k, hq, enough, ?_, rfl⟩
    have zero : q.external - (positions.take k).count j = 0 := zero
    rw [count_take_succ at_k]
    omega
  · rintro ⟨k, j, r, at_k, hr, enough, short, rfl⟩
    have left : (records.mapIdx fun i q =>
        { q with external := q.external - (positions.take k).count i })[j]? =
          some { r with external := r.external - (positions.take k).count j } := by
      rw [Array.getElem?_mapIdx, hr]
      rfl
    have zero : r.external - (positions.take k).count j = 0 := by
      rw [count_take_succ at_k] at short
      omega
    exact ⟨k, j, _, at_k, foldlM_discount_of_le enough, discount_eq_error.2 ⟨_, left, zero, rfl⟩⟩

/-- Some edge fails just if a record has more edges than references, in whatever order they come. -/
theorem exists_foldlM_discount_eq_error_iff :
    (∃ fault, positions.foldlM discount records = .error fault) ↔
      ∃ (i : Nat) (r : Record), records[i]? = some r ∧ r.external < positions.count i := by
  constructor
  · rintro ⟨fault, fails⟩
    obtain ⟨k, j, r, -, hr, -, short, -⟩ := foldlM_discount_eq_error.1 fails
    exact ⟨j, r, hr, short.trans_le ((List.take_sublist _ _).count_le _)⟩
  · rintro ⟨i, r, hr, short⟩
    cases ended : positions.foldlM discount records with
    | error fault => exact ⟨fault, rfl⟩
    | ok left => exact absurd ((foldlM_discount_eq_ok.1 ended).1 i r hr) (by omega)

end Snapshot

namespace FlatSnapshot

/-! ## Taking edges off in place -/

section InPlace

variable {s : Snapshot} {index : Std.HashMap ObjectId UInt32} {positions : List Nat} {j : Nat}
  {records : Array Snapshot.Record} {f : FlatSnapshot}

/-- Where the edges of the records are has no part in what happens to their counts. -/
theorem discount_place (starts : Nat → Nat) (bound : j < records.size) :
    discount (records.mapIdx fun i r => r.place (starts i)) j =
      (fun records => records.mapIdx fun i r => r.place (starts i)) <$>
        Snapshot.discount records j := by
  have hr : records[j]? = some records[j] := Array.getElem?_eq_getElem bound
  simp only [discount, Snapshot.discount, Array.getElem?_mapIdx, hr, Option.map_some]
  by_cases zero : records[j].external = 0
  · simp [Snapshot.Record.place, zero, Functor.map, Except.map]
  · have placed : ((records.mapIdx fun i r => r.place (starts i)).setIfInBounds j
          { records[j].place (starts j) with external := records[j].external - 1 }) =
        (records.setIfInBounds j { records[j] with external := records[j].external - 1 }).mapIdx
          fun i r => r.place (starts i) := by
      refine Array.ext_getElem? fun i => ?_
      rw [Array.getElem?_mapIdx, Array.getElem?_setIfInBounds, Array.getElem?_setIfInBounds,
        Array.getElem?_mapIdx, Array.size_mapIdx]
      split
      · next here =>
        subst i
        simp [Snapshot.Record.place]
      · rfl
    have alive : ¬(records[j].place (starts j)).external = 0 := zero
    rw [if_neg alive, if_neg zero]
    exact congrArg Except.ok placed

theorem foldlM_discount_place (starts : Nat → Nat) (bounded : ∀ j ∈ positions, j < records.size) :
    positions.foldlM discount (records.mapIdx fun i r => r.place (starts i)) =
      (fun records => records.mapIdx fun i r => r.place (starts i)) <$>
        positions.foldlM Snapshot.discount records := by
  induction positions generalizing records with
  | nil => rfl
  | cons j js ih =>
    obtain ⟨here, others⟩ := List.forall_mem_cons.1 bounded
    rw [List.foldlM_cons, List.foldlM_cons, discount_place starts here]
    cases first : Snapshot.discount records j with
    | error => rfl
    | ok records' => exact ih fun j mem => (Snapshot.size_discount first).symm ▸ others j mem

/-- Roots are collected in the tables as they are in the snapshot. -/
theorem collectRoots_flatten (addressable : s.Addressable) : (s.flatten index).collectRoots =
    (fun s' : Snapshot => s'.flatten index) <$> s.collectRoots := by
  have fold : s.edgeTable.foldlM discount (s.flatten index).records =
      (fun records => records.mapIdx fun i r => r.place (s.edgeStart i)) <$>
        s.edgeTable.foldlM Snapshot.discount s.records :=
    foldlM_discount_place s.edgeStart fun j mem => addressable.lt_size mem
  rw [collectRoots, addressable.edgeTable_flatten, fold, Snapshot.collectRoots]
  cases folded : s.edgeTable.foldlM Snapshot.discount s.records with
  | error fault => rfl
  | ok records =>
    have collected : s.collectRoots = .ok ⟨records⟩ := by
      rw [Snapshot.collectRoots, folded]
      rfl
    have same := Snapshot.frozen_collectRoots collected
    have tables : (⟨records⟩ : Snapshot).flatten index = { s.flatten index with
        records := records.mapIdx fun i r => r.place (s.edgeStart i) } := by
      simp only [Snapshot.flatten, Snapshot.edgeStart_congr same, Snapshot.edgeTable_congr same]
    exact congrArg Except.ok tables.symm

theorem collectRoots_eq_error {fault : Fault} : f.collectRoots = .error fault ↔
    f.edgeTable.foldlM discount f.records = .error fault :=
  map_eq_error (f := fun records => { f with records })

end InPlace

/-! ## When an edge fails, and which one -/

section Fails

variable {s : Snapshot} {index : Std.HashMap ObjectId UInt32} {k : Nat} {f f' : FlatSnapshot}
  {r : Record} {fault : Fault}

/-- Counted from the first edge on, edge number `k` is one more to the record `r` than it has
references to account for. -/
def Overdraws (f : FlatSnapshot) (k : Nat) (r : Record) : Prop :=
  ∃ j : Nat, f.edgeTable[k]? = some j ∧ f.records[j]? = some r ∧
    r.intrinsic < (f.edgeTable.take (k + 1)).count j

def Overdrawn (f : FlatSnapshot) : Prop :=
  ∃ (i : Nat) (r : Record), f.records[i]? = some r ∧ r.intrinsic < f.edgeTable.count i

theorem Overdraws.overdrawn (overdraws : f.Overdraws k r) : f.Overdrawn := by
  obtain ⟨j, -, hr, short⟩ := overdraws
  exact ⟨j, r, hr, short.trans_le ((List.take_sublist _ _).count_le _)⟩

theorem overdrawn_flatten (addressable : s.Addressable) : (s.flatten index).Overdrawn ↔
    ∃ (i : Nat) (r : Snapshot.Record), s.records[i]? = some r ∧
      r.intrinsic < s.edgeTable.count i := by
  simp only [Overdrawn, addressable.edgeTable_flatten, Snapshot.getElem?_flatten]
  constructor
  · rintro ⟨i, r, hr, short⟩
    obtain ⟨q, hq, rfl⟩ := Option.map_eq_some_iff.1 hr
    exact ⟨i, q, hq, short⟩
  · rintro ⟨i, r, hr, short⟩
    exact ⟨i, r.place (s.edgeStart i), by rw [hr]; rfl, short⟩

variable (addressable : s.Addressable) (fresh : ∀ r ∈ s.records, r.external = r.intrinsic)

include addressable fresh

/-- Whether an edge fails does not hang on the order of the edges. -/
theorem exists_error_of_perm {refs : Array UInt32}
    (perm : refs.toList.Perm (s.flatten index).refs.toList) :
    (∃ fault, { s.flatten index with refs }.collectRoots = .error fault) ↔
      (s.flatten index).Overdrawn := by
  have table : (refs.toList.map UInt32.toNat).Perm s.edgeTable :=
    addressable.edgeTable_flatten index ▸ perm.map UInt32.toNat
  have fold : (refs.toList.map UInt32.toNat).foldlM discount (s.flatten index).records =
      (fun records => records.mapIdx fun i r => r.place (s.edgeStart i)) <$>
        (refs.toList.map UInt32.toNat).foldlM Snapshot.discount s.records :=
    foldlM_discount_place s.edgeStart fun j mem => addressable.lt_size (table.mem_iff.1 mem)
  rw [overdrawn_flatten addressable]
  simp only [collectRoots_eq_error, edgeTable, fold, map_eq_error,
    Snapshot.exists_foldlM_discount_eq_error_iff, table.count_eq]
  refine exists_congr fun i => exists_congr fun r => and_congr_right fun hr => ?_
  rw [fresh r (Array.mem_of_getElem? hr)]

/-- The edge that fails is the first one that is too much. -/
theorem exists_overdraws_of_error (failed : (s.flatten index).collectRoots = .error fault) :
    ∃ k r, (s.flatten index).Overdraws k r ∧
      (∀ k' < k, ∀ r', ¬(s.flatten index).Overdraws k' r') ∧
        fault = .negativeExternal r.object := by
  rw [collectRoots_flatten addressable, map_eq_error] at failed
  have failed : s.edgeTable.foldlM Snapshot.discount s.records = .error fault :=
    map_eq_error (f := Snapshot.mk).1 failed
  obtain ⟨k, j, r, at_k, hr, enough, short, rfl⟩ := Snapshot.foldlM_discount_eq_error.1 failed
  have table := addressable.edgeTable_flatten index
  refine ⟨k, r.place (s.edgeStart j), ⟨j, table ▸ at_k, ?_, ?_⟩, ?_, rfl⟩
  · rw [Snapshot.getElem?_flatten, hr]
    rfl
  · rw [fresh r (Array.mem_of_getElem? hr)] at short
    exact table ▸ short
  · rintro k' earlier r' ⟨j', -, hr', short'⟩
    rw [Snapshot.getElem?_flatten] at hr'
    obtain ⟨q, hq, rfl⟩ := Option.map_eq_some_iff.1 hr'
    rw [table] at short'
    have covered := enough j' q hq
    have fewer : (s.edgeTable.take (k' + 1)).count j' ≤ (s.edgeTable.take k).count j' :=
      (List.take_sublist_take_left earlier).count_le j'
    have same : q.external = (q.place (s.edgeStart j')).intrinsic :=
      fresh q (Array.mem_of_getElem? hq)
    omega

theorem collectRoots_flatten_eq_error : (s.flatten index).collectRoots = .error fault ↔
    ∃ k r, (s.flatten index).Overdraws k r ∧
      (∀ k' < k, ∀ r', ¬(s.flatten index).Overdraws k' r') ∧
        fault = .negativeExternal r.object := by
  refine ⟨exists_overdraws_of_error addressable fresh, ?_⟩
  rintro ⟨k, r, overdraws, first, rfl⟩
  obtain ⟨fault, failed⟩ :=
    (exists_error_of_perm addressable fresh (.refl (s.flatten index).refs.toList)).2
      overdraws.overdrawn
  obtain ⟨k', r', overdraws', first', rfl⟩ := exists_overdraws_of_error addressable fresh failed
  obtain rfl : k' = k := by
    rcases Nat.lt_trichotomy k' k with before | same | after
    · exact absurd overdraws' (first k' before r')
    · exact same
    · exact absurd overdraws (first' k after r)
  obtain ⟨j, at_k, hr, -⟩ := overdraws
  obtain ⟨j', at_k', hr', -⟩ := overdraws'
  obtain rfl := Option.some.inj (at_k.symm.trans at_k')
  obtain rfl := Option.some.inj (hr.symm.trans hr')
  exact failed

/-- Nothing changes but the external counts, which lose all edges. -/
theorem of_collectRoots_flatten (collected : (s.flatten index).collectRoots = .ok f') :
    f'.refs = (s.flatten index).refs ∧ f'.index = index ∧
      ∀ i : Nat, f'.records[i]? = (s.flatten index).records[i]?.map fun r =>
        { r with external := r.intrinsic - (s.flatten index).edgeTable.count i } := by
  rw [collectRoots_flatten addressable, map_eq_ok] at collected
  obtain ⟨s', collected, rfl⟩ := collected
  have same := Snapshot.frozen_collectRoots collected
  refine ⟨?_, rfl, fun i => ?_⟩
  · rw [Snapshot.flatten, Snapshot.flatten, Snapshot.edgeTable_congr same]
  · rw [Snapshot.getElem?_flatten, Snapshot.getElem?_flatten, Snapshot.edgeStart_congr same,
      (Snapshot.collectRoots_eq_ok.1 collected).2, Option.map_map, Option.map_map,
      addressable.edgeTable_flatten]
    refine Option.map_congr fun r hr => ?_
    have start : r.external = r.intrinsic := fresh r (Array.mem_of_getElem? hr)
    have intrinsic : (r.place (s.edgeStart i)).intrinsic = r.intrinsic := rfl
    simp only [Function.comp_apply, intrinsic, start]
    rfl

end Fails

/-! ## The order of objects and references -/

section Order

variable {ρ : Type} [ForeignHeap ρ] {foreign foreign' : ρ} {host : HostHeap}
  {sets sets' : TrackedSets} {s s' : Snapshot}

/-- The same objects in collection in another order, each with its references in another order. -/
structure Reorders (sets sets' : TrackedSets) (foreign foreign' : ρ) : Prop where
  objects : (sets'.members .inCollection).Perm (sets.members .inCollection)
  refcount : ∀ o ∈ sets.members .inCollection,
    ForeignHeap.refcount foreign' o = ForeignHeap.refcount foreign o
  bridge : ∀ o ∈ sets.members .inCollection,
    ForeignHeap.bridge foreign' o = ForeignHeap.bridge foreign o
  targets : ∀ o ∈ sets.members .inCollection,
    (ForeignHeap.targets foreign' o).Perm (ForeignHeap.targets foreign o)

theorem Reorders.symm (reorders : Reorders sets sets' foreign foreign') :
    Reorders sets' sets foreign' foreign where
  objects := reorders.objects.symm
  refcount o mem := (reorders.refcount o (reorders.objects.mem_iff.1 mem)).symm
  bridge o mem := (reorders.bridge o (reorders.objects.mem_iff.1 mem)).symm
  targets o mem := (reorders.targets o (reorders.objects.mem_iff.1 mem)).symm

/-- A record with too many edges has too many of them in any order. -/
theorem Reorders.exists_short (reorders : Reorders sets sets' foreign foreign')
    (taken : Snapshot.take sets foreign host = .ok s)
    (taken' : Snapshot.take sets' foreign' host = .ok s') {i : Nat} {r : Snapshot.Record}
    (hr : s.records[i]? = some r) (short : r.intrinsic < s.edgeTable.count i) :
    ∃ (i' : Nat) (r' : Snapshot.Record), s'.records[i']? = some r' ∧
      r'.intrinsic < s'.edgeTable.count i' := by
  have describes := Snapshot.describes_of_take taken (Array.mem_of_getElem? hr)
  have mem : r.object ∈ sets.members .inCollection := by
    rw [← Snapshot.objects_take taken]
    exact List.mem_map_of_mem (Array.mem_toList_iff.2 (Array.mem_of_getElem? hr))
  obtain ⟨i', at_i'⟩ := List.mem_iff_getElem?.1 (reorders.objects.mem_iff.2 mem)
  obtain ⟨r', hr', describes'⟩ := Snapshot.exists_record_of_take taken' at_i'
  have refcount : r'.refcount = r.refcount := Except.ok.inj
    (describes'.refcount.symm.trans ((reorders.refcount _ mem).trans describes.refcount))
  have bridge : r'.bridge = r.bridge := Except.ok.inj
    (describes'.bridge.symm.trans ((reorders.bridge _ mem).trans describes.bridge))
  have rooted : r'.bridgeRooted = r.bridgeRooted := Except.ok.inj
    (describes'.rooted.symm.trans (bridge ▸ describes.rooted))
  have counts : s'.edgeTable.count i' = s.edgeTable.count i := by
    rw [Snapshot.count_edgeTable_of_take taken hr, Snapshot.count_edgeTable_of_take taken' hr',
      describes'.object]
    rw [(reorders.objects.map _).sum_eq]
    exact congrArg List.sum (List.map_congr_left fun p mem => (reorders.targets p mem).count_eq _)
  refine ⟨i', r', hr', ?_⟩
  rwa [Snapshot.Record.intrinsic, refcount, rooted, counts]

theorem exists_flatten_of_take {f : FlatSnapshot} (taken : take sets foreign host = .ok f)
    (handles : ∀ o ∈ sets.members .inCollection, o.index < 1 <<< 32) :
    ∃ s index, Snapshot.take sets foreign host = .ok s ∧ f = s.flatten index ∧ s.Addressable ∧
      ∀ r ∈ s.records, r.external = r.intrinsic := by
  rw [take_eq, map_eq_ok] at taken
  obtain ⟨s, taken, rfl⟩ := taken
  exact ⟨s, _, taken, rfl, addressable_of_take taken handles,
    fun r mem => (Snapshot.describes_of_take taken mem).external⟩

theorem Reorders.overdrawn_iff {index index' : Std.HashMap ObjectId UInt32}
    (reorders : Reorders sets sets' foreign foreign')
    (taken : Snapshot.take sets foreign host = .ok s)
    (taken' : Snapshot.take sets' foreign' host = .ok s') (addressable : s.Addressable)
    (addressable' : s'.Addressable) :
    (s'.flatten index').Overdrawn ↔ (s.flatten index).Overdrawn := by
  rw [overdrawn_flatten addressable, overdrawn_flatten addressable']
  constructor
  · rintro ⟨i, r, hr, short⟩
    exact reorders.symm.exists_short taken' taken hr short
  · rintro ⟨i, r, hr, short⟩
    exact reorders.exists_short taken taken' hr short

end Order

/-- Collecting the roots of a snapshot that was just taken fails just if some record has more edges
to it than references to account for. It does not matter in which order the edges are taken off, nor
in which order the objects and their references come. The fault names the target of the first edge
that is too much. If there is none, each external count is what is left when all edges to the record
are taken off, and nothing else has changed. Records that hold their edges fare alike. -/
theorem collectRoots_of_take {ρ : Type} [ForeignHeap ρ] {sets : TrackedSets} {foreign : ρ}
    {host : HostHeap} {f : FlatSnapshot} (taken : take sets foreign host = .ok f)
    (handles : ∀ o ∈ sets.members .inCollection, o.index < 1 <<< 32) :
    ((∃ fault, f.collectRoots = .error fault) ↔ f.Overdrawn) ∧
      (∀ refs : Array UInt32, refs.toList.Perm f.refs.toList →
        ((∃ fault, { f with refs }.collectRoots = .error fault) ↔ f.Overdrawn)) ∧
      (∀ sets' foreign' f', Reorders sets sets' foreign foreign' →
        take sets' foreign' host = .ok f' →
        ((∃ fault, f'.collectRoots = .error fault) ↔ f.Overdrawn)) ∧
      (∀ fault, f.collectRoots = .error fault ↔ ∃ k r, f.Overdraws k r ∧
        (∀ k' < k, ∀ r', ¬f.Overdraws k' r') ∧ fault = .negativeExternal r.object) ∧
      (∀ f', f.collectRoots = .ok f' → f'.refs = f.refs ∧ f'.index = f.index ∧
        ∀ i : Nat, f'.records[i]? = f.records[i]?.map fun r =>
          { r with external := r.intrinsic - f.edgeTable.count i }) ∧
      ∃ s, Snapshot.take sets foreign host = .ok s ∧ f = s.flatten f.index ∧
        f.collectRoots = (fun s' : Snapshot => s'.flatten f.index) <$> s.collectRoots := by
  obtain ⟨s, index, plain, rfl, addressable, fresh⟩ := exists_flatten_of_take taken handles
  refine ⟨exists_error_of_perm addressable fresh (.refl _),
    fun refs perm => exists_error_of_perm addressable fresh perm, ?_,
    fun fault => collectRoots_flatten_eq_error addressable fresh,
    fun f' collected => of_collectRoots_flatten addressable fresh collected, s, plain, rfl,
    collectRoots_flatten addressable⟩
  intro sets' foreign' f' reorders taken'
  obtain ⟨s', index', plain', rfl, addressable', fresh'⟩ := exists_flatten_of_take taken'
    fun o mem => handles o (reorders.objects.mem_iff.1 mem)
  rw [exists_error_of_perm addressable' fresh' (.refl _)]
  exact reorders.overdrawn_iff plain plain' addressable addressable'

/-- Object 1 comes first in collection and refers to itself and to object 2, object 0 refers twice
to object 2 and once to each of the others. The fourth edge is too much for object 1, which only its
bridge holds, and the fifth one would be too much for object 2. Edges taken off from the last one on
fail, too. -/
theorem collectRoots_of_take_short :
    let foreign : Arena := { cells := #[
      { refcount := 1, references := [⟨2⟩, ⟨1⟩, ⟨2⟩, ⟨0⟩] },
      { refcount := Refcount.hostBias, references := [⟨1⟩, ⟨2⟩], bridge := some ⟨0⟩ },
      { refcount := 2 }] }
    let host : HostHeap := { objects := #[{ flags := { visited := true } }] }
    let sets : TrackedSets := { entries := [⟨⟨1⟩, .inCollection, 0⟩, ⟨⟨0⟩, .inCollection, 0⟩,
      ⟨⟨2⟩, .inCollection, 0⟩], nodup := by decide }
    ∃ f, take sets foreign host = .ok f ∧ f.edgeTable = [0, 2, 2, 0, 2, 1] ∧
      f.collectRoots = .error (.negativeExternal ⟨1⟩) ∧
      (∃ k r, f.Overdraws k r ∧ (∀ k' < k, ∀ r', ¬f.Overdraws k' r') ∧ r.object = ⟨1⟩) ∧
      ∃ fault, { f with refs := f.refs.reverse }.collectRoots = .error fault := by
  intro foreign host sets
  let s := (Snapshot.take sets foreign host).toOption.getD {}
  have plain : Snapshot.take sets foreign host = .ok s := by decide +kernel
  have fails : s.collectRoots = .error (.negativeExternal ⟨1⟩) := by decide +kernel
  have table : (s.edgeTable.map UInt32.ofNat).map UInt32.toNat = [0, 2, 2, 0, 2, 1] := by
    decide +kernel
  have handles : ∀ o ∈ sets.members .inCollection, o.index < 1 <<< 32 := by decide +kernel
  have taken : take sets foreign host =
      .ok (s.flatten (number (sets.members .inCollection))) := by
    rw [take_eq, plain]
    rfl
  obtain ⟨whether, ordered, -, which, -, s', plain', -, alike⟩ := collectRoots_of_take taken handles
  obtain rfl : s' = s := Except.ok.inj (plain'.symm.trans plain)
  have failed := alike.trans (map_eq_error.2 fails)
  obtain ⟨k, r, overdraws, first, named⟩ := (which _).1 failed
  refine ⟨_, taken, table, failed,
    ⟨k, r, overdraws, first, (Fault.negativeExternal.inj named).symm⟩,
    (ordered _ ?_).2 (whether.1 ⟨_, failed⟩)⟩
  simp

end FlatSnapshot

end CycleCollector
