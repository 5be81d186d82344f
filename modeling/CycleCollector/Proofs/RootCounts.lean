import Mathlib.Data.List.Perm.Subperm
import CycleCollector.Arena.Basic
import CycleCollector.Proofs.FixedPoint
/-!
# Root counts from the first scan to the last

Collecting roots takes every edge off its target, and every record that is found alive puts its own
edges back. So an external count is at any time what the references of the record and the edges from
processed records make up, less all its edges; and one more if the record was found alive through
its bridge while the count was zero. As there are fewer edges than the two upper bits of a word
leave room for, no count and no counter ever leaves its word.

## Main definitions

* `Snapshot.closedEdges`, `Snapshot.edgeStart`: the edges of processed records, and where the edges
  of a record begin in the table.
* `Marking.Trail`: what marking may have come to, scan by scan, and which records it found through
  their bridges only.
* `Snapshot.Accounted`, `Marking.Tallied`: the invariants of the counts and of the counters.
* `Marking.Accounts`, `Marking.InWords`: what they say of a snapshot, and of words of 64 bits.

## Main statements

* `Marking.Trail.accounted`, `Marking.Trail.tallied`: every visit keeps them.
* `Marking.roots_accounted`: the accounts hold throughout, and nothing overflows.
-/

namespace CycleCollector

namespace Snapshot

variable {s : Snapshot} {r : Record} {i j : Nat} {crossed crossed' : List Nat}

/-! ## Edges -/

def closedEdges (s : Snapshot) : List Nat :=
  s.records.toList.flatMap fun r => if r.processed then r.edges else []

def edgeStart (s : Snapshot) (i : Nat) : Nat :=
  ((s.records.toList.take i).flatMap Record.edges).length

theorem count_openEdges_add_closedEdges (s : Snapshot) (j : Nat) :
    s.openEdges.count j + s.closedEdges.count j = s.edgeTable.count j := by
  unfold openEdges closedEdges edgeTable
  induction s.records.toList with
  | nil => rfl
  | cons r rs ih =>
    simp only [List.flatMap_cons, List.count_append]
    split <;> simp only [List.count_nil] <;> omega

/-- The edges of earlier records, those of a record, and those of later ones. -/
theorem edgeTable_split (hr : s.records[i]? = some r) :
    s.edgeTable = (s.records.toList.take i).flatMap Record.edges ++
      (r.edges ++ (s.records.toList.drop (i + 1)).flatMap Record.edges) := by
  have at_i : s.records.toList[i]? = some r := by simpa using hr
  obtain ⟨bound, rfl⟩ := List.getElem?_eq_some_iff.1 at_i
  conv_lhs => rw [edgeTable, ← List.take_append_drop i s.records.toList,
    List.drop_eq_getElem_cons bound, List.flatMap_append, List.flatMap_cons]

theorem edgeStart_add_le (hr : s.records[i]? = some r) :
    s.edgeStart i + r.edges.length ≤ s.edgeCount := by
  rw [edgeCount, edgeTable_split hr, edgeStart]
  simp only [List.length_append]
  omega

/-! ## The balance of all records -/

/-- External count and open edges make up the references of a record, and one more if it is among
the `crossed` ones. -/
structure Accounted (crossed : List Nat) (s : Snapshot) : Prop where
  balance : ∀ i r, s.records[i]? = some r →
    r.external + s.openEdges.count i = r.intrinsic + if i ∈ crossed then 1 else 0
  alive : ∀ r ∈ s.records, r.processed = true → 0 < r.external
  processed : ∀ i ∈ crossed, ∃ r, s.records[i]? = some r ∧ r.processed = true

theorem Balanced.accounted (balanced : s.Balanced)
    (unprocessed : ∀ r ∈ s.records, r.processed = false) : s.Accounted [] where
  balance i r hr := by
    simpa using balanced.unexplained i r hr (unprocessed r (Array.mem_of_getElem? hr))
  alive := balanced.alive
  processed := by simp

/-- A record is found alive: by its external count, or through its bridge. -/
theorem Accounted.settle (accounted : s.Accounted crossed) (hr : s.records[i]? = some r)
    (open_ : r.processed = false) {external : Nat} (positive : 0 < external)
    (supported : external = r.external ∧ crossed' = crossed ∨
      external = r.external + 1 ∧ crossed' = i :: crossed) :
    (s.settle i r external).Accounted crossed' := by
  have fresh : i ∉ crossed := by
    intro mem
    obtain ⟨q, hq, processed⟩ := accounted.processed i mem
    obtain rfl := Option.some.inj (hr.symm.trans hq)
    simp [open_] at processed
  have crossed_iff : ∀ j, j ≠ i → (j ∈ crossed' ↔ j ∈ crossed) := by
    rcases supported with ⟨-, rfl⟩ | ⟨-, rfl⟩ <;> grind
  constructor
  · intro j q hq
    have closed := count_openEdges_settle hr open_ external j
    rw [getElem?_settle hr] at hq
    split at hq
    · next here =>
      subst j
      obtain rfl := Option.some.inj hq
      have balance := accounted.balance i r hr
      simp only [Record.intrinsic, fresh, if_false] at balance ⊢
      rcases supported with ⟨rfl, rfl⟩ | ⟨rfl, rfl⟩ <;> simp [fresh] <;> omega
    · next other =>
      obtain ⟨q', hq', rfl⟩ := Option.map_eq_some_iff.1 hq
      have balance := accounted.balance j q' hq'
      simp only [Record.intrinsic, crossed_iff j other] at balance ⊢
      omega
  · intro q mem processed
    obtain ⟨j, hj⟩ := Array.mem_iff_getElem?.1 mem
    rw [getElem?_settle hr] at hj
    split at hj
    · obtain rfl := Option.some.inj hj
      exact Nat.lt_of_lt_of_le positive (Nat.le_add_right ..)
    · obtain ⟨q', hq', rfl⟩ := Option.map_eq_some_iff.1 hj
      exact Nat.lt_of_lt_of_le (accounted.alive q' (Array.mem_of_getElem? hq') processed)
        (Nat.le_add_right ..)
  · intro j mem
    by_cases here : j = i
    · subst j
      exact ⟨_, by rw [getElem?_settle hr, if_pos rfl], rfl⟩
    · obtain ⟨q, hq, processed⟩ := accounted.processed j ((crossed_iff j here).1 mem)
      refine ⟨{ q with external := q.external + r.edges.count j }, ?_, processed⟩
      rw [getElem?_settle hr, if_neg here, hq, Option.map_some]

/-- Where no record is processed and the accounts hold, no record is unbalanced. -/
theorem Accounted.unbalanced?_eq_none (accounted : s.Accounted [])
    (unprocessed : ∀ r ∈ s.records, r.processed = false) : s.unbalanced? = none := by
  simp only [unbalanced?, Option.map_eq_none_iff, List.find?_eq_none, decide_eq_true_eq, ne_eq,
    not_not]
  rintro ⟨r, incoming⟩ mem
  obtain ⟨i, at_i⟩ := List.mem_iff_getElem?.1 mem
  obtain ⟨hr, counted⟩ := List.getElem?_zip_eq_some.1 at_i
  have balance := accounted.balance i r (by simpa using hr)
  obtain ⟨bound, rfl⟩ : ∃ _ : i < s.size, s.edgeTable.count i = incoming := by
    simpa [incomingCounts, List.getElem?_eq_some_iff] using counted
  rw [openEdges_of_unprocessed unprocessed] at balance
  simpa using balance.symm

end Snapshot

namespace Marking

variable {s₀ : Snapshot} {m m' : Marking} {eager : Bool} {limit : Option Nat} {progress : Progress}
  {i : Nat} {positions crossed : List Nat} {host : HostHeap}

/-! ## Trails -/

/-- Nothing counted holds position `i`, and it is not found alive yet, but its bridge leads to a
host object that is known to be alive. -/
def Crosses (m : Marking) (i : Nat) : Prop :=
  ∃ r, m.snapshot.records[i]? = some r ∧ r.processed = false ∧ r.external = 0 ∧
    m.host.reaches r.bridge = .ok true

/-- What marking may have come to that began with the snapshot `s₀`, in the middle of a scan or at
the end of one, whatever became of the host heap in between. Counters start anew with each step, and
a scan follows upon another only if that one found something. The positions that were found alive
when they crossed are listed. -/
inductive Trail (s₀ : Snapshot) : List Nat → Marking → Prop
  | start (host : HostHeap) : Trail s₀ [] { snapshot := s₀, host }
  | renew {crossed : List Nat} {m : Marking} (host : HostHeap) : Trail s₀ crossed m →
      Trail s₀ crossed { snapshot := m.snapshot, host }
  | host {crossed : List Nat} {m : Marking} (host : HostHeap) : Trail s₀ crossed m →
      Trail s₀ crossed { m with host }
  | scan {crossed : List Nat} {m : Marking} : Trail s₀ crossed m → m.scans = 0 ∨ m.found ≠ 0 →
      Trail s₀ crossed { m with scans := m.scans + 1, found := 0 }
  | visit {crossed : List Nat} {m m' : Marking} {eager : Bool} {i : Nat} : Trail s₀ crossed m →
      m.visit eager i = .ok m' → ¬m.Crosses i → Trail s₀ crossed m'
  | cross {crossed : List Nat} {m m' : Marking} {eager : Bool} {i : Nat} : Trail s₀ crossed m →
      m.visit eager i = .ok m' → m.Crosses i → Trail s₀ (i :: crossed) m'

theorem Trail.visits (trail : Trail s₀ crossed m)
    (visited : positions.foldlM (Marking.visit eager) m = .ok m') :
    ∃ more, Trail s₀ (more ++ crossed) m' := by
  refine foldlM_induction (P := fun m => ∃ more, Trail s₀ (more ++ crossed) m) visited
    ⟨[], trail⟩ ?_
  rintro i - m₁ m₂ ⟨more, trail⟩ visited
  by_cases crosses : m₁.Crosses i
  · exact ⟨i :: more, trail.cross visited crosses⟩
  · exact ⟨more, trail.visit visited crosses⟩

/-- A run of scans goes on with a trail. -/
theorem Trail.run (trail : Trail s₀ crossed m) (fresh : m.scans = 0)
    (ran : m.run eager limit = .ok (progress, m')) : ∃ more, Trail s₀ (more ++ crossed) m' := by
  have next : m.scans = 0 ∨ m.found ≠ 0 := .inl fresh
  unfold Marking.run at ran
  generalize scanBound m.snapshot limit = bound at ran
  clear fresh
  induction bound generalizing m crossed with
  | zero =>
    obtain ⟨-, rfl⟩ := Prod.mk.inj (Except.ok.inj ran)
    exact ⟨[], trail⟩
  | succ bound ih =>
    simp only [scanUpTo, bind_eq_ok] at ran
    obtain ⟨m₁, scanned, ran⟩ := ran
    obtain ⟨more, trail⟩ := (trail.scan next).visits scanned
    split at ran
    · obtain ⟨-, rfl⟩ := Prod.mk.inj (pure_eq_ok.1 ran)
      exact ⟨more, trail⟩
    · next some =>
      obtain ⟨others, trail⟩ := ih trail (.inr some) ran
      exact ⟨others ++ more, by rwa [List.append_assoc]⟩

/-! ## Every visit keeps the accounts -/

/-- A visit changes nothing, or it finds its record alive by its external count, or because it
crosses. -/
theorem settles_of_visit (visited : m.visit eager i = .ok m') :
    m' = m ∧ ¬m.Crosses i ∨ ∃ r external host, m.snapshot.records[i]? = some r ∧
      r.processed = false ∧ 0 < external ∧
      (external = r.external ∧ ¬m.Crosses i ∨ external = r.external + 1 ∧ m.Crosses i) ∧
      m' = { m with
        snapshot := m.snapshot.settle i r external
        host
        promotions := m.promotions + r.bridge.isSome.toNat
        found := m.found + 1 } := by
  unfold visit at visited
  split at visited
  · next none =>
    exact .inl ⟨(Except.ok.inj visited).symm, fun ⟨r, hr, _⟩ => by simp [none] at hr⟩
  · next r hr =>
    split at visited
    · next processed =>
      refine .inl ⟨(Except.ok.inj visited).symm, fun ⟨q, hq, unprocessed, _⟩ => ?_⟩
      obtain rfl := Option.some.inj (hr.symm.trans hq)
      simp [processed] at unprocessed
    · next unprocessed =>
      have unprocessed := Bool.eq_false_iff.2 unprocessed
      rw [bind_eq_ok] at visited
      obtain ⟨external, supported, visited⟩ := visited
      have crosses : m.Crosses i ↔ r.external = 0 ∧ m.host.reaches r.bridge = .ok true := by
        simp [Crosses, hr, unprocessed]
      split at visited
      · next zero =>
        refine .inl ⟨(pure_eq_ok.1 visited).symm, ?_⟩
        rw [crosses]
        rcases r.support_eq_ok.1 supported with ⟨positive, -⟩ | ⟨-, b, reaches, eq⟩
        · omega
        · cases b <;> simp_all
      · next some =>
        simp only [bind_eq_ok, pure_eq_ok] at visited
        obtain ⟨host, -, rfl⟩ := visited
        refine .inr ⟨r, external, host, hr, unprocessed, Nat.pos_of_ne_zero some, ?_, rfl⟩
        rw [crosses]
        rcases r.support_eq_ok.1 supported with ⟨positive, rfl⟩ | ⟨none, b, reaches, eq⟩
        · exact .inl ⟨rfl, by omega⟩
        · cases b <;> simp_all

theorem Trail.frozen (trail : Trail s₀ crossed m) : m.snapshot.frozen = s₀.frozen := by
  induction trail with
  | start | renew | host | scan => first | rfl | assumption
  | visit _ visited _ ih | cross _ visited _ ih =>
    rcases settles_of_visit visited with ⟨rfl, -⟩ | ⟨r, external, host, hr, -, -, -, rfl⟩
    · exact ih
    · exact (Snapshot.frozen_settle hr external).trans ih

theorem Trail.accounted (accounted : s₀.Accounted []) (trail : Trail s₀ crossed m) :
    m.snapshot.Accounted crossed := by
  induction trail with
  | start => exact accounted
  | renew _ _ ih | host _ _ ih | scan _ _ ih => exact ih
  | visit _ visited apart ih =>
    rcases settles_of_visit visited with
      ⟨rfl, -⟩ | ⟨r, external, host, hr, open_, positive, how, rfl⟩
    · exact ih
    · exact ih.settle hr open_ positive (by simpa [apart] using how)
  | cross _ visited crosses ih =>
    rcases settles_of_visit visited with
      ⟨-, apart⟩ | ⟨r, external, host, hr, open_, positive, how, rfl⟩
    · exact absurd crosses apart
    · exact ih.settle hr open_ positive (by simpa [crosses] using how)

/-- The counters of a marking, which every record raises once at most, and every scan but the last
one has found a record. -/
structure Tallied (m : Marking) : Prop where
  found : m.found + m.snapshot.unprocessed ≤ m.snapshot.size
  promotions : m.promotions + m.snapshot.unprocessed ≤ m.snapshot.size
  scans : m.scans + m.snapshot.unprocessed + min m.found 1 ≤ m.snapshot.size + 1

theorem Tallied.fresh (s : Snapshot) (host : HostHeap) : Tallied { snapshot := s, host } := by
  have := s.unprocessed_le_size
  constructor <;> simp <;> omega

theorem Tallied.visit (tallied : m.Tallied) (visited : m.visit eager i = .ok m') : m'.Tallied := by
  rcases settles_of_visit visited with ⟨rfl, -⟩ | ⟨r, external, host, hr, open_, -, -, rfl⟩
  · exact tallied
  · obtain ⟨found, promotions, scans⟩ := tallied
    have fewer := Snapshot.unprocessed_settle external hr open_
    have once := r.bridge.isSome.toNat_le
    constructor <;> simp only [Snapshot.size_settle] <;> omega

theorem Trail.tallied (trail : Trail s₀ crossed m) : m.Tallied := by
  induction trail with
  | start host => exact .fresh s₀ host
  | renew host => exact .fresh _ host
  | host _ _ ih => exact ⟨ih.found, ih.promotions, ih.scans⟩
  | @scan _ m _ again ih =>
    obtain ⟨found, promotions, scans⟩ := ih
    have := m.snapshot.unprocessed_le_size
    refine ⟨?_, promotions, ?_⟩ <;> simp <;> omega
  | visit _ visited _ ih | cross _ visited _ ih => exact ih.visit visited

/-! ## The accounts -/

/-- The accounts of a marking that began with the snapshot `t` and has come to `s`. An external
count makes up, with all edges to its record, the references of the record, the edges to it from
processed records, and one more if the record was found alive when it crossed. -/
structure Accounts (t : Snapshot) (crossed : List Nat) (s : Snapshot) : Prop where
  frozen : s.frozen = t.frozen
  external : ∀ i r, s.records[i]? = some r → r.external + t.edgeTable.count i =
    Refcount.stripBias r.refcount + r.bridgeRooted.toNat + s.closedEdges.count i +
      if i ∈ crossed then 1 else 0
  alive : ∀ r ∈ s.records, r.processed = true → 0 < r.external
  crossed : ∀ i ∈ crossed, ∃ r, s.records[i]? = some r ∧ r.processed = true

theorem Trail.accounts {t : Snapshot} (trail : Trail s₀ crossed m) (start : s₀.Accounted [])
    (same : s₀.frozen = t.frozen) : Accounts t crossed m.snapshot := by
  have frozen := trail.frozen.trans same
  have accounted := trail.accounted start
  refine ⟨frozen, fun i r hr => ?_, accounted.alive, accounted.processed⟩
  have balance := accounted.balance i r hr
  have counted := m.snapshot.count_openEdges_add_closedEdges i
  rw [Snapshot.edgeTable_congr frozen] at counted
  simp only [Snapshot.Record.intrinsic] at balance
  omega

/-- No number that occurs in a marking, or when its accounts are audited, exceeds a word: no count,
not even with all edges to the record on top, no position in the edge table and no counter. -/
structure InWords (t : Snapshot) (m : Marking) : Prop where
  references : ∀ r ∈ m.snapshot.records,
    Refcount.stripBias r.refcount + r.bridgeRooted.toNat < Refcount.limit
  external : ∀ i r, m.snapshot.records[i]? = some r →
    r.external + t.edgeTable.count i < Refcount.limit
  edges : ∀ i r, m.snapshot.records[i]? = some r → t.edgeStart i + r.edges.length < Refcount.limit
  scans : m.scans < Refcount.limit
  promotions : m.promotions < Refcount.limit
  found : m.found < Refcount.limit

theorem references_le {r : Snapshot.Record} (word : r.refcount < Refcount.limit) :
    Refcount.stripBias r.refcount + r.bridgeRooted.toNat ≤ 1 <<< 63 := by
  have stripped := Refcount.stripBias_lt word
  have one := r.bridgeRooted.toNat_le
  omega

theorem Accounts.inWords {t : Snapshot} (accounts : Accounts t crossed m.snapshot)
    (tallied : m.Tallied) (words : ∀ r ∈ t.records, r.refcount < Refcount.limit)
    (few : t.edgeCount < 1 <<< 62) (size : t.size ≤ 1 <<< 32) : InWords t m := by
  have wide : (1 <<< 63) + (1 <<< 62) + 1 < Refcount.limit := by decide
  have small : (1 <<< 32) + 1 < Refcount.limit := by decide
  have sizes : m.snapshot.size = t.size := by
    simpa [Snapshot.frozen, Snapshot.size] using congrArg (·.records.size) accounts.frozen
  have references : ∀ r ∈ m.snapshot.records,
      Refcount.stripBias r.refcount + r.bridgeRooted.toNat ≤ 1 <<< 63 := by
    intro r mem
    obtain ⟨i, hi⟩ := Array.mem_iff_getElem?.1 mem
    obtain ⟨q, hq, same⟩ := Snapshot.exists_of_frozen_eq accounts.frozen.symm hi
    have refcount : q.refcount = r.refcount := (congrArg Snapshot.Record.refcount same :)
    exact references_le (refcount ▸ words q (Array.mem_of_getElem? hq))
  obtain ⟨found, promotions, scans⟩ := tallied
  refine ⟨fun r mem => ?_, fun i r hr => ?_, fun i r hr => ?_, by omega, by omega, by omega⟩
  · have := references r mem
    omega
  · have formula := accounts.external i r hr
    have bound := references r (Array.mem_of_getElem? hr)
    have counted := m.snapshot.count_openEdges_add_closedEdges i
    have incoming : t.edgeTable.count i ≤ t.edgeCount := List.count_le_length
    have one : (if i ∈ crossed then 1 else 0) ≤ 1 := by split <;> omega
    rw [Snapshot.edgeTable_congr accounts.frozen] at counted
    omega
  · obtain ⟨q, hq, same⟩ := Snapshot.exists_of_frozen_eq accounts.frozen.symm hr
    have edges : q.edges = r.edges := (congrArg Snapshot.Record.edges same :)
    have ends := Snapshot.edgeStart_add_le hq
    rw [edges] at ends
    omega

/-- There are no more objects in collection than handles of 32 bits. -/
theorem size_le_of_handles {ρ : Type} [ForeignHeap ρ] {sets : TrackedSets} {foreign : ρ}
    {t : Snapshot} (taken : Snapshot.take sets foreign host = .ok t)
    (handles : ∀ o ∈ sets.members .inCollection, o.index < 1 <<< 32) : t.size ≤ 1 <<< 32 := by
  have distinct : ((sets.members .inCollection).map ObjectId.index).Nodup :=
    (sets.nodup_members _).map fun ⟨_⟩ ⟨_⟩ => congrArg ObjectId.mk
  have within : (sets.members .inCollection).map ObjectId.index ⊆ List.range (1 <<< 32) := by
    intro n listed
    obtain ⟨o, mem, rfl⟩ := List.mem_map.1 listed
    exact List.mem_range.2 (handles o mem)
  have length := (distinct.subperm within).length_le
  rwa [List.length_map, List.length_range, ← Snapshot.objects_take taken, Snapshot.length_objects]
    at length

/-- The accounts of the roots hold from their collection to the end of marking, whatever happens to
the host heap in between and however many scans a step may make; and where words have 64 bits and
handles 32, nothing overflows. -/
theorem roots_accounted {ρ : Type} [ForeignHeap ρ] {sets : TrackedSets} {foreign : ρ} {t : Snapshot}
    (taken : Snapshot.take sets foreign host = .ok t)
    (words : ∀ r ∈ t.records, r.refcount < Refcount.limit)
    (handles : ∀ o ∈ sets.members .inCollection, o.index < 1 <<< 32)
    (few : t.edgeCount < 1 <<< 62) (collected : t.collectRoots = .ok s₀) :
    s₀.unbalanced? = none ∧ (∀ r ∈ t.records, r.external < Refcount.limit) ∧
      ∀ crossed m, Trail s₀ crossed m → Accounts t crossed m.snapshot ∧ InWords t m ∧
        ∀ host eager limit progress m',
          Marking.run eager limit { snapshot := m.snapshot, host } = .ok (progress, m') →
            ∃ more, Trail s₀ (more ++ crossed) m' := by
  obtain ⟨balanced, unprocessed⟩ := Snapshot.balanced_of_take taken collected
  have start := balanced.accounted unprocessed
  have size := size_le_of_handles taken handles
  refine ⟨start.unbalanced?_eq_none unprocessed, fun r mem => ?_, fun crossed m trail => ?_⟩
  · rw [(Snapshot.describes_of_take taken mem).external]
    exact Nat.lt_of_le_of_lt (references_le (words r mem)) (by decide)
  · have accounts := trail.accounts start (Snapshot.frozen_collectRoots collected)
    exact ⟨accounts, accounts.inWords trail.tallied words few size,
      fun _ _ _ _ _ ran => (trail.renew _).run rfl ran⟩

/-- The first object holds itself and, twice, the second one; the third one holds itself and has the
largest count that a bias leaves, and its bridge is prebuilt. The bridge of the first one gets
marked only between two steps, so that it crosses and the second one does not. -/
theorem roots_accounted_crossed :
    let foreign : Arena := { cells := #[
      { refcount := Refcount.hostBias + 1, references := [⟨0⟩, ⟨1⟩, ⟨1⟩], bridge := some ⟨0⟩ },
      { refcount := 2 },
      { refcount := Refcount.lightBias - 1, references := [⟨2⟩], bridge := some ⟨1⟩ }] }
    let host : HostHeap := { objects := #[{}, { flags := { noHeapPtrs := true } }] }
    let marked : HostHeap := { objects := #[{ flags := { visited := true } },
      { flags := { noHeapPtrs := true } }] }
    let sets : TrackedSets := { entries := [⟨⟨0⟩, .inCollection, 0⟩, ⟨⟨1⟩, .inCollection, 0⟩,
      ⟨⟨2⟩, .inCollection, 0⟩], nodup := by decide }
    ∃ t s₀ m crossed m', Snapshot.take sets foreign host = .ok t ∧ t.collectRoots = .ok s₀ ∧
      (∀ r ∈ t.records, r.refcount < Refcount.limit) ∧ t.edgeCount < 1 <<< 62 ∧
      s₀.unbalanced? = none ∧
      Marking.run false (some 1) { snapshot := s₀, host } = .ok (.pending, m) ∧
      Marking.run true none { snapshot := m.snapshot, host := marked } = .ok (.fixedPoint, m') ∧
      Trail s₀ crossed m' ∧ 0 ∈ crossed ∧ 1 ∉ crossed ∧
      m'.snapshot.records.map (·.external) = #[2, 2, 1 <<< 63] := by
  intro foreign host marked sets
  let t := (Snapshot.take sets foreign host).toOption.getD {}
  let s₀ := t.collectRoots.toOption.getD {}
  let m := (((Marking.run false (some 1) { snapshot := s₀, host }).toOption.map Prod.snd).getD
    { snapshot := s₀, host })
  let m' := (((Marking.run true none { snapshot := m.snapshot, host := marked }).toOption.map
    Prod.snd).getD m)
  have taken : Snapshot.take sets foreign host = .ok t := by decide +kernel
  have collected : t.collectRoots = .ok s₀ := by decide +kernel
  have first : Marking.run false (some 1) { snapshot := s₀, host } = .ok (.pending, m) := by
    decide +kernel
  have second : Marking.run true none { snapshot := m.snapshot, host := marked } =
      .ok (.fixedPoint, m') := by decide +kernel
  have words : ∀ r ∈ t.records, r.refcount < Refcount.limit := by decide +kernel
  have few : t.edgeCount < 1 <<< 62 := by decide +kernel
  have handles : ∀ o ∈ sets.members .inCollection, o.index < 1 <<< 32 := by decide +kernel
  have closed : m'.snapshot.closedEdges = [0, 1, 1, 2] := by decide +kernel
  have table : t.edgeTable = [0, 1, 1, 2] := by decide +kernel
  have zeroth : m'.snapshot.records[0]?.map (fun r => (r.external, r.intrinsic)) = some (2, 1) := by
    decide +kernel
  have next : m'.snapshot.records[1]?.map (fun r => (r.external, r.intrinsic)) = some (2, 2) := by
    decide +kernel
  have counts : m'.snapshot.records.map (·.external) = #[2, 2, 1 <<< 63] := by decide +kernel
  clear_value m' m s₀ t
  obtain ⟨balanced, -, holds⟩ := roots_accounted taken words handles few collected
  obtain ⟨-, -, go⟩ := holds [] _ (.start host)
  obtain ⟨more, trail⟩ := go _ _ _ _ _ first
  obtain ⟨-, -, go⟩ := holds _ _ trail
  obtain ⟨others, trail⟩ := go _ _ _ _ _ second
  obtain ⟨accounts, -⟩ := holds _ _ trail
  obtain ⟨r, hr, eq⟩ := Option.map_eq_some_iff.1 zeroth
  obtain ⟨q, hq, eq'⟩ := Option.map_eq_some_iff.1 next
  have formula := accounts.external 0 r hr
  have formula' := accounts.external 1 q hq
  refine ⟨t, s₀, m, _, m', taken, collected, words, few, balanced, first, second, trail, ?_, ?_,
    counts⟩
  · by_contra apart
    rw [if_neg apart, table, closed] at formula
    simp [Snapshot.Record.intrinsic] at formula eq
    omega
  · intro mem
    rw [if_pos mem, table, closed] at formula'
    simp [Snapshot.Record.intrinsic] at formula' eq'
    omega

end Marking

end CycleCollector
