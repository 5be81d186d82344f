import CycleCollector.Proofs.Findings
import CycleCollector.Proofs.ReleaseOrder
import Mathlib.Logic.Relation
/-!
# Worlds without their containers

Containers leave one after the other before a pass, and whether one may leave depends on those that
left before it. Seen from the end this is simple. Whatever has left refers to nothing that is still
tracked but to what left earlier, so no path of references between tracked objects comes back to it.
And as it has no counterpart, nothing that stays is told apart by it: the objects that stay are
alive, covered by their counts and kept for legacy finalizers as if all were still there.

## Main definitions

* `World.Refers`: a tracked object refers to another one.
* `World.Without`: a world without some of its new objects.

## Main statements

* `World.Departs.not_on_cycle`: no member of a cycle of tracked objects leaves.
* `World.Departs.without`: what is left when containers have left.
* `World.Without.alive_iff`, `World.Without.covered`, `World.Without.doomed_iff`,
  `World.Without.finalizable_iff`: what stays is as it was.
-/

namespace CycleCollector

theorem Arena.storedIn_filter {a : Arena} {os : List ObjectId} {o : ObjectId} {f : ObjectId → Bool}
    (apart : ∀ p ∈ os, f p = false → o ∉ a.referencesOf p) :
    a.storedIn (os.filter f) o = a.storedIn os o := by
  induction os with
  | nil => rfl
  | cons p os ih =>
    rw [List.forall_mem_cons] at apart
    have others := ih apart.2
    simp only [storedIn, List.map_cons, List.sum_cons] at others ⊢
    cases stays : f p with
    | true => simpa [stays] using others
    | false => simpa [stays, List.count_eq_zero_of_not_mem (apart.1 stays)] using others

namespace World

variable {w v : World Arena} {gone dead dead' : List ObjectId} {o p : ObjectId} {h : HostRef}
  {x : Node}

def Refers (w : World Arena) (o p : ObjectId) : Prop :=
  w.collector.sets.contains o = true ∧ w.collector.sets.contains p = true ∧
    p ∈ w.foreign.referencesOf o

/-- `v` is `w` without some new objects, which have no counterparts and refer to nothing that
stays. -/
structure Without (w : World Arena) (gone : List ObjectId) (v : World Arena) : Prop where
  host : v.host = w.host
  cells : v.foreign.cells = w.foreign.cells
  members : ∀ r, v.collector.sets.members r = (w.collector.sets.members r).filter (· ∉ gone)
  fresh : ∀ o ∈ gone, o ∈ w.collector.sets.members .new
  unbridged : ∀ o ∈ gone, w.foreign.bridge o = .ok none
  closed : ∀ o ∈ gone, ∀ p, w.Refers o p → p ∈ gone

theorem mem_candidates_of_new (mem : o ∈ w.collector.sets.members .new) : o ∈ w.candidates := by
  simp [candidates, TrackedSets.members_merged, mem]

/-! ## How containers leave -/

namespace Departs

variable (departs : Departs w gone v)

include departs

theorem cells : v.foreign.cells = w.foreign.cells := by
  induction departs with
  | stay => rfl
  | leave _ _ _ _ _ _ ih => exact ih

theorem members (r : Role) :
    v.collector.sets.members r = (w.collector.sets.members r).filter (· ∉ gone) := by
  induction departs with
  | stay => simp
  | @leave gone _ v o _ _ _ _ _ _ ih =>
    rw [TrackedSets.members_erase, ih, List.filter_filter]
    exact List.filter_congr fun p _ => by simp

theorem contains_iff : v.collector.sets.contains o = true ↔
    w.collector.sets.contains o = true ∧ o ∉ gone := by
  simp only [TrackedSets.contains_iff_exists_mem, departs.members]
  simp

theorem fresh : ∀ o ∈ gone, o ∈ w.collector.sets.members .new := by
  induction departs with
  | stay => simp
  | leave _ new _ _ _ _ ih => exact List.forall_mem_cons.2 ⟨new, ih⟩

/-- A path of references from what has left stays with what has left, and does not come back. -/
theorem mem_of_path : ∀ o ∈ gone, ∀ p, Relation.TransGen w.Refers o p → p ∈ gone ∧ p ≠ o := by
  induction departs with
  | stay => simp
  | @leave gone os v o departs _ tracked _ refs apart ih =>
    have cells := departs.cells
    have stays := (departs.contains_iff.1 tracked).2
    -- whatever it refers to has left before
    have earlier : ∀ q, w.Refers o q → q ∈ gone := by
      rintro q ⟨-, tracked, refers⟩
      obtain ⟨c, hc, refers⟩ := Arena.mem_referencesOf.1 refers
      obtain ⟨d, hd, rfl⟩ := map_eq_ok.1 refs
      obtain rfl := Except.ok.inj (hc.symm.trans ((Arena.cell_congr cells o).symm.trans hd))
      by_contra later
      have untracked := apart q refers
      simp [departs.contains_iff.2 ⟨tracked, later⟩] at untracked
    intro q mem p path
    rcases List.mem_cons.1 mem with rfl | mem
    · have left : p ∈ gone := by
        rcases Relation.TransGen.head'_iff.1 path with ⟨k, step, rest⟩
        rcases Relation.reflTransGen_iff_eq_or_transGen.1 rest with rfl | rest
        · exact earlier p step
        · exact (ih k (earlier k step) p rest).1
      exact ⟨List.mem_cons_of_mem _ left, fun same => stays (same ▸ left)⟩
    · exact (ih q mem p path).imp_left (List.mem_cons_of_mem _)

/-- No member of a cycle of tracked objects leaves. -/
theorem not_on_cycle (cycle : Relation.TransGen w.Refers o o) : o ∉ gone :=
  fun mem => (departs.mem_of_path o mem o cycle).2 rfl

/-- What is left when containers have left. -/
theorem without : Without w gone v where
  host := by
    induction departs with
    | stay => rfl
    | leave _ _ _ _ _ _ ih => exact ih
  cells := departs.cells
  members := departs.members
  fresh := departs.fresh
  unbridged := by
    induction departs with
    | stay => simp
    | leave _ _ _ unbridged _ _ ih => exact List.forall_mem_cons.2 ⟨unbridged, ih⟩
  closed o mem p refers := (departs.mem_of_path o mem p (.single refers)).1

end Departs

/-! ## What stays -/

namespace Without

variable (without : Without w gone v)

include without

theorem candidates_eq : v.candidates = w.candidates.filter (· ∉ gone) := by
  simp [candidates, TrackedSets.members_merged, without.members]

theorem mem_candidates : o ∈ v.candidates ↔ o ∈ w.candidates ∧ o ∉ gone := by
  simp [without.candidates_eq]

theorem mem_gone (candidate : o ∈ w.candidates) (mem : p ∈ gone)
    (refers : o ∈ w.foreign.referencesOf p) : o ∈ gone :=
  without.closed p mem o ⟨TrackedSets.contains_of_mem_members (without.fresh p mem),
    by simpa using TrackedSets.contains_of_mem_members candidate, refers⟩

/-- What has left stored no references to what stays. -/
theorem storedIn_eq (mem : o ∈ v.candidates) :
    v.foreign.storedIn v.candidates o = w.foreign.storedIn w.candidates o := by
  obtain ⟨candidate, stays⟩ := without.mem_candidates.1 mem
  rw [Arena.storedIn_congr without.cells, without.candidates_eq]
  refine Arena.storedIn_filter fun p _ left refers => stays ?_
  exact without.mem_gone candidate (by simpa using left) refers

theorem alive_of_alive (alive : v.Alive x) : w.Alive x := by
  have bridge := fun o => Arena.bridge_congr without.cells o
  induction alive with
  | held mem count left =>
    refine .held (without.mem_candidates.1 mem).1 (Arena.refcount_congr without.cells _ ▸ count) ?_
    rwa [← without.storedIn_eq mem]
  | known mem bridged known =>
    exact .known (without.mem_candidates.1 mem).1 (bridge _ ▸ bridged) (without.host ▸ known)
  | reference _ refers mem ih =>
    exact ih.reference (Arena.referencesOf_congr without.cells _ ▸ refers)
      (without.mem_candidates.1 mem).1
  | across _ bridged ih => exact ih.across (bridge _ ▸ bridged)
  | back _ mem bridged ih => exact ih.back (without.mem_candidates.1 mem).1 (bridge _ ▸ bridged)
  | listed mem => exact .listed (without.host ▸ mem)
  | edge _ unmarked edge ih => exact ih.edge (without.host ▸ unmarked) (without.host ▸ edge)

/-- What is alive and stays is still alive, since nothing that leaves passes liveness on to it. -/
theorem alive_of_stays (alive : w.Alive x) : match x with
    | .foreign o => o ∉ gone → v.Alive (.foreign o)
    | .host h => v.Alive (.host h) := by
  have bridge := fun o => Arena.bridge_congr without.cells o
  induction alive with
  | held mem count left =>
    intro stays
    have candidate := without.mem_candidates.2 ⟨mem, stays⟩
    refine .held candidate ((Arena.refcount_congr without.cells _).trans count) ?_
    rwa [without.storedIn_eq candidate]
  | known mem bridged known =>
    intro stays
    exact .known (without.mem_candidates.2 ⟨mem, stays⟩) ((bridge _).trans bridged)
      (without.host ▸ known)
  | reference _ refers mem ih =>
    intro stays
    refine (ih fun left => stays (without.mem_gone mem left refers)).reference ?_
      (without.mem_candidates.2 ⟨mem, stays⟩)
    rwa [Arena.referencesOf_congr without.cells]
  | across _ bridged ih =>
    refine (ih fun left => ?_).across ((bridge _).trans bridged)
    simp [without.unbridged _ left] at bridged
  | back _ mem bridged ih =>
    intro stays
    exact ih.back (without.mem_candidates.2 ⟨mem, stays⟩) ((bridge _).trans bridged)
  | listed mem => exact .listed (without.host ▸ mem)
  | edge _ unmarked edge ih => exact ih.edge (without.host ▸ unmarked) (without.host ▸ edge)

theorem alive_iff : v.Alive (.foreign o) ↔ w.Alive (.foreign o) ∧ o ∉ gone :=
  ⟨fun alive => ⟨without.alive_of_alive alive, (without.mem_candidates.1 alive.mem_candidates).2⟩,
    fun ⟨alive, stays⟩ => without.alive_of_stays alive stays⟩

theorem alive_host_iff : v.Alive (.host h) ↔ w.Alive (.host h) :=
  ⟨without.alive_of_alive, fun alive => without.alive_of_stays alive⟩

theorem covered (covered : w.Covered) : v.Covered := by
  intro o mem n bridge b count bridged reached
  rw [Arena.refcount_congr without.cells] at count
  rw [Arena.bridge_congr without.cells] at bridged
  rw [without.host] at reached
  rw [without.storedIn_eq mem]
  exact covered o (without.mem_candidates.1 mem).1 n bridge b count bridged reached

section Dead

open ForeignHeap

variable (dead_iff : ∀ o, o ∈ dead ↔ o ∈ w.candidates ∧ ¬w.Alive (.foreign o))
  (dead_iff' : ∀ o, o ∈ dead' ↔ o ∈ v.candidates ∧ ¬v.Alive (.foreign o))

include dead_iff dead_iff'

theorem mem_dead : o ∈ dead' ↔ o ∈ dead ∧ o ∉ gone := by
  rw [dead_iff, dead_iff', without.mem_candidates, without.alive_iff]
  grind

/-- What stays is kept for a legacy finalizer of something that stays. -/
theorem retained_iff : Retained v.foreign dead' o ↔ Retained w.foreign dead o ∧ o ∉ gone := by
  have mem := fun {o} => without.mem_dead dead_iff dead_iff' (o := o)
  constructor
  · intro retained
    refine ⟨?_, (mem.1 retained.mem).2⟩
    induction retained with
    | legacy here own =>
      exact .legacy (mem.1 here).1 ((Arena.finalizer_congr without.cells _).symm.trans own)
    | reference _ refs refers here ih =>
      exact .reference ih ((Arena.references_congr without.cells _).symm.trans refs) refers
        (mem.1 here).1
  · rintro ⟨retained, stays⟩
    induction retained with
    | legacy here own =>
      exact .legacy (mem.2 ⟨here, stays⟩) ((Arena.finalizer_congr without.cells _).trans own)
    | reference _ refs refers here ih =>
      have candidate := ((dead_iff _).1 here).1
      refine .reference (ih fun left => stays ?_)
        ((Arena.references_congr without.cells _).trans refs) refers (mem.2 ⟨here, stays⟩)
      obtain ⟨c, hc, rfl⟩ := map_eq_ok.1 refs
      exact without.mem_gone candidate left (Arena.mem_referencesOf.2 ⟨c, hc, refers⟩)

theorem doomed_iff : Doomed v.foreign dead' o ↔ Doomed w.foreign dead o ∧ o ∉ gone := by
  rw [Doomed, Doomed, without.mem_dead dead_iff dead_iff', without.retained_iff dead_iff dead_iff']
  grind

/-- Objects that have no modern finalizer do not make the others wait. -/
theorem finalizable_iff (plain : ∀ o ∈ gone, w.foreign.finalizer o ≠ .ok .modern) :
    Finalizable v.foreign dead' ↔ Finalizable w.foreign dead := by
  simp only [Finalizable, without.doomed_iff dead_iff dead_iff', Arena.foreign_finalizer,
    Arena.finalizer_congr without.cells]
  exact exists_congr fun o => and_congr_left fun own =>
    and_iff_left fun mem => plain o mem own

end Dead

end Without

end World

end CycleCollector
