import CycleCollector.Proofs.BorderReach
import CycleCollector.Proofs.CombinedGraph
/-!
# What a pass finds

Marking visits records in some order, as often as its options allow, and the host heap traces at
once or later. What it finds in the end is told without any of that. A candidate is alive when it
counts more references than the candidates store, when its counterpart is known to be alive, or when
something alive refers to it or reaches its counterpart. Nothing is asked of the counts here, and
the host heap may have marked objects whose edges it never traced: these are not followed.

## Main definitions

* `World.Alive`, `World.AliveAt`: what is found, and the numbers of its records.
* `World.Covered`: the counts cover what is stored, so that a pass can start.
* `World.Shows`: a snapshot of the candidates with its roots collected.

## Main statements

* `World.Surveys.alive_iff`, `World.Surveys.marked_iff_alive`: an undisturbed pass finds what is
  alive, and the host heap has marked it then.
* `World.exists_collect_of_surveys`, `World.exists_collect_iff`: an undisturbed pass comes to its
  end if the counts cover what is stored.
-/

namespace CycleCollector.World

/-- What a pass finds alive in both heaps. The candidates are the objects that it will have in
collection. -/
inductive Alive (w : World Arena) : Node → Prop
  | held {o : ObjectId} {n : Nat} : o ∈ w.candidates → w.foreign.refcount o = .ok n →
      w.foreign.storedIn w.candidates o < Refcount.stripBias n → Alive w (.foreign o)
  | known {o : ObjectId} {h : HostRef} : o ∈ w.candidates → w.foreign.bridge o = .ok (some h) →
      HostHeap.Marked w.host.objects h ∨ HostHeap.Prebuilt w.host.objects h → Alive w (.foreign o)
  | reference {o p : ObjectId} : Alive w (.foreign o) → p ∈ w.foreign.referencesOf o →
      p ∈ w.candidates → Alive w (.foreign p)
  | across {o : ObjectId} {h : HostRef} : Alive w (.foreign o) →
      w.foreign.bridge o = .ok (some h) → Alive w (.host h)
  | back {o : ObjectId} {h : HostRef} : Alive w (.host h) → o ∈ w.candidates →
      w.foreign.bridge o = .ok (some h) → Alive w (.foreign o)
  | listed {h : HostRef} : h ∈ w.host.worklist → Alive w (.host h)
  | edge {h k : HostRef} : Alive w (.host h) → ¬HostHeap.Marked w.host.objects h →
      HostHeap.Points w.host.objects h k → Alive w (.host k)

/-- No candidate has more references stored in candidates than it counts, one more being allowed for
a counterpart that is known to be alive. -/
def Covered (w : World Arena) : Prop :=
  ∀ o ∈ w.candidates, ∀ n bridge b, w.foreign.refcount o = .ok n →
    w.foreign.bridge o = .ok bridge → w.host.reaches bridge = .ok b →
    w.foreign.storedIn w.candidates o ≤ Refcount.stripBias n + b.toNat

/-- A snapshot has a record of every candidate, edges where there are references, and as roots the
candidates that have references left over. -/
structure Shows (w : World Arena) (s : Snapshot) : Prop where
  objects : s.objects = w.candidates
  bridge : ∀ r ∈ s.records, w.foreign.bridge r.object = .ok r.bridge
  edges : ∀ r ∈ s.records, ∀ (j : Nat) q, s.records[j]? = some q →
    (j ∈ r.edges ↔ q.object ∈ w.foreign.referencesOf r.object)
  roots : ∀ r ∈ s.records, ∃ n b, w.foreign.refcount r.object = .ok n ∧
    w.host.reaches r.bridge = .ok b ∧
    (0 < r.external ↔ w.foreign.storedIn w.candidates r.object < Refcount.stripBias n + b.toNat)

variable {w v w₁ w' : World Arena} {taken s₀ s : Snapshot} {r : Snapshot.Record} {o : ObjectId}
  {h : HostRef} {x : Node}

def AliveAt (w : World Arena) (s : Snapshot) (i : Nat) : Prop :=
  ∃ r, s.records[i]? = some r ∧ w.Alive (.foreign r.object)

theorem Alive.mem_candidates (alive : w.Alive (.foreign o)) : o ∈ w.candidates := by
  generalize node : Node.foreign o = x at alive
  cases alive with
  | held mem => exact Node.foreign.inj node ▸ mem
  | known mem => exact Node.foreign.inj node ▸ mem
  | reference _ _ mem => exact Node.foreign.inj node ▸ mem
  | back _ mem => exact Node.foreign.inj node ▸ mem
  | across => cases node
  | listed => cases node
  | edge => cases node

/-- Right counts cover what is stored. -/
theorem covered_of_accurate {l : Ledger} (accurate : w.foreign.Accurate l)
    (small : w.foreign.Small l) : w.Covered := by
  intro o _ n _ b count _ _
  have stored := Arena.storedIn_le (a := w.foreign) (nodup_candidates w) o
  rw [accurate.stripBias_eq small count]
  omega

/-! ## The start -/

/-- Roots are collected if and only if the counts cover what is stored. -/
theorem exists_roots_iff
    (htaken : Snapshot.take (w.collector.sets.merged .new .inCollection) w.foreign w.host =
      .ok taken) :
    (∃ s₀, taken.collectRoots = .ok s₀) ↔ w.Covered := by
  constructor
  · rintro ⟨s₀, roots⟩ o mem n bridge b count bridged reached
    obtain ⟨j, at_j⟩ := List.mem_iff_getElem?.1 mem
    rw [candidates, ← Snapshot.objects_take htaken, Snapshot.getElem?_objects] at at_j
    obtain ⟨r, hr, rfl⟩ := Option.map_eq_some_iff.1 at_j
    have describes := Snapshot.describes_of_take htaken (Array.mem_of_getElem? hr)
    obtain rfl := Except.ok.inj (describes.refcount.symm.trans count)
    obtain rfl := Except.ok.inj (describes.bridge.symm.trans bridged)
    obtain rfl := Except.ok.inj (describes.rooted.symm.trans reached)
    have enough := (Snapshot.collectRoots_eq_ok.1 roots).1 j r hr
    rwa [count_edgeTable_of_take htaken hr, describes.external] at enough
  · intro covered
    refine Snapshot.exists_collectRoots fun j r hr => ?_
    have describes := Snapshot.describes_of_take htaken (Array.mem_of_getElem? hr)
    rw [count_edgeTable_of_take htaken hr, describes.external]
    exact covered r.object (List.mem_of_getElem? (getElem?_of_take htaken hr)) _ _ _
      describes.refcount describes.bridge describes.rooted

theorem shows_of_collectRoots
    (htaken : Snapshot.take (w.collector.sets.merged .new .inCollection) w.foreign w.host =
      .ok taken)
    (roots : taken.collectRoots = .ok s₀) : w.Shows s₀ := by
  constructor
  case objects =>
    rw [Snapshot.objects_congr (Snapshot.frozen_collectRoots roots), Snapshot.objects_take htaken]
    rfl
  case bridge =>
    intro r mem
    obtain ⟨i, hi⟩ := Array.mem_iff_getElem?.1 mem
    obtain ⟨q, hq, rfl⟩ := Snapshot.exists_record_of_collectRoots roots hi
    exact (Snapshot.describes_of_take htaken (Array.mem_of_getElem? hq)).bridge
  case edges =>
    intro r mem j p hp
    obtain ⟨i, hi⟩ := Array.mem_iff_getElem?.1 mem
    obtain ⟨q, hq, rfl⟩ := Snapshot.exists_record_of_collectRoots roots hi
    obtain ⟨p, recorded, rfl⟩ := Snapshot.exists_record_of_collectRoots roots hp
    have same := mem_edges_of_take htaken hq recorded
    exact same
  case roots =>
    intro r mem
    obtain ⟨i, hi⟩ := Array.mem_iff_getElem?.1 mem
    obtain ⟨q, hq, rfl⟩ := Snapshot.exists_record_of_collectRoots roots hi
    have describes := Snapshot.describes_of_take htaken (Array.mem_of_getElem? hq)
    refine ⟨q.refcount, q.bridgeRooted, describes.refcount, describes.rooted, ?_⟩
    dsimp only
    rw [count_edgeTable_of_take htaken hq, describes.external, Nat.sub_pos_iff_lt]
    rfl

/-! ## From above -/

theorem Shows.mem_candidates (shows : w.Shows s₀) (mem : r ∈ s₀.records) :
    r.object ∈ w.candidates :=
  shows.objects ▸ List.mem_map_of_mem (Array.mem_toList_iff.2 mem)

/-- What is alive is closed under everything that passes liveness on. -/
theorem Shows.closed (shows : w.Shows s₀) (wellformed : s₀.Wellformed) :
    Marking.Closed (w.AliveAt s₀) (fun h => w.Alive (.host h)) s₀ w.host where
  edge i j r := by
    rintro ⟨_, hr, alive⟩ hr' edge
    obtain rfl := Option.some.inj (hr'.symm.trans hr)
    have mem := Array.mem_of_getElem? hr
    have hq := Array.getElem?_eq_getElem (wellformed.bounded r mem j edge)
    refine ⟨_, hq, alive.reference ((shows.edges r mem j _ hq).1 edge) ?_⟩
    exact shows.mem_candidates (Array.mem_of_getElem? hq)
  handed i r h := by
    rintro ⟨_, hr, alive⟩ hr' bridged
    obtain rfl := Option.some.inj (hr'.symm.trans hr)
    exact alive.across (bridged ▸ shows.bridge r (Array.mem_of_getElem? hr))
  points h k alive unmarked edge := alive.edge unmarked edge
  bridged i r h hr bridged := by
    have mem := Array.mem_of_getElem? hr
    have answer := bridged ▸ shows.bridge r mem
    rintro (marked | prebuilt | alive)
    · exact ⟨r, hr, .known (shows.mem_candidates mem) answer (.inl marked)⟩
    · exact ⟨r, hr, .known (shows.mem_candidates mem) answer (.inr prebuilt)⟩
    · exact ⟨r, hr, .back alive (shows.mem_candidates mem) answer⟩

/-- Marking starts with what is alive. -/
theorem Shows.within (shows : w.Shows s₀) :
    Marking.Within (w.AliveAt s₀) (fun h => w.Alive (.host h)) w.host s₀ w.host where
  alive i r hr positive := by
    have mem := Array.mem_of_getElem? hr
    obtain ⟨n, b, count, reached, left⟩ := shows.roots r mem
    refine ⟨r, hr, ?_⟩
    cases b with
    | false => exact .held (shows.mem_candidates mem) count (by simpa using left.1 positive)
    | true =>
      obtain ⟨h, bridged, known⟩ := HostHeap.reaches_eq_ok_true.1 reached
      exact .known (shows.mem_candidates mem) (bridged ▸ shows.bridge r mem) known
  confined := ⟨fun _ => .listed, fun _ => .inl⟩

/-! ## The end of marking -/

section Surveys

-- what is alive is told of `v`, the world that has let go of its containers
variable (surveys : Surveys w v s₀ s w₁)

include surveys

theorem Surveys.members_inCollection :
    w₁.collector.sets.members .inCollection = v.candidates := by
  rw [surveys.sets]
  rfl

theorem Surveys.shows : v.Shows s₀ := by
  obtain ⟨taken, htaken, roots⟩ := surveys.taken
  exact shows_of_collectRoots htaken roots

theorem Surveys.spreads_prepared : Marking.Spreads s₀ v.host s w₁.host := by
  rw [(prepares_of_prepareSets surveys.prepared).host]
  exact surveys.spreads

theorem Surveys.bridge_eq_prepared (mem : r ∈ s.records)
    (bridged : v.foreign.bridge r.object = .ok (some h)) : r.bridge = some h := by
  refine surveys.bridge_eq mem ?_
  rw [← Arena.bridge_congr surveys.cells, surveys.foreign]
  exact bridged

/-- A candidate has a record, which has a forerunner in the snapshot with its roots collected. -/
theorem Surveys.exists_record_of_candidate (mem : o ∈ v.candidates) :
    ∃ (i : Nat) (r₀ r : Snapshot.Record), s₀.records[i]? = some r₀ ∧ s.records[i]? = some r ∧
      r₀.object = o ∧ r.object = o ∧ r₀.bridge = r.bridge ∧ r₀.edges = r.edges := by
  rw [← surveys.shows.objects, ← Snapshot.objects_congr surveys.spreads.course.frozen] at mem
  obtain ⟨r, recorded, rfl⟩ := List.mem_map.1 mem
  obtain ⟨i, hr⟩ := Array.mem_iff_getElem?.1 (Array.mem_toList_iff.1 recorded)
  obtain ⟨r₀, hr₀, same⟩ := Snapshot.exists_of_frozen_eq surveys.spreads.course.frozen.symm hr
  exact ⟨i, r₀, r, hr₀, hr, (congrArg Snapshot.Record.object same :), rfl,
    (congrArg Snapshot.Record.bridge same :), (congrArg Snapshot.Record.edges same :)⟩

theorem Surveys.eq_of_object_eq {q : Snapshot.Record} (here : r ∈ s.records) (there : q ∈ s.records)
    (same : q.object = r.object) : q = r := by
  have nodup := (surveys.orderly.records s surveys.snapshot).wellformed.nodup
  have found := (Snapshot.recordOf_eq_some nodup).2 ⟨there, same⟩
  rw [(Snapshot.recordOf_eq_some nodup).2 ⟨here, rfl⟩] at found
  exact (Option.some.inj found).symm

/-- A candidate counts as alive when marking has ended if its counterpart is known to be alive. -/
theorem Surveys.positive_of_known (mem : r ∈ s.records)
    (bridged : v.foreign.bridge r.object = .ok (some h))
    (known : HostHeap.Marked w₁.host.objects h ∨ HostHeap.Prebuilt w₁.host.objects h) :
    0 < r.external := by
  have records := surveys.orderly.records s surveys.snapshot
  refine records.balanced.alive r mem ((surveys.quiet r mem).resolve_right fun ⟨_, unreached⟩ => ?_)
  rw [surveys.bridge_eq_prepared mem bridged] at unreached
  simp [HostHeap.reaches, HostHeap.isReachable_eq_ok_true.2 known] at unreached

/-- Marking finds everything that is alive. -/
theorem Surveys.found_of_alive (alive : v.Alive x) : match x with
    | .foreign o => ∀ r ∈ s.records, r.object = o → 0 < r.external
    | .host h => HostHeap.Marked w₁.host.objects h := by
  have onward := surveys.spreads_prepared.course.onward
  induction alive with
  | held candidate count left =>
    rintro q mem rfl
    obtain ⟨i, r₀, r, hr₀, hr, object, same, bridge, -⟩ :=
      surveys.exists_record_of_candidate candidate
    obtain rfl := surveys.eq_of_object_eq mem (Array.mem_of_getElem? hr) same
    obtain ⟨m, b, count', -, positive⟩ := surveys.shows.roots r₀ (Array.mem_of_getElem? hr₀)
    rw [object] at count' positive
    obtain rfl := Except.ok.inj (count.symm.trans count')
    exact surveys.spreads.course.held i r₀ r hr₀ hr
      (positive.2 (Nat.lt_of_lt_of_le left (Nat.le_add_right ..)))
  | known candidate bridged known =>
    rintro r mem rfl
    refine surveys.positive_of_known mem bridged ?_
    exact known.imp (onward.marked _) (HostHeap.prebuilt_congr onward.same).2
  | @reference o p alive refers candidate ih =>
    rintro q mem rfl
    obtain ⟨j, hq⟩ := Array.mem_iff_getElem?.1 mem
    obtain ⟨q₀, hq₀, frozen⟩ := Snapshot.exists_of_frozen_eq surveys.spreads.course.frozen.symm hq
    have target : q₀.object = q.object := (congrArg Snapshot.Record.object frozen :)
    obtain ⟨i, r₀, r, hr₀, hr, object, same, -, edges⟩ :=
      surveys.exists_record_of_candidate alive.mem_candidates
    have edge : j ∈ r.edges := by
      rw [← edges, surveys.shows.edges r₀ (Array.mem_of_getElem? hr₀) j q₀ hq₀, target, object]
      exact refers
    have mem := Array.mem_of_getElem? hr
    have processed := (surveys.quiet r mem).resolve_right fun ⟨dead, _⟩ =>
      Nat.ne_of_gt (ih r mem same) dead
    exact surveys.spreads.course.passed i j r q hr processed edge hq
  | @across o h alive bridged ih =>
    obtain ⟨i, -, r, -, hr, -, rfl, -⟩ := surveys.exists_record_of_candidate alive.mem_candidates
    have mem := Array.mem_of_getElem? hr
    exact surveys.marked_of_alive mem (ih r mem rfl) (surveys.bridge_eq_prepared mem bridged)
  | back _ _ bridged ih =>
    rintro r mem rfl
    exact surveys.positive_of_known mem bridged (.inl ih)
  | listed mem =>
    exact (onward.listed _ mem).resolve_right (by simp [surveys.drained])
  | edge _ unmarked edge ih =>
    rcases onward.traced _ _ ih edge with old | new | listed
    · exact absurd old unmarked
    · exact new
    · simp [surveys.drained] at listed

theorem Surveys.within :
    Marking.Within (v.AliveAt s₀) (fun h => v.Alive (.host h)) v.host s w₁.host := by
  have wellformed := ((surveys.orderly.records s surveys.snapshot).wellformed).congr
    surveys.spreads.course.frozen.symm
  exact surveys.spreads_prepared.within _ _ (surveys.shows.closed wellformed) surveys.shows.within

theorem Surveys.alive_iff (mem : r ∈ s.records) :
    0 < r.external ↔ v.Alive (.foreign r.object) := by
  refine ⟨fun positive => ?_, fun alive => surveys.found_of_alive alive r mem rfl⟩
  obtain ⟨i, hr⟩ := Array.mem_iff_getElem?.1 mem
  obtain ⟨r₀, hr₀, alive⟩ := surveys.within.alive i r hr positive
  obtain ⟨q, hq, same⟩ := Snapshot.exists_of_frozen_eq surveys.spreads.course.frozen.symm hr
  obtain rfl := Option.some.inj (hr₀.symm.trans hq)
  have object : r₀.object = r.object := (congrArg Snapshot.Record.object same :)
  rwa [object] at alive

/-- When marking has ended, the host heap has marked what is alive, and what it had marked
before. -/
theorem Surveys.marked_iff_alive (h : HostRef) : HostHeap.Marked w₁.host.objects h ↔
    HostHeap.Marked v.host.objects h ∨ v.Alive (.host h) := by
  refine ⟨surveys.within.confined.marked h, ?_⟩
  rintro (old | alive)
  · exact surveys.spreads_prepared.course.onward.marked h old
  · exact surveys.found_of_alive alive

theorem Surveys.findsDead_iff (mem : o ∈ v.candidates) :
    s.findsDead o = true ↔ ¬v.Alive (.foreign o) := by
  have nodup := (surveys.orderly.records s surveys.snapshot).wellformed.nodup
  obtain ⟨i, -, r, -, hr, -, rfl, -⟩ := surveys.exists_record_of_candidate mem
  have recorded := Array.mem_of_getElem? hr
  rw [← surveys.alive_iff recorded, Snapshot.findsDead_iff,
    (Snapshot.recordOf_eq_some nodup).2 ⟨recorded, rfl⟩]
  simp

end Surveys

/-! ## When there is a pass -/

/-- The counterparts on record were looked up when the snapshot was taken. -/
theorem Shows.anchored (shows : w.Shows s₀) : s₀.Anchored w.host := by
  intro r mem h bridged
  obtain ⟨_, _, -, reached, -⟩ := shows.roots r mem
  rw [Option.mem_def.1 bridged] at reached
  exact HostHeap.lt_size_of_reaches reached

section Valid

-- marking never leaves what is alive, so this is all that it asks of the handles in the host heap
variable {g : HostHeap} (shows : w.Shows s₀) (wellformed : s₀.Wellformed)
  (valid : ∀ h, w.Alive (.host h) → h.index < w.host.objects.size)

include shows wellformed valid

theorem Shows.exists_drain (spreads : Marking.Spreads s₀ w.host s g) :
    ∃ g', g.drain = .ok g' := by
  have closed := shows.closed wellformed
  exact (spreads.within _ _ closed shows.within).confined.exists_drain spreads.course.onward
    closed.points valid

theorem Shows.exists_visit {m : Marking} (spreads : Marking.Spreads s₀ w.host m.snapshot m.host)
    (eager : Bool) (i : Nat) : ∃ m', m.visit eager i = .ok m' := by
  have course := spreads.course
  have closed := shows.closed wellformed
  have within := spreads.within _ _ closed shows.within
  refine Marking.exists_visit (fun r hr => ?_) fun r hr alive => ?_
  · exact HostHeap.exists_reaches
      (shows.anchored.congr course.frozen course.onward r (Array.mem_of_getElem? hr))
  · exact within.exists_receive closed course.onward valid
      (within.of_found closed course hr alive).2 eager

end Valid

/-- An idle collector that is in order goes through a pass if it can take a snapshot, the counts
cover what is stored, the handles of what is alive in the host heap are valid, and the pass can be
finished once it is marked. -/
theorem exists_collect_of_surveys (orderly : w.collector.Orderly) (idle : w.collector.phase = .idle)
    (on : w.collector.options.cycleDetection = true) (prepared : w.prepareSets = .ok v)
    (htaken : Snapshot.take (v.collector.sets.merged .new .inCollection) v.foreign v.host =
      .ok taken)
    (covered : v.Covered) (valid : ∀ h, v.Alive (.host h) → h.index < v.host.objects.size)
    (finish : ∀ s₀ s w₁, Surveys w v s₀ s w₁ →
      ∃ w₂ host, w₁.finishPass = .ok w₂ ∧ w₂.host.drain = .ok host) :
    ∃ n w', w.collect = .ok (n, w') := by
  obtain ⟨s₀, roots⟩ := (exists_roots_iff htaken).2 covered
  have shows := shows_of_collectRoots htaken roots
  have host := (prepares_of_prepareSets prepared).host
  obtain ⟨w₁, started⟩ := exists_startPass orderly idle prepared htaken roots
  have orderly₁ := orderly_of_startPass orderly started
  have stepped : w.step = .ok (false, w₁) := step_eq_ok.2 (.start idle on started)
  have begins : w₁.host = v.host ∧ w₁.foreign = v.foreign ∧ w₁.collector.phase = .marking ∧
      w₁.collector.snapshot? = some s₀ ∧
      w₁.collector.sets = v.collector.sets.merged .new .inCollection ∧
      w₁.collector.invalidated = false := by
    obtain ⟨_, _, _, stats, prepared', htaken', roots', -, rfl⟩ := startPass_eq_ok started
    obtain rfl := Except.ok.inj (prepared.symm.trans prepared')
    obtain rfl := Except.ok.inj (htaken.symm.trans htaken')
    obtain rfl := Except.ok.inj (roots.symm.trans roots')
    exact ⟨rfl, rfl, rfl, rfl, rfl, rfl⟩
  obtain ⟨host₁, foreign₁, phase₁, snapshot₁, sets₁, valid₁⟩ := begins
  have wellformed := (orderly₁.records s₀ snapshot₁).wellformed
  have start := Marking.Spreads.start (Snapshot.balanced_of_take htaken roots).2 v.host
  obtain ⟨g, drained⟩ := shows.exists_drain wellformed valid start
  obtain ⟨w', completes⟩ := exists_completes_of_marking (w := { w₁ with host := g })
    (P := Marking.Spreads s₀ v.host) orderly₁ phase₁ snapshot₁ (start.drain drained)
    (fun eager m i spreads => shows.exists_visit wellformed valid spreads eager i)
    (fun _ _ => shows.exists_drain wellformed valid)
    (fun _ _ _ _ spreads visits => spreads.visit visits) (fun _ _ _ => .drain)
    fun w₂ s from_ => finish s₀ s w₂ ⟨prepared, ⟨taken, htaken, roots⟩, from_.phase,
      from_.snapshot, from_.foreign.trans foreign₁, from_.sets.trans sets₁,
      from_.invalidated.trans valid₁, from_.orderly, host ▸ from_.kept, from_.quiet, from_.drained⟩
  exact ⟨_, _, (Completes.more stepped (host₁ ▸ drained) completes).exists_collect.choose_spec⟩

/-- An idle collector that is in order goes through a pass if and only if the counts cover what is
stored once the containers are gone, provided that all handles are valid. -/
theorem exists_collect_iff (orderly : w.collector.Orderly) (idle : w.collector.phase = .idle)
    (on : w.collector.options.cycleDetection = true) (prepared : w.prepareSets = .ok v)
    (grounded : w.Grounded) (linked : w.host.Linked)
    (bridges : ∀ o h, w.foreign.bridge o = .ok (some h) → h.index < w.host.objects.size) :
    (∃ n w', w.collect = .ok (n, w')) ↔ v.Covered := by
  have prepares := prepares_of_prepareSets prepared
  have cells := (Arena.cells_of_informed prepares.informed).1
  have grounded' : v.Grounded := grounded.congr cells prepares.contains
  have bridges' : ∀ o h, v.foreign.bridge o = .ok (some h) → h.index < v.host.objects.size := by
    intro o h bridged
    rw [prepares.host]
    exact bridges o h (Arena.bridge_congr cells o ▸ bridged)
  have takes : ∃ taken, Snapshot.take (v.collector.sets.merged .new .inCollection) v.foreign
      v.host = .ok taken := by
    refine exists_take fun o mem => ?_
    obtain ⟨c, hc⟩ := grounded'.cell (by simpa using TrackedSets.contains_of_mem_members mem)
    exact ⟨c, hc, fun h bridged => bridges' o h (map_eq_ok.2 ⟨c, hc, bridged⟩)⟩
  obtain ⟨taken, htaken⟩ := takes
  rw [← exists_roots_iff htaken]
  constructor
  · rintro ⟨n, w', collected⟩
    rcases passes_of_collect orderly idle collected with ⟨off, -⟩ | ⟨-, v', s₀, s, w₁, passes⟩
    · simp [on] at off
    · obtain rfl := Except.ok.inj (prepared.symm.trans passes.prepared)
      obtain ⟨taken', htaken', roots⟩ := passes.taken
      obtain rfl := Except.ok.inj (htaken.symm.trans htaken')
      exact ⟨s₀, roots⟩
  · rintro ⟨s₀, roots⟩
    obtain ⟨w₁, started⟩ := exists_startPass orderly idle prepared htaken roots
    have orderly₁ := orderly_of_startPass orderly started
    have stepped : w.step = .ok (false, w₁) := step_eq_ok.2 (.start idle on started)
    have intact : w₁.Intact ∧ w₁.collector.phase = .marking := by
      obtain ⟨v', taken', s, stats, prepared', htaken', roots', -, rfl⟩ := startPass_eq_ok started
      obtain rfl := Except.ok.inj (prepared.symm.trans prepared')
      obtain rfl := Except.ok.inj (htaken.symm.trans htaken')
      obtain rfl := Except.ok.inj (roots.symm.trans roots')
      refine ⟨⟨⟨fun o tracked => ?_, grounded'.closed⟩, bridges', ?_, ?_⟩, rfl⟩
      · exact grounded'.tracked o (by simpa using tracked)
      · exact prepares.host ▸ linked
      · intro s same r mem h bridged
        obtain rfl := Option.some.inj same
        exact bridges' r.object h (bridged ▸ (shows_of_collectRoots htaken roots).bridge r mem)
    obtain ⟨host, drained, -⟩ := intact.1.linked.exists_drain
    obtain ⟨w', completes⟩ := exists_completes (intact.1.drain drained) orderly₁
      (by simp [intact.2, Phase.inPass])
    exact ⟨_, _, (Completes.more stepped drained completes).exists_collect.choose_spec⟩

end CycleCollector.World
