import CycleCollector.Proofs.BorderReach
import CycleCollector.Proofs.CombinedGraph
/-!
# An undisturbed pass is exact

In a tidy world an undisturbed pass finds out what is alive in both heaps together, although it
never looks at the graph of both: it subtracts edges from counts, and it waits for the host heap to
trace. Its marks are bounded from above by what is live, for that is closed under everything that
passes liveness on. They are bounded from below because marking has ended: no record would be found
alive any more, and the host heap has nothing left to trace. What is dead is as recorded then, so it
is released.

## Main statements

* `World.Pictures.closed`, `World.Pictures.within`: marking finds nothing that is not live.
* `World.Passes.found_of_live`: it finds everything that is.
* `World.Passes.released_iff`, `World.Passes.contains_iff`, `World.Passes.marked_iff`: what the pass
  releases, goes on to track, and marks.
* `World.exact_of_run`: a collection comes to its end, and leaves the heaps like that.
-/

namespace CycleCollector.World

variable {w w₁ w' v : World Arena} {l : Ledger} {s₀ s : Snapshot} {r : Snapshot.Record}
  {o : ObjectId} {h : HostRef} {n : Node}

/-! ## From above -/

theorem Pictures.unreleased (pictures : w.Pictures l s₀) (mem : r ∈ s₀.records) :
    w.Unreleased r.object :=
  (pictures.objects r.object).1 (List.mem_map_of_mem (Array.mem_toList_iff.2 mem))

theorem Live.leads {counts : ObjectId → Prop} {k : HostRef} (live : Live w l counts (.host h))
    (path : HostHeap.Leads w.host.objects h k) : Live w l counts (.host k) := by
  induction path with
  | refl => exact live
  | step _ edge ih => exact ih.edge edge

/-- What is live is closed under everything that passes liveness on. -/
theorem Pictures.closed (pictures : w.Pictures l s₀) (wellformed : s₀.Wellformed) :
    Marking.Closed
      (fun i => ∃ r, s₀.records[i]? = some r ∧ Live w l w.Unreleased (.foreign r.object))
      (fun h => Live w l w.Unreleased (.host h)) s₀ w.host.beginCollection where
  edge i j r := by
    rintro ⟨_, hr, live⟩ hr' edge
    obtain rfl := Option.some.inj (hr'.symm.trans hr)
    have mem := Array.mem_of_getElem? hr
    have hq := Array.getElem?_eq_getElem (wellformed.bounded r mem j edge)
    exact ⟨_, hq, live.reference ((pictures.edges r mem j _ hq).1 edge)⟩
  handed i r h := by
    rintro ⟨_, hr, live⟩ hr' bridged
    obtain rfl := Option.some.inj (hr'.symm.trans hr)
    have mem := Array.mem_of_getElem? hr
    exact live.across (pictures.unreleased mem) (bridged ▸ pictures.bridge r mem)
  points h k live _ edge :=
    live.edge ((HostHeap.points_congr (HostHeap.map_unmarked_beginCollection w.host)).1 edge)
  bridged i r h hr bridged := by
    have mem := Array.mem_of_getElem? hr
    have answer := bridged ▸ pictures.bridge r mem
    rintro (marked | prebuilt | live)
    · exact absurd marked (HostHeap.not_marked_beginCollection w.host h)
    · refine ⟨r, hr, .prebuilt (pictures.unreleased mem) answer ?_⟩
      exact (HostHeap.prebuilt_congr (HostHeap.map_unmarked_beginCollection w.host)).1 prebuilt
    · exact ⟨r, hr, live.back (pictures.unreleased mem) answer⟩

/-- Marking starts with what is live. -/
theorem Pictures.within (pictures : w.Pictures l s₀) :
    Marking.Within
      (fun i => ∃ r, s₀.records[i]? = some r ∧ Live w l w.Unreleased (.foreign r.object))
      (fun h => Live w l w.Unreleased (.host h)) w.host.beginCollection s₀
      w.host.beginCollection where
  alive i r hr positive := by
    have mem := Array.mem_of_getElem? hr
    refine ⟨r, hr, ?_⟩
    rcases (pictures.roots r mem).1 positive with held | ⟨h, bridged, prebuilt⟩
    · exact .held held
    · exact .prebuilt (pictures.unreleased mem) (bridged ▸ pictures.bridge r mem) prebuilt
  confined := by
    refine ⟨fun h mem => ?_, fun h marked => .inl marked⟩
    exact .root (List.mem_reverse.1 mem)

/-! ## From below -/

/-- The records at the end of marking are those of the start, with other counts. -/
theorem Passes.exists_record (passes : Passes w v s₀ s w₁ w') {i : Nat}
    (hr : s.records[i]? = some r) :
    ∃ r₀, s₀.records[i]? = some r₀ ∧ r₀.object = r.object ∧ r₀.bridge = r.bridge ∧
      r₀.edges = r.edges := by
  obtain ⟨r₀, hr₀, same⟩ := Snapshot.exists_of_frozen_eq passes.spreads.course.frozen.symm hr
  exact ⟨r₀, hr₀, (congrArg Snapshot.Record.object same :),
    (congrArg Snapshot.Record.bridge same :), (congrArg Snapshot.Record.edges same :)⟩

/-- Marking has found a place in either heap: the record of a foreign object counts as alive, a host
object is marked. -/
def Found (s : Snapshot) (host : HostHeap) : Node → Prop
  | .foreign o => ∀ r ∈ s.records, r.object = o → 0 < r.external
  | .host h => HostHeap.Marked host.objects h

variable (passes : Passes { w with host := w.host.beginCollection } v s₀ s w₁ w')
  (pictures : w.Pictures l s₀)

include passes pictures

theorem Passes.exists_record_of_unreleased (unreleased : w.Unreleased o) :
    ∃ (i : Nat) (r₀ r : Snapshot.Record), s₀.records[i]? = some r₀ ∧ s.records[i]? = some r ∧
      r₀.object = o ∧ r.object = o ∧ r.edges = r₀.edges ∧ w.foreign.bridge o = .ok r.bridge := by
  have recorded := (pictures.objects o).2 unreleased
  rw [← Snapshot.objects_congr passes.spreads.course.frozen] at recorded
  obtain ⟨r, mem, rfl⟩ := List.mem_map.1 recorded
  obtain ⟨i, hr⟩ := Array.mem_iff_getElem?.1 (Array.mem_toList_iff.1 mem)
  obtain ⟨r₀, hr₀, object, bridge, edges⟩ := passes.exists_record hr
  have answer := pictures.bridge r₀ (Array.mem_of_getElem? hr₀)
  rw [object, bridge] at answer
  exact ⟨i, r₀, r, hr₀, hr, object, rfl, edges.symm, answer⟩

/-- What was a root is still alive when marking has ended. -/
theorem Passes.found_of_root (unheld : o ∈ l.held ∨
    ∃ h, w.foreign.bridge o = .ok (some h) ∧ HostHeap.Prebuilt w.host.objects h) :
    Found s w₁.host (.foreign o) := by
  rintro r mem rfl
  obtain ⟨i, hr⟩ := Array.mem_iff_getElem?.1 mem
  obtain ⟨r₀, hr₀, object, bridge, -⟩ := passes.exists_record hr
  have mem₀ := Array.mem_of_getElem? hr₀
  refine passes.spreads.course.held i r₀ r hr₀ hr ((pictures.roots r₀ mem₀).2 ?_)
  rw [object]
  refine unheld.imp_right fun ⟨h, bridged, prebuilt⟩ => ⟨h, ?_, prebuilt⟩
  have answer := pictures.bridge r₀ mem₀
  rw [object, bridged] at answer
  exact (Except.ok.inj answer).symm

/-- Marking finds everything that is live. -/
theorem Passes.found_of_live (tidy : w.Tidy l) (live : Live w l w.Unreleased n) :
    Found s w₁.host n := by
  have onward := passes.spreads.course.onward
  have records := passes.orderly.records s passes.snapshot
  have fresh := HostHeap.not_marked_beginCollection w.host
  have same := onward.same.trans (HostHeap.map_unmarked_beginCollection w.host)
  induction live with
  | held mem => exact passes.found_of_root pictures (.inl mem)
  | prebuilt _ bridged prebuilt => exact passes.found_of_root pictures (.inr ⟨_, bridged, prebuilt⟩)
  | @root h mem =>
    have listed := onward.listed h (List.mem_reverse.2 mem)
    exact listed.resolve_right (by simp [passes.drained])
  | @reference o p _ refers ih =>
    rintro q mem rfl
    obtain ⟨i, r₀, r, hr₀, hr, rfl, object, edges, -⟩ :=
      passes.exists_record_of_unreleased pictures (tidy.unreleased_of_refers refers)
    obtain ⟨j, hq⟩ := Array.mem_iff_getElem?.1 mem
    obtain ⟨q₀, hq₀, same, -, -⟩ := passes.exists_record hq
    have edge : j ∈ r.edges := by
      rw [edges, pictures.edges r₀ (Array.mem_of_getElem? hr₀) j q₀ hq₀, same]
      exact refers
    have mem := Array.mem_of_getElem? hr
    have processed := (passes.quiet r mem).resolve_right fun ⟨dead, _⟩ =>
      Nat.ne_of_gt (ih r mem object) dead
    exact passes.spreads.course.passed i j r q hr processed edge hq
  | @across o h _ unreleased bridged ih =>
    obtain ⟨i, r₀, r, -, hr, -, rfl, -, answer⟩ :=
      passes.exists_record_of_unreleased pictures unreleased
    have mem := Array.mem_of_getElem? hr
    exact passes.marked_of_alive mem (ih r mem rfl) (Except.ok.inj (answer.symm.trans bridged))
  | @back o h _ unreleased bridged ih =>
    rintro r mem rfl
    refine records.balanced.alive r mem
      ((passes.quiet r mem).resolve_right fun ⟨_, unreached⟩ => ?_)
    rw [passes.bridge_eq mem bridged] at unreached
    simp [HostHeap.reaches, HostHeap.isReachable_eq_ok_true.2 (.inl ih)] at unreached
  | edge _ edge ih => exact passes.marked_of_points fresh ih ((HostHeap.points_congr same).2 edge)

/-- Marking finds nothing that is not live. -/
theorem Passes.live_of_found (found : Found s w₁.host n) (unreleased : ∀ o, n = .foreign o →
    w.Unreleased o) : Live w l w.Unreleased n := by
  have wellformed := ((passes.orderly.records s passes.snapshot).wellformed).congr
    passes.spreads.course.frozen.symm
  have within := passes.spreads.within _ _ (pictures.closed wellformed) pictures.within
  cases n with
  | foreign o =>
    obtain ⟨i, r₀, r, hr₀, hr, rfl, object, -⟩ :=
      passes.exists_record_of_unreleased pictures (unreleased o rfl)
    obtain ⟨q, hq, live⟩ := within.alive i r hr (found r (Array.mem_of_getElem? hr) object)
    obtain rfl := Option.some.inj (hr₀.symm.trans hq)
    exact live
  | host h =>
    rcases within.confined.marked h found with early | live
    · exact absurd early (HostHeap.not_marked_beginCollection w.host h)
    · exact live

/-- The dead objects are those that are not live. -/
theorem Passes.mem_dead_iff (tidy : w.Tidy l) :
    o ∈ s.dead ↔ w.Unreleased o ∧ ¬Live w l w.Unreleased (.foreign o) := by
  rw [Snapshot.mem_dead]
  constructor
  · rintro ⟨r, mem, dead, rfl⟩
    have unreleased : w.Unreleased r.object := by
      rw [← pictures.objects, ← Snapshot.objects_congr passes.spreads.course.frozen]
      exact List.mem_map_of_mem (Array.mem_toList_iff.2 mem)
    refine ⟨unreleased, fun live => ?_⟩
    exact Nat.ne_of_gt (passes.found_of_live pictures tidy live r mem rfl) dead
  · rintro ⟨unreleased, dead⟩
    obtain ⟨i, r₀, r, -, hr, -, object, -⟩ := passes.exists_record_of_unreleased pictures unreleased
    refine ⟨r, Array.mem_of_getElem? hr, ?_, object⟩
    refine Nat.eq_zero_of_not_pos fun positive => dead (passes.live_of_found pictures ?_ ?_)
    · intro q mem same
      have nodup := (passes.orderly.records s passes.snapshot).wellformed.nodup
      have found := (Snapshot.recordOf_eq_some nodup).2 ⟨mem, same⟩
      rw [(Snapshot.recordOf_eq_some nodup).2 ⟨Array.mem_of_getElem? hr, object⟩] at found
      exact Option.some.inj found ▸ positive
    · rintro p same
      exact Node.foreign.inj same ▸ unreleased

omit passes pictures

/-! ## What is released -/

/-- Without finalizers everything that is staged is released. -/
theorem Tidy.released_eq (tidy : w.Tidy l) {kept isolated released : List ObjectId}
    {reported : Arena} (cells : v.foreign.cells = w.foreign.cells)
    (disposes : Disposes v kept isolated released reported w') :
    kept = [] ∧ isolated = [] ∧ released = v.collector.sets.members .staged := by
  have plain : ∀ a : Arena, a.cells = w.foreign.cells → ∀ o kind, a.finalizer o = .ok kind →
      kind = .none := by
    intro a same o kind answer
    obtain ⟨c, hc, rfl⟩ := map_eq_ok.1 answer
    exact (tidy.plain o c (Arena.cell_congr same o ▸ hc)).1
  obtain rfl : kept = [] := List.eq_nil_iff_forall_not_mem.2 fun o mem => by
    obtain ⟨p, -, legacy, -⟩ := disposes.legacy o mem
    exact absurd (plain _ cells p _ legacy) (by decide)
  obtain rfl : isolated = [] := Decidable.byContradiction fun some => by
    obtain ⟨a, informed, o, -, modern⟩ := disposes.modern some
    exact absurd (plain a ((Arena.cells_of_informed informed).1.trans cells) o _ modern) (by decide)
  refine ⟨rfl, rfl, ?_⟩
  rcases disposes.rest with ⟨none, rfl⟩ | ⟨-, rfl⟩
  · simpa using none
  · simp

theorem Passes.start_eq (passes : Passes { w with host := w.host.beginCollection } v s₀ s w₁ w')
    (tidy : w.Tidy l) : v = { w with host := w.host.beginCollection } :=
  Except.ok.inj (passes.prepared.symm.trans (tidy.prepareSets_eq _))

theorem Passes.pictures_start
    (passes : Passes { w with host := w.host.beginCollection } v s₀ s w₁ w')
    (tidy : w.Tidy l) : w.Pictures l s₀ := by
  obtain ⟨taken, htaken, roots⟩ := passes.taken
  rw [passes.start_eq tidy] at htaken
  exact tidy.pictures htaken roots

/-- A pass over a tidy world releases all that it stages. -/
theorem Passes.disposes_of_tidy
    (passes : Passes { w with host := w.host.beginCollection } v s₀ s w₁ w') (tidy : w.Tidy l) :
    ∃ sets u reported,
      s.judge w₁.collector.sets w₁.foreign w₁.host w₁.collector.invalidated =
        .ok (.consistent, sets) ∧
      Disposes (w₁.discardSnapshot sets) [] [] (sets.members .staged) reported u ∧
      reported.cells = w.foreign.cells ∧ w'.foreign = u.foreign ∧
      w'.collector.sets = u.collector.sets ∧
      ∀ h, HostHeap.Marked w'.host.objects h ↔ HostHeap.Marked w₁.host.objects h ∨
        ∃ k, Marks { u with foreign := reported } .cyclicCount k ∧
          HostHeap.Leads w₁.host.objects k h := by
  obtain ⟨sets, u, kept, isolated, released, reported, judged, disposes, foreign, same_sets,
      marked⟩ :=
    passes.disposes (HostHeap.not_marked_beginCollection w.host)
  obtain ⟨rfl, rfl, rfl⟩ := tidy.released_eq (v := w₁.discardSnapshot sets) passes.cells disposes
  have cells : reported.cells = w.foreign.cells :=
    (Arena.cells_of_informed disposes.informed).1.trans passes.cells
  exact ⟨sets, u, reported, judged, disposes, cells, foreign, same_sets, marked⟩

theorem Passes.released_iff (passes : Passes { w with host := w.host.beginCollection } v s₀ s w₁ w')
    (tidy : w.Tidy l) (o : ObjectId) :
    w'.foreign.isReleased o = .ok true ↔ w.foreign.isReleased o = .ok true ∨
      w.Unreleased o ∧ ¬Live w l w.Unreleased (.foreign o) := by
  obtain ⟨sets, u, reported, judged, disposes, cells, foreign, -⟩ := passes.disposes_of_tidy tidy
  rw [foreign, Arena.isReleased_of_releaseAll disposes.released,
    mem_staged_of_consistent passes.orderly passes.snapshot judged,
    passes.mem_dead_iff (passes.pictures_start tidy) tidy, Arena.isReleased_congr cells]

theorem Passes.contains_iff (passes : Passes { w with host := w.host.beginCollection } v s₀ s w₁ w')
    (tidy : w.Tidy l) (o : ObjectId) :
    w'.collector.sets.contains o = true ↔
      w.Unreleased o ∧ Live w l w.Unreleased (.foreign o) := by
  obtain ⟨sets, u, reported, judged, disposes, -, -, same_sets, -⟩ := passes.disposes_of_tidy tidy
  obtain ⟨new, inCollection, isolated⟩ := passes.members_of_disposes judged disposes
  have start := passes.start_eq tidy
  have candidates : o ∈ w₁.collector.sets.members .inCollection ↔ w.Unreleased o := by
    rw [passes.sets, start]
    exact tidy.mem_candidates
  have waits : u.collector.sets.members .isolated = [] := by
    simp [isolated, passes.sets, start, TrackedSets.members_merged, tidy.isolated_eq_nil]
  have nodup := (passes.orderly.records s passes.snapshot).wellformed.nodup
  have dead : s.findsDead o = true ↔ w.Unreleased o ∧ ¬Live w l w.Unreleased (.foreign o) :=
    (Snapshot.findsDead_iff_mem_dead nodup).trans
      (passes.mem_dead_iff (passes.pictures_start tidy) tidy)
  have inCollection := inCollection o
  rw [candidates, Bool.eq_false_iff, ne_eq, dead] at inCollection
  rw [same_sets, TrackedSets.contains_iff_exists_mem]
  constructor
  · rintro ⟨role, mem⟩
    cases role with
    | new => simp [new] at mem
    | isolated => simp [waits] at mem
    | staged => simp [disposes.staged] at mem
    | inCollection => grind
  · rintro ⟨unreleased, live⟩
    exact ⟨.inCollection, inCollection.2 (.inl ⟨unreleased, fun dead => dead.2 live⟩)⟩

theorem Passes.marked_iff (passes : Passes { w with host := w.host.beginCollection } v s₀ s w₁ w')
    (tidy : w.Tidy l) (h : HostRef) :
    HostHeap.Marked w'.host.objects h ↔ Live w l w.Unreleased (.host h) := by
  obtain ⟨sets, u, reported, -, -, cells, -, same_sets, marked⟩ := passes.disposes_of_tidy tidy
  have pictures := passes.pictures_start tidy
  have same :=
    passes.spreads.course.onward.same.trans (HostHeap.map_unmarked_beginCollection w.host)
  rw [marked]
  constructor
  · rintro (found | ⟨k, ⟨o, bridged, held⟩, path⟩)
    · exact passes.live_of_found pictures found (by simp)
    · -- whatever the border hands over belongs to an object that is still tracked
      have tracked : u.collector.sets.contains o = true := by
        rcases held with ⟨mem | mem, -⟩ | ⟨mem, -⟩ <;> exact TrackedSets.contains_of_mem_members mem
      obtain ⟨unreleased, live⟩ := (passes.contains_iff tidy o).1 (same_sets ▸ tracked)
      rw [Arena.foreign_bridge, Arena.bridge_congr cells] at bridged
      exact (live.across unreleased bridged).leads ((HostHeap.leads_congr same).1 path)
  · exact fun live => .inl (passes.found_of_live pictures tidy live)

/-- A collection of a tidy world comes to an end if nobody disturbs it. -/
theorem Tidy.exists_completes (tidy : w.Tidy l) (orderly : w.collector.Orderly) :
    ∃ w', Completes { w with host := w.host.beginCollection } w' := by
  obtain ⟨w₁, started, intact⟩ := tidy.exists_startPass orderly
  have stepped : step { w with host := w.host.beginCollection } = .ok (false, w₁) := by
    simp only [step, tidy.idle, tidy.cycleDetection, started]
    rfl
  obtain ⟨host', drained, -⟩ := intact.linked.exists_drain
  have orderly₁ := orderly_of_startPass (w := { w with host := w.host.beginCollection }) orderly
    started
  obtain ⟨_, _, _, _, -, -, -, -, rfl⟩ := startPass_eq_ok started
  obtain ⟨w', completes⟩ := World.exists_completes (intact.drain drained) orderly₁ rfl
  exact ⟨w', .more stepped drained completes⟩

/-- In a tidy world a collection of the host heap that nobody disturbs comes to an end. It has then
released the objects that are not live, goes on to track those that are, and has marked the host
objects that are live. -/
theorem exact_of_run {options : Options} {foreign : Arena} {host : HostHeap}
    {actions : List (Action Arena)}
    (ran : run { collector := { options }, foreign, host } actions = .ok w) (tidy : w.Tidy l) :
    ∃ n w', collect { w with host := w.host.beginCollection } = .ok (n, w') ∧
      (∀ o, w'.foreign.isReleased o = .ok true ↔ w.foreign.isReleased o = .ok true ∨
        w.Unreleased o ∧ ¬Live w l w.Unreleased (.foreign o)) ∧
      (∀ o, w'.collector.sets.contains o = true ↔
        w.Unreleased o ∧ Live w l w.Unreleased (.foreign o)) ∧
      ∀ h, w'.host.isVisited h = .ok true ↔ Live w l w.Unreleased (.host h) := by
  have orderly := orderly_of_run ran (.start options)
  obtain ⟨w', completes⟩ := tidy.exists_completes orderly
  obtain ⟨n, collected⟩ := completes.exists_collect
  have passes :=
    passes_of_collect (w := { w with host := w.host.beginCollection }) orderly tidy.idle collected
  rcases passes with ⟨off, -⟩ | ⟨-, v, s₀, s, w₁, passes⟩
  · simp [tidy.cycleDetection] at off
  · exact ⟨n, w', collected, passes.released_iff tidy, passes.contains_iff tidy,
      fun h => HostHeap.isVisited_eq_ok_true.trans (passes.marked_iff tidy h)⟩

/-- The first object is held and bridged to the first host object, which points to the counterpart
of the second. The third refers to itself, and has a counterpart that points back to the first. -/
def crossed : World Arena where
  foreign := { cells := #[
    { refcount := Refcount.hostBias + 1, bridge := some ⟨0⟩ },
    { refcount := Refcount.hostBias, bridge := some ⟨1⟩ },
    { refcount := Refcount.hostBias + 1, references := [⟨2⟩], bridge := some ⟨2⟩ }] }
  host := { objects := #[{ edges := [⟨1⟩] }, {}, { edges := [⟨0⟩] }] }

/-- A collection marks the counterpart of the second object. The third object is not live. -/
theorem exact_crossed :
    let w := crossed.after [.track ⟨0⟩, .track ⟨1⟩, .track ⟨2⟩]
    let l : Ledger := { held := [⟨0⟩], linked := [⟨0⟩, ⟨1⟩, ⟨2⟩] }
    w.Tidy l ∧ w.collected.host.isVisited ⟨1⟩ = .ok true ∧
      ¬Live w l w.Unreleased (.foreign ⟨2⟩) := by
  intro w l
  have ran : crossed.run [.track ⟨0⟩, .track ⟨1⟩, .track ⟨2⟩] = .ok w := by decide +kernel
  have tidy : w.Tidy l := tidy_of_checks (by decide +kernel) (by decide +kernel) (by decide +kernel)
    (by decide +kernel) (by decide +kernel) (by decide +kernel) (by decide +kernel)
    (by decide +kernel) (by decide +kernel)
  obtain ⟨n, w', collected, released, -, visited⟩ := exact_of_run ran tidy
  have done : collect { w with host := w.host.beginCollection } = .ok (3, w.collected) := by
    decide +kernel
  obtain rfl := (Prod.mk.inj (Except.ok.inj (done.symm.trans collected))).2
  have first : Live w l w.Unreleased (.host ⟨0⟩) :=
    .across (.held (show ⟨0⟩ ∈ l.held by decide)) (show _ = _ by decide +kernel) (by decide +kernel)
  have second : Live w l w.Unreleased (.host ⟨1⟩) :=
    first.edge ⟨{ edges := [⟨1⟩] }, by decide +kernel⟩
  have third : w.foreign.isReleased ⟨2⟩ ≠ .ok true := by decide +kernel
  have gone : w.collected.foreign.isReleased ⟨2⟩ = .ok true := by decide +kernel
  exact ⟨tidy, (visited _).2 second, (((released _).1 gone).resolve_left third).2⟩

/-- An object that was released once, and linked and held since then. -/
def husk : World Arena where
  foreign :=
    { cells := #[{ refcount := Refcount.hostBias + 1, bridge := some ⟨0⟩, released := true }] }
  host := { objects := #[{}] }

/-- If the bridges of released objects counted too, a collection would not be exact. -/
theorem not_exact_husk :
    let l : Ledger := { held := [⟨0⟩], linked := [⟨0⟩] }
    husk.Tidy l ∧ ¬∃ n w', collect { husk with host := husk.host.beginCollection } = .ok (n, w') ∧
      (∀ o, o.index < husk.foreign.size →
        (w'.foreign.isReleased o = .ok true ↔ ¬Live husk l (fun _ => True) (.foreign o))) ∧
      ∀ h, w'.host.isVisited h = .ok true ↔ Live husk l (fun _ => True) (.host h) := by
  intro l
  constructor
  · exact tidy_of_checks rfl rfl nofun (by decide +kernel) (by decide +kernel) (by decide +kernel)
      (by decide +kernel) (by decide +kernel) nofun
  · rintro ⟨n, w', collected, -, visited⟩
    have done :
        collect { husk with host := husk.host.beginCollection } = .ok (3, husk.collected) := by
      decide +kernel
    obtain rfl := (Prod.mk.inj (Except.ok.inj (done.symm.trans collected))).2
    have live : Live husk l (fun _ => True) (.host ⟨0⟩) :=
      .across (.held (show ⟨0⟩ ∈ l.held by decide)) trivial (by decide +kernel)
    exact absurd ((visited ⟨0⟩).2 live) (by decide +kernel)

end CycleCollector.World
