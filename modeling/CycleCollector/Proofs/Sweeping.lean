import CycleCollector.Proofs.KeptBorder
/-!
# A sweep keeps what a pass keeps

A sweep looks for no cycle. It hands over the counterpart of each tracked object that the foreign
side refers to, and leaves everything else as it is. If the raw counts are right, this keeps at
least what a pass keeps. Whatever a pass finds alive is held from outside, known to be alive,
referred to by something alive, or reached from the host heap. In the first and the third case the
raw count tells as much, in the others the host heap has come to the counterpart anyway.

A pass counts a prebuilt host object as alive without tracing it, so nothing may hang on its edges.
And it keeps what is dead for finalizers, which no raw count tells.

## Main definitions

* `World.Sweeps`: what a whole sweep does.

## Main statements

* `World.exists_sweeps`: a sweep does not fail if all handles are valid.
* `World.Sweeps.reaches_of_alive`: it comes to the counterparts of everything that a pass finds
  alive.
* `World.sweep_covers_pass`: so it keeps what the pass would have kept.
-/

namespace CycleCollector.World

/-- A sweep and the trace after it change the host heap only, and the counterparts of the objects
that the foreign side refers to are marked. -/
structure Sweeps (w u : World Arena) : Prop where
  foreign : u.foreign = w.foreign
  sets : u.collector.sets = w.collector.sets
  onward : HostHeap.Onward w.host u.host
  drained : u.host.worklist = []
  border : ∀ h, w.HeldBorder h → HostHeap.Marked u.host.objects h

variable {w v u : World Arena} {l : Ledger} {o : ObjectId} {h k : HostRef} {x : Node}

/-- If all handles are valid a sweep that is due takes place. -/
theorem exists_sweeps (due : w.collector.phase = .sweepDue ∨
      w.collector.phase = .idle ∧ w.collector.options.cycleDetection = false)
    (staged : w.collector.sets.members .staged = []) (grounded : w.Grounded)
    (linked : w.host.Linked)
    (bridges : ∀ o h, w.foreign.bridge o = .ok (some h) → h.index < w.host.objects.size) :
    ∃ u, w.collect = .ok (1, u) ∧ w.Sweeps u := by
  obtain ⟨v, marked⟩ := exists_markBorder (w := w) .rawCount fun o tracked => by
    obtain ⟨c, hc⟩ := grounded.cell tracked
    exact ⟨⟨_, map_eq_ok.2 ⟨c, hc, rfl⟩⟩, _, map_eq_ok.2 ⟨c, hc, rfl⟩⟩
  have swept : w.sweep = .ok _ := bind_eq_ok.2 ⟨v, marked, rfl⟩
  obtain ⟨handed, _, mem_handed, rfl⟩ := marks_of_markBorder marked
  have linked' : (w.host.promoteAll handed).Linked := by
    refine linked.promoteAll fun h mem => ?_
    obtain ⟨o, bridged, -⟩ := (mem_handed h).1 mem
    exact bridges o h bridged
  obtain ⟨host, drained, -⟩ := linked'.exists_drain
  have stepped := step_eq_ok.2 (.sweep due swept)
  have rest := HostHeap.worklist_of_drain drained
  have collected := collect_eq w
  simp only [stepped, drained, bind, Except.bind, if_true] at collected
  refine ⟨_, collected, rfl, rfl, (HostHeap.onward_promoteAll w.host handed).trans
    (HostHeap.onward_drain drained), rest, fun h held => ?_⟩
  have listed : h ∈ (w.host.promoteAll handed).worklist := HostHeap.mem_worklist_promoteAll.2
    (.inl ((mem_handed h).2 ((marks_rawCount_iff staged).2 held)))
  simpa [rest] using (HostHeap.onward_drain drained).listed h listed

namespace Sweeps

section

variable (sweeps : Sweeps w u) (fresh : ∀ h, ¬HostHeap.Marked w.host.objects h)
  (leaves : ∀ h k, HostHeap.Prebuilt w.host.objects h → ¬HostHeap.Points w.host.objects h k)

include sweeps fresh leaves

/-- What the host heap knows to be alive after a sweep is closed under edges. -/
theorem reaches_of_points (reached : u.host.isReachable h = .ok true)
    (edge : HostHeap.Points w.host.objects h k) : u.host.isReachable k = .ok true := by
  rcases HostHeap.isReachable_eq_ok_true.1 reached with marked | prebuilt
  · have traced := sweeps.onward.traced h k marked edge
    exact HostHeap.isReachable_eq_ok_true.2 (.inl (by simpa [fresh h, sweeps.drained] using traced))
  · exact absurd edge (leaves h k ((HostHeap.prebuilt_congr sweeps.onward.same).1 prebuilt))

theorem reaches_of_leads (reached : u.host.isReachable h = .ok true)
    (path : HostHeap.Leads w.host.objects h k) : u.host.isReachable k = .ok true := by
  induction path with
  | refl => exact reached
  | step _ edge ih => exact sweeps.reaches_of_points fresh leaves ih edge

/-- Where the counts are right, a sweep comes to the counterparts of everything that a pass over the
same heaps finds alive. -/
theorem reaches_of_alive (accurate : w.foreign.Accurate l) (small : w.foreign.Small l)
    (cells : v.foreign.cells = w.foreign.cells) (host : v.host = w.host)
    (tracked : ∀ o ∈ v.candidates, w.collector.sets.contains o = true) (alive : v.Alive x) :
    match x with
    | .foreign o => ∀ h, w.foreign.bridge o = .ok (some h) → u.host.isReachable h = .ok true
    | .host h => u.host.isReachable h = .ok true := by
  have same : ∀ {o h}, v.foreign.bridge o = .ok (some h) → w.foreign.bridge o = .ok (some h) :=
    fun {o h} bridged => Arena.bridge_congr cells o ▸ bridged
  -- for objects it is enough that the foreign side refers to them
  have held : ∀ {o n h}, o ∈ v.candidates → w.foreign.refcount o = .ok n →
      0 < Refcount.stripBias n → w.foreign.bridge o = .ok (some h) →
      u.host.isReachable h = .ok true := fun {o n h} candidate count positive bridged =>
    HostHeap.isReachable_eq_ok_true.2
      (.inl (sweeps.border h ⟨o, n, tracked o candidate, bridged, count, positive⟩))
  induction alive with
  | held candidate count left =>
    rw [Arena.refcount_congr cells] at count
    exact fun h => held candidate count (Nat.zero_lt_of_lt left)
  | known candidate bridged known =>
    intro k bridged'
    obtain rfl := Option.some.inj (Except.ok.inj ((same bridged).symm.trans bridged'))
    rw [host] at known
    refine HostHeap.isReachable_eq_ok_true.2 (.inr ?_)
    exact (HostHeap.prebuilt_congr sweeps.onward.same).2 (known.resolve_left (fresh _))
  | @reference o p _ refers candidate =>
    intro h bridged
    obtain ⟨c, hc, -⟩ := map_eq_ok.1 bridged
    have count : w.foreign.refcount p = .ok c.refcount := Arena.refcount_eq_ok.2 ⟨c, hc, rfl⟩
    refine held candidate count ?_ bridged
    rw [accurate.stripBias_eq small count]
    rw [Arena.referencesOf_congr cells, ← List.count_pos_iff] at refers
    have stored := Arena.storedIn_le (a := w.foreign) (List.nodup_singleton o) p
    simp only [Arena.storedIn, List.map_singleton, List.sum_singleton] at stored
    omega
  | across _ bridged ih => exact ih _ (same bridged)
  | back _ _ bridged ih =>
    intro k bridged'
    obtain rfl := Option.some.inj (Except.ok.inj ((same bridged).symm.trans bridged'))
    exact ih
  | listed mem =>
    rw [host] at mem
    have marked := sweeps.onward.listed _ mem
    exact HostHeap.isReachable_eq_ok_true.2 (.inl (by simpa [sweeps.drained] using marked))
  | edge _ _ edge ih =>
    rw [host] at edge
    exact sweeps.reaches_of_points fresh leaves ih edge

end

end Sweeps

section Passes

variable {p v w₁ p' : World Arena} {s₀ s : Snapshot}

/-- Without finalizers a sweep of the same heaps keeps what a pass keeps. -/
theorem Passes.reaches_of_sweeps (passes : Passes p v s₀ s w₁ p') (sweeps : Sweeps w u)
    (foreign : p.foreign = w.foreign) (host : p.host = w.host)
    (sets : p.collector.sets = w.collector.sets)
    (fresh : ∀ h, ¬HostHeap.Marked w.host.objects h)
    (leaves : ∀ h k, HostHeap.Prebuilt w.host.objects h → ¬HostHeap.Points w.host.objects h k)
    (accurate : w.foreign.Accurate l) (small : w.foreign.Small l)
    (plain : ∀ o kind, w.foreign.finalizer o = .ok kind → kind = .none)
    (reached : p'.host.isReachable h = .ok true) : u.host.isReachable h = .ok true := by
  have prepares := prepares_of_prepareSets passes.prepared
  have cells : v.foreign.cells = w.foreign.cells :=
    foreign ▸ (Arena.cells_of_informed prepares.informed).1
  have tracked : ∀ o ∈ v.candidates, w.collector.sets.contains o = true := by
    intro o mem
    rw [← sets]
    exact prepares.contains o (by simpa using TrackedSets.contains_of_mem_members mem)
  have of_alive := fun {x} => sweeps.reaches_of_alive (x := x) fresh leaves accurate small cells
    (prepares.host.trans host) tracked
  have fresh' : ∀ h, ¬HostHeap.Marked p.host.objects h := host ▸ fresh
  rcases HostHeap.isReachable_eq_ok_true.1 reached with marked | prebuilt
  swap
  · have same : u.host.objects.map HostObject.unmarked = p'.host.objects.map HostObject.unmarked :=
      sweeps.onward.same.trans (host ▸ passes.onward.same).symm
    exact HostHeap.isReachable_eq_ok_true.2 (.inr ((HostHeap.prebuilt_congr same).2 prebuilt))
  obtain ⟨_, u', kept, isolated, _, reported, _, judged, disposes, -, -, -, marks⟩ :=
    passes.concludes fresh'
  have finalizers : ∀ {a : Arena}, a.cells = w.foreign.cells → ∀ o kind,
      a.finalizer o = .ok kind → kind = .none := by
    intro a same o kind own
    exact plain o kind (by rwa [Arena.finalizer, Arena.cell_congr same] at own)
  have before : w₁.foreign.cells = w.foreign.cells := passes.foreign ▸ cells
  have none_kept : ∀ o, o ∉ kept := by
    intro o mem
    obtain ⟨_, -, legacy, -⟩ := disposes.legacy o mem
    simpa using finalizers before _ _ legacy
  have none_isolated : isolated = [] := by
    refine Decidable.byContradiction fun some => ?_
    obtain ⟨a, informed, _, -, modern⟩ := disposes.modern some
    simpa using finalizers ((Arena.cells_of_informed informed).1.trans before) _ _ modern
  rcases (marks h).1 marked with early | ⟨k, handed, path⟩
  · rw [passes.marked_iff_alive, prepares.host, host] at early
    exact of_alive (early.resolve_left (fresh h))
  · have start : u.host.isReachable k = .ok true := by
      obtain ⟨o, bridged, held⟩ := handed
      have same : reported.cells = w.foreign.cells :=
        (Arena.cells_of_informed disposes.informed).1.trans before
      rw [Arena.foreign_bridge, Arena.bridge_congr same] at bridged
      rcases held with ⟨mem, -⟩ | ⟨waits, raw⟩
      · obtain ⟨-, alive | early⟩ := passes.alive_or_kept judged disposes mem
        · exact of_alive alive k bridged
        · exact absurd early (none_kept o)
      · obtain ⟨n, count, positive⟩ := isHeld_rawCount_iff.1 raw
        obtain ⟨-, -, isolated_eq⟩ := passes.members_of_disposes judged disposes
        have waited : o ∈ w.collector.sets.members .isolated := by
          rw [← sets, ← prepares.others .isolated (by simp)]
          simpa [isolated_eq, none_isolated, passes.sets, TrackedSets.members_merged] using waits
        rw [Arena.foreign_refcount, Arena.refcount_congr same] at count
        exact HostHeap.isReachable_eq_ok_true.2 (.inl (sweeps.border k
          ⟨o, n, TrackedSets.contains_of_mem_members waited, bridged, count, positive⟩))
    rw [HostHeap.leads_congr passes.spreads.course.onward.same, host] at path
    exact sweeps.reaches_of_leads fresh leaves start path

end Passes

/-- Let an idle collector be about to begin a collection, with right counts, without finalizers,
with valid handles and with no edge that leaves a prebuilt host object. If it sweeps instead of
going through a pass, because that was requested or the search for cycles is off, then every host
object that the pass would leave alive is alive, and the foreign heap and the tracked sets are as
before. -/
theorem sweep_covers_pass {options : Options} {foreign : Arena} {host : HostHeap}
    {actions : List (Action Arena)}
    (ran : run { collector := { options }, foreign, host } actions = .ok w)
    (idle : w.collector.phase = .idle) (accurate : w.foreign.Accurate l)
    (small : w.foreign.Small l)
    (plain : ∀ o kind, w.foreign.finalizer o = .ok kind → kind = .none) (grounded : w.Grounded)
    (bridges : ∀ o h, w.foreign.bridge o = .ok (some h) → h.index < w.host.objects.size)
    (edges : ∀ h k, HostHeap.Points w.host.objects h k → k.index < w.host.objects.size)
    (roots : ∀ h ∈ w.host.roots, h.index < w.host.objects.size)
    (leaves : ∀ h k, HostHeap.Prebuilt w.host.objects h → ¬HostHeap.Points w.host.objects h k) :
    ∀ c, c = w.collector.requestSweep ∨ c = w.collector.setCycleDetection false →
      ∃ u n p, collect { w with collector := c, host := w.host.beginCollection } = .ok (1, u) ∧
        collect { w with
          collector := w.collector.setCycleDetection true
          host := w.host.beginCollection } = .ok (n, p) ∧
        u.collector.sets = w.collector.sets ∧ u.foreign = w.foreign ∧
        ∀ h, p.host.isReachable h = .ok true → u.host.isReachable h = .ok true := by
  intro c sweeping
  have orderly := orderly_of_run ran (.start options)
  have linked := HostHeap.Linked.beginCollection edges roots
  have size : w.host.beginCollection.objects.size = w.host.objects.size :=
    HostHeap.size_of_map_unmarked (HostHeap.map_unmarked_beginCollection w.host)
  have bridges' : ∀ o h, w.foreign.bridge o = .ok (some h) →
      h.index < w.host.beginCollection.objects.size := fun o h => size ▸ bridges o h
  -- the sweep
  have due : c.sets = w.collector.sets ∧
      (c.phase = .sweepDue ∨ c.phase = .idle ∧ c.options.cycleDetection = false) := by
    rcases sweeping with rfl | rfl
    · simp [Collector.requestSweep, idle]
    · exact ⟨rfl, .inr ⟨idle, rfl⟩⟩
  have swept := exists_sweeps (w := { w with collector := c, host := w.host.beginCollection }) due.2
    (due.1 ▸ orderly.staged)
    ⟨fun o tracked => grounded.tracked o (due.1 ▸ tracked), grounded.closed⟩
    linked bridges'
  obtain ⟨u, swept, sweeps⟩ := swept
  -- the pass
  let on : World Arena :=
    { w with collector := w.collector.setCycleDetection true, host := w.host.beginCollection }
  have grounded' : on.Grounded := ⟨grounded.tracked, grounded.closed⟩
  obtain ⟨v, prepared⟩ := exists_prepareSets grounded'
  have cells := (Arena.cells_of_informed (prepares_of_prepareSets prepared).informed).1
  have covered := covered_of_accurate (accurate.congr cells) (small.congr cells)
  obtain ⟨n, p, passed⟩ := (exists_collect_iff (w := on) (orderly.setCycleDetection true) idle rfl
    prepared grounded' linked bridges').2 covered
  refine ⟨u, n, p, swept, passed, sweeps.sets.trans due.1, sweeps.foreign, fun h => ?_⟩
  obtain ⟨off, -⟩ | ⟨-, v', s₀, s, w₁, passes⟩ :=
    passes_of_collect (w := on) (orderly.setCycleDetection true) idle passed
  · cases off
  have fresh := HostHeap.not_marked_beginCollection w.host
  have same := HostHeap.map_unmarked_beginCollection w.host
  exact passes.reaches_of_sweeps sweeps rfl rfl due.1.symm fresh
    (fun h k prebuilt edge => leaves h k ((HostHeap.prebuilt_congr same).1 prebuilt)
      ((HostHeap.points_congr same).1 edge)) accurate small plain

/-- The program holds one object, whose counterpart points to another host object; both a pass and a
sweep keep that. The sweep also keeps the counterpart of an object that only refers to itself. -/
theorem sweep_covers_pass_loop :
    let start : World Arena :=
      { foreign := { cells := #[
          { refcount := Refcount.hostBias + 2, references := [⟨1⟩], bridge := some ⟨0⟩ },
          { refcount := 1, references := [⟨0⟩] },
          { refcount := Refcount.hostBias + 1, references := [⟨2⟩], bridge := some ⟨2⟩ }] }
        host := { objects := #[{ edges := [⟨1⟩] }, {}, {}, { flags := { noHeapPtrs := true } }] } }
    let w := start.after [.track ⟨0⟩, .track ⟨1⟩, .track ⟨2⟩]
    let s := { w with collector := w.collector.requestSweep }
    w.collected.host.isReachable ⟨1⟩ = .ok true ∧ w.collected.host.isReachable ⟨2⟩ = .ok false ∧
      s.collected.collector.sets = w.collector.sets ∧ s.collected.foreign = w.foreign ∧
      s.collected.host.isReachable ⟨1⟩ = .ok true ∧
      s.collected.host.isReachable ⟨2⟩ = .ok true := by
  intro start w s
  have ran : start.run [.track ⟨0⟩, .track ⟨1⟩, .track ⟨2⟩] = .ok w := by decide +kernel
  have cells : ∀ o c, w.foreign.cell o = .ok c → c.finalizer = .none ∧
      ∀ h ∈ c.bridge, h.index < w.host.objects.size := Arena.forall_cell.2 (by decide +kernel)
  have objects : ∀ x ∈ w.host.objects.toList, (∀ k ∈ x.edges, k.index < w.host.objects.size) ∧
      (x.flags.noHeapPtrs = true → x.edges = []) := by decide +kernel
  have known : ∀ {h : HostRef} {x}, w.host.objects[h.index]? = some x →
      x ∈ w.host.objects.toList := fun hx => Array.mem_toList_iff.2 (Array.mem_of_getElem? hx)
  have tracked : ∀ e ∈ w.collector.sets.entries, w.foreign.isReleased e.object = .ok false := by
    decide +kernel
  obtain ⟨u, n, p, swept, passed, sets, foreign, covers⟩ := sweep_covers_pass
    (l := { held := [⟨0⟩], linked := [⟨0⟩, ⟨2⟩] }) ran (by decide +kernel) (by decide +kernel)
    (Arena.small_of_length (by decide +kernel))
    (fun o kind own => by
      obtain ⟨c, hc, rfl⟩ := map_eq_ok.1 own
      exact (cells o c hc).1)
    ⟨fun o here => by
      obtain ⟨e, mem, rfl⟩ := TrackedSets.contains_iff.1 here
      exact tracked e mem, by decide +kernel⟩
    (fun o h bridged => by
      obtain ⟨c, hc, bridge⟩ := map_eq_ok.1 bridged
      exact (cells o c hc).2 h bridge)
    (fun h k ⟨x, hx, mem⟩ => (objects x (known hx)).1 k mem) (by decide +kernel)
    (fun h k ⟨x, hx, flag⟩ ⟨y, hy, mem⟩ => by
      obtain rfl := Option.some.inj (hx.symm.trans hy)
      simp [(objects x (known hx)).2 flag] at mem)
    _ (.inl rfl)
  have sweep_done : collect { s with host := s.host.beginCollection } = .ok (1, s.collected) := by
    decide +kernel
  have pass_done : collect { w with host := w.host.beginCollection } = .ok (3, w.collected) := by
    decide +kernel
  obtain ⟨-, rfl⟩ := Prod.mk.inj (Except.ok.inj (swept.symm.trans sweep_done))
  obtain ⟨-, rfl⟩ := Prod.mk.inj (Except.ok.inj (passed.symm.trans pass_done))
  exact ⟨by decide +kernel, by decide +kernel, sets, foreign, covers ⟨1⟩ (by decide +kernel),
    by decide +kernel⟩

end CycleCollector.World
