import CycleCollector.Proofs.KeptBorder
import CycleCollector.Proofs.Barriers
/-!
# The border of what is isolated

An object that waits for its finalizer is outside every snapshot, so the verdict of no pass speaks
for it. Border marking goes by its raw count instead, in every pass and in every sweep: its
counterpart is handed over as long as the foreign side refers to it. When nothing does, its
counterpart is marked only if something else leads there, and what this can be is told here for
every host object.

## Main definitions

* `World.RawHeld`: an object that the foreign side refers to, by its raw count.
* `World.LedFrom`: the host objects that roots and some bridges lead to.

## Main statements

* `World.Passes.marked_iff_led`, `World.marked_iff_led_of_sweep`: what is marked after a pass, and
  after a sweep.
* `World.isVisited_of_isolated`: the counterparts of isolated objects.
-/

namespace CycleCollector.World

variable {w v w₁ w' u : World Arena} {s₀ s : Snapshot} {o : ObjectId} {h k : HostRef} {n : Nat}

/-- The foreign side refers to an object, as far as its raw count tells. -/
def RawHeld (w : World Arena) (o : ObjectId) : Prop :=
  ∃ n, w.foreign.refcount o = .ok n ∧ 0 < Refcount.stripBias n

theorem rawHeld_congr (same : v.foreign.cells = w.foreign.cells) : v.RawHeld o ↔ w.RawHeld o := by
  simp only [RawHeld, Arena.refcount_congr same]

/-- A path of edges leads to `h` from the worklist of the host heap, or from the counterpart of an
object that satisfies `P`. -/
def LedFrom (w : World Arena) (P : ObjectId → Prop) (h : HostRef) : Prop :=
  ∃ k, HostHeap.Leads w.host.objects k h ∧
    (k ∈ w.host.worklist ∨ ∃ o, P o ∧ w.foreign.bridge o = .ok (some k))

theorem heldBorder_iff : w.HeldBorder h ↔
    ∃ o, (w.collector.sets.contains o = true ∧ w.RawHeld o) ∧
      w.foreign.bridge o = .ok (some h) := by
  constructor
  · rintro ⟨o, n, tracked, bridged, count, positive⟩
    exact ⟨o, ⟨tracked, n, count, positive⟩, bridged⟩
  · rintro ⟨o, ⟨tracked, n, count, positive⟩, bridged⟩
    exact ⟨o, n, tracked, bridged, count, positive⟩

/-! ## Sweeps -/

/-- From a heap without marks, a trace marks what the worklist leads to. -/
theorem awaits_iff_of_fresh {g : HostHeap} (fresh : ∀ h, ¬HostHeap.Marked g.objects h) :
    g.Awaits h ↔ ∃ k ∈ g.worklist, HostHeap.Leads g.objects k h := by
  constructor
  · intro awaits
    induction awaits with
    | listed mem => exact ⟨_, mem, .refl⟩
    | step _ edge _ ih =>
      obtain ⟨k, mem, path⟩ := ih
      exact ⟨k, mem, path.step edge⟩
  · rintro ⟨k, mem, path⟩
    induction path with
    | refl => exact .listed mem (fresh k)
    | step _ edge ih => exact ih.step edge (fresh _)

/-- After a sweep the host heap has marked what its worklist leads to, and the counterparts of the
tracked objects that the foreign side refers to. -/
theorem marked_iff_led_of_sweep (staged : w.collector.sets.members .staged = [])
    (fresh : ∀ h, ¬HostHeap.Marked w.host.objects h) (swept : w.sweep = .ok u) {host : HostHeap}
    (drained : u.host.drain = .ok host) :
    u.foreign = w.foreign ∧ u.collector.sets = w.collector.sets ∧
      u.collector.lastOutcome = some .swept ∧ ∀ h, HostHeap.Marked host.objects h ↔
        w.LedFrom (fun o => w.collector.sets.contains o = true ∧ w.RawHeld o) h := by
  simp only [sweep, bind_eq_ok, pure_eq_ok] at swept
  obtain ⟨v, marked, rfl⟩ := swept
  obtain ⟨bridges, _, handed, rfl⟩ := marks_of_markBorder marked
  refine ⟨rfl, rfl, rfl, fun h => ?_⟩
  have objects := HostHeap.objects_promoteAll w.host bridges
  have fresh' : ∀ h, ¬HostHeap.Marked (w.host.promoteAll bridges).objects h := by simpa using fresh
  rw [HostHeap.marked_drain_iff drained, or_iff_right (fresh' h), awaits_iff_of_fresh fresh',
    objects]
  simp only [HostHeap.mem_worklist_promoteAll, handed, marks_rawCount_iff staged, heldBorder_iff,
    LedFrom]
  grind

/-! ## Passes -/

/-- What a pass finds alive on the host side is what the worklist leads to, and the counterparts of
the objects that it finds alive. -/
theorem alive_host_iff (fresh : ∀ h, ¬HostHeap.Marked w.host.objects h) :
    w.Alive (.host h) ↔ w.LedFrom (fun o => w.Alive (.foreign o)) h := by
  constructor
  · intro alive
    generalize node : Node.host h = x at alive
    induction alive generalizing h with
    | held => cases node
    | known => cases node
    | reference => cases node
    | back => cases node
    | across alive bridged =>
      obtain rfl := Node.host.inj node
      exact ⟨h, .refl, .inr ⟨_, alive, bridged⟩⟩
    | listed mem =>
      obtain rfl := Node.host.inj node
      exact ⟨h, .refl, .inl mem⟩
    | edge _ _ edge ih =>
      obtain rfl := Node.host.inj node
      obtain ⟨k, path, start⟩ := ih rfl
      exact ⟨k, path.step edge, start⟩
  · rintro ⟨k, path, start⟩
    have alive : w.Alive (.host k) := by
      rcases start with listed | ⟨o, alive, bridged⟩
      · exact .listed listed
      · exact alive.across bridged
    clear start
    induction path with
    | refl => exact alive
    | step _ edge ih => exact ih.edge (fresh _) edge

section Disposes

variable {sets : TrackedSets} {kept isolated released : List ObjectId} {reported : Arena}
  (disposes : Disposes w kept isolated released reported u)

include disposes

/-- What border marking hands over at the end of a pass: the counterparts of the objects that the
foreign side refers to, and unless the pass isolated some objects, of all that are not isolated. -/
theorem Disposes.marks_iff (counted : u.collector.sets.Counted) :
    Marks { u with foreign := reported } (if isolated = [] then .cyclicCount else .rawCount) k ↔
      ∃ o, u.collector.sets.contains o = true ∧
        (w.RawHeld o ∨ isolated = [] ∧ o ∉ u.collector.sets.members .isolated) ∧
        w.foreign.bridge o = .ok (some k) := by
  have cells := (Arena.cells_of_informed disposes.informed).1
  have held : ∀ o, RawHeld { u with foreign := reported } o ↔ w.RawHeld o :=
    fun o => rawHeld_congr cells
  by_cases none : isolated = []
  · rw [if_pos none]
    simp only [none, true_and, ← Arena.bridge_congr cells]
    constructor
    · rintro ⟨o, bridged, ⟨mem, -⟩ | ⟨mem, raw⟩⟩
      · have role : o ∉ u.collector.sets.members .isolated := by
          rcases mem with mem | mem <;>
            simp [TrackedSets.mem_members, TrackedSets.mem_members.1 mem]
        refine ⟨o, ?_, .inr role, bridged⟩
        exact mem.elim TrackedSets.contains_of_mem_members TrackedSets.contains_of_mem_members
      · refine ⟨o, TrackedSets.contains_of_mem_members mem, .inl ?_, bridged⟩
        exact (held o).1 (isHeld_rawCount_iff.1 raw)
    · rintro ⟨o, tracked, raw, bridged⟩
      obtain ⟨r, mem⟩ := TrackedSets.contains_iff_exists_mem.1 tracked
      cases r with
      | new => exact marks_of_counted counted (.inl mem) bridged
      | inCollection => exact marks_of_counted counted (.inr mem) bridged
      | isolated =>
        have raw := (held o).2 (raw.resolve_right fun apart => apart mem)
        exact ⟨o, bridged, .inr ⟨mem, isHeld_rawCount_iff.2 raw⟩⟩
      | staged => simp [disposes.staged] at mem
  · rw [if_neg none, marks_rawCount_iff (w := { u with foreign := reported }) disposes.staged,
      heldBorder_iff]
    simp only [none, false_and, or_false, held, ← Arena.bridge_congr cells, and_assoc]

end Disposes

/-- After a pass that nobody disturbs the host heap has marked what its worklist leads to, and the
counterparts of the objects that were found alive, of the tracked objects that the foreign side
refers to, and, if the pass isolated nothing, of all tracked objects that are not isolated. -/
theorem Passes.marked_iff_led (passes : Passes w v s₀ s w₁ w')
    (fresh : ∀ h, ¬HostHeap.Marked w.host.objects h) (counted : w.collector.sets.Counted) :
    ∃ released isolated legacy,
      w'.collector.lastOutcome = some (.collected released isolated legacy) ∧
      ∀ h, HostHeap.Marked w'.host.objects h ↔ w.LedFrom (fun o => v.Alive (.foreign o) ∨
        w'.collector.sets.contains o = true ∧
          (w.RawHeld o ∨ isolated = 0 ∧ o ∉ w'.collector.sets.members .isolated)) h := by
  obtain ⟨sets, u, kept, isolated, released, reported, legacy, judged, disposes, outcome, -,
    same_sets, marked⟩ := passes.concludes fresh
  have prepares := prepares_of_prepareSets passes.prepared
  have cells : w₁.foreign.cells = w.foreign.cells := by
    rw [passes.foreign, (Arena.cells_of_informed prepares.informed).1]
  have held : ∀ o, (w₁.discardSnapshot sets).RawHeld o ↔ w.RawHeld o :=
    fun o => rawHeld_congr cells
  have bridge : ∀ o, v.foreign.bridge o = w.foreign.bridge o := fun o => by
    rw [← passes.foreign, Arena.bridge_congr cells]
  have fresh' : ∀ h, ¬HostHeap.Marked v.host.objects h := prepares.host ▸ fresh
  refine ⟨released.length, isolated.length, legacy, outcome, fun h => ?_⟩
  rw [marked, passes.marked_iff_alive, or_iff_right (fresh' h), alive_host_iff fresh', same_sets,
    List.length_eq_zero_iff]
  simp only [disposes.marks_iff (passes.counted_of_disposes judged disposes counted), held,
    foreign_discardSnapshot, Arena.bridge_congr cells,
    HostHeap.leads_congr passes.spreads.course.onward.same, LedFrom, prepares.host, bridge]
  grind

/-- A pass that nobody disturbs links no object. -/
theorem Passes.bridge_of_bridge (passes : Passes w v s₀ s w₁ w')
    (fresh : ∀ h, ¬HostHeap.Marked w.host.objects h)
    (bridged : w'.foreign.bridge o = .ok (some h)) : w.foreign.bridge o = .ok (some h) := by
  obtain ⟨_, u, _, _, _, _, -, disposes, foreign, -⟩ := passes.disposes fresh
  have before := (disposes.bridge_of_bridge (foreign ▸ bridged)).2
  have informed := (prepares_of_prepareSets passes.prepared).informed
  rwa [foreign_discardSnapshot, passes.foreign,
    Arena.bridge_congr (Arena.cells_of_informed informed).1] at before

/-! ## Isolated objects -/

/-- What a collector outside of a pass does to the marks of a host heap that has none yet. -/
theorem marked_iff_led_of_collect (settled : w.collector.Settled)
    (outside : w.collector.phase.inPass = false) (fresh : ∀ h, ¬HostHeap.Marked w.host.objects h)
    (collected : w.collect = .ok (n, w')) :
    (∀ o h, w'.foreign.bridge o = .ok (some h) → w.foreign.bridge o = .ok (some h)) ∧
    ((w'.collector.lastOutcome = some .swept ∧ ∀ h, HostHeap.Marked w'.host.objects h ↔
        w.LedFrom (fun o => w'.collector.sets.contains o = true ∧ w.RawHeld o) h) ∨
      ∃ v released isolated legacy, w.prepareSets = .ok v ∧
        w'.collector.lastOutcome = some (.collected released isolated legacy) ∧
        ∀ h, HostHeap.Marked w'.host.objects h ↔ w.LedFrom (fun o => v.Alive (.foreign o) ∨
          w'.collector.sets.contains o = true ∧
            (w.RawHeld o ∨ isolated = 0 ∧ o ∉ w'.collector.sets.members .isolated)) h) := by
  by_cases due : w.collector.phase = .idle ∧ w.collector.options.cycleDetection = true
  · obtain ⟨idle, on⟩ := due
    obtain ⟨off, -⟩ | ⟨-, v, s₀, s, w₁, passes⟩ :=
      passes_of_collect settled.toOrderly idle collected
    · simp [on] at off
    obtain ⟨released, isolated, legacy, outcome, marked⟩ :=
      passes.marked_iff_led fresh settled.counted
    exact ⟨fun o h => passes.bridge_of_bridge fresh,
      .inr ⟨v, released, isolated, legacy, passes.prepared, outcome, marked⟩⟩
  cases completes_of_collect collected with
  | more stepped =>
    cases step_eq_ok.1 stepped with
    | start idle on => exact absurd ⟨idle, on⟩ due
    | mark marking => simp [marking, Phase.inPass] at outside
  | last stepped drained =>
    cases step_eq_ok.1 stepped with
    | finish marked => simp [marked, Phase.inPass] at outside
    | sweep _ swept =>
      obtain ⟨foreign, sets, outcome, marked⟩ :=
        marked_iff_led_of_sweep settled.staged fresh swept drained
      exact ⟨fun o h bridged => foreign ▸ bridged,
        .inl ⟨outcome, by simpa only [sets] using marked⟩⟩

/-- The counterpart of an isolated object that the foreign side refers to is marked by every
collection of the host heap that nobody disturbs, by a pass as by a sweep. Any other host object,
and so the counterpart of an isolated object to which nothing refers, is marked exactly if it is led
to: by roots, by the tracked objects that the foreign side refers to, and in a pass by what that
finds alive and, unless it isolates something, by all that it does not isolate. -/
theorem isVisited_of_isolated {options : Options} {foreign : Arena} {host : HostHeap}
    {actions : List (Action Arena)}
    (ran : run { collector := { options }, foreign, host } actions = .ok w)
    (outside : w.collector.phase.inPass = false)
    (collected : collect { w with host := w.host.beginCollection } = .ok (n, w')) :
    (∀ o ∈ w'.collector.sets.members .isolated, ∀ h, w'.foreign.bridge o = .ok (some h) →
      w.RawHeld o → w'.host.isVisited h = .ok true) ∧
    ((w'.collector.lastOutcome = some .swept ∧ ∀ h, w'.host.isVisited h = .ok true ↔
        LedFrom { w with host := w.host.beginCollection } (fun o =>
          w'.collector.sets.contains o = true ∧ w.RawHeld o) h) ∨
      ∃ v released isolated legacy,
        prepareSets { w with host := w.host.beginCollection } = .ok v ∧
        w'.collector.lastOutcome = some (.collected released isolated legacy) ∧
        ∀ h, w'.host.isVisited h = .ok true ↔
          LedFrom { w with host := w.host.beginCollection } (fun o => v.Alive (.foreign o) ∨
            w'.collector.sets.contains o = true ∧
              (w.RawHeld o ∨ isolated = 0 ∧ o ∉ w'.collector.sets.members .isolated)) h) := by
  have settled := settled_of_run ran (.start options)
  simp only [HostHeap.isVisited_eq_ok_true]
  obtain ⟨bridges, marked⟩ := marked_iff_led_of_collect
    (w := { w with host := w.host.beginCollection }) settled outside
    (HostHeap.not_marked_beginCollection w.host) collected
  refine ⟨fun o mem h bridged raw => ?_, marked⟩
  have tracked := TrackedSets.contains_of_mem_members mem
  have bridged := bridges o h bridged
  obtain ⟨-, marked⟩ | ⟨v, released, isolated, legacy, -, -, marked⟩ := marked
  · exact (marked h).2 ⟨h, .refl, .inr ⟨o, ⟨tracked, raw⟩, bridged⟩⟩
  · exact (marked h).2 ⟨h, .refl, .inr ⟨o, .inr ⟨tracked, .inl raw⟩, bridged⟩⟩

/-- Two dead objects with counterparts and modern finalizers. The first one refers to itself, and
nothing refers to the second. -/
def waiting : World Arena where
  foreign := { cells := #[
    { refcount := Refcount.hostBias + 1, references := [⟨0⟩], bridge := some ⟨0⟩,
      finalizer := .modern },
    { refcount := Refcount.hostBias, bridge := some ⟨1⟩, finalizer := .modern }] }
  host := { objects := #[{}, {}] }

/-- The counterpart of the first object is marked by the pass that isolates both, and by a sweep
after it; that sweep is not led to the counterpart of the second. -/
theorem isVisited_waiting :
    let w := waiting.after [.track ⟨0⟩, .track ⟨1⟩]
    let u := w.collected.after [.requestSweep]
    w.collected.collector.sets.members .isolated = [⟨0⟩, ⟨1⟩] ∧
      w.collected.host.isVisited ⟨0⟩ = .ok true ∧ u.collected.host.isVisited ⟨0⟩ = .ok true ∧
      ¬LedFrom { u with host := u.host.beginCollection } (fun o =>
        u.collected.collector.sets.contains o = true ∧ u.RawHeld o) ⟨1⟩ := by
  intro w u
  have ran : waiting.run [.track ⟨0⟩, .track ⟨1⟩] = .ok w := by decide +kernel
  have first : collect { w with host := w.host.beginCollection } = .ok (3, w.collected) := by
    decide +kernel
  have again : waiting.run [.track ⟨0⟩, .track ⟨1⟩, .host w.host.beginCollection, .step, .step,
      .step, .host w.collected.host, .requestSweep] = .ok u := by decide +kernel
  have second : collect { u with host := u.host.beginCollection } = .ok (1, u.collected) := by
    decide +kernel
  have raw : w.RawHeld ⟨0⟩ := ⟨Refcount.hostBias + 1, by decide +kernel, by decide⟩
  have raw' : u.RawHeld ⟨0⟩ := ⟨Refcount.hostBias + 1, by decide +kernel, by decide⟩
  obtain ⟨visited, -⟩ := isVisited_of_isolated ran (by decide +kernel) first
  obtain ⟨visited', ⟨-, led⟩ | ⟨_, _, _, _, -, outcome, -⟩⟩ :=
    isVisited_of_isolated again (by decide +kernel) second
  · refine ⟨by decide +kernel, visited ⟨0⟩ (by decide +kernel) ⟨0⟩ (by decide +kernel) raw,
      visited' ⟨0⟩ (by decide +kernel) ⟨0⟩ (by decide +kernel) raw', fun path => ?_⟩
    exact absurd ((led ⟨1⟩).2 path) (by decide +kernel)
  · have swept : u.collected.collector.lastOutcome = some .swept := by decide +kernel
    simp [swept] at outcome

/-- So an object may wait for its finalizer without its counterpart. -/
theorem not_isVisited_waiting :
    let w := waiting.after [.track ⟨0⟩, .track ⟨1⟩]
    waiting.run [.track ⟨0⟩, .track ⟨1⟩] = .ok w ∧ w.collector.phase = .idle ∧
      collect { w with host := w.host.beginCollection } = .ok (3, w.collected) ∧
      ¬∀ o ∈ w.collected.collector.sets.members .isolated, ∀ h,
        w.collected.foreign.bridge o = .ok (some h) → w.collected.host.isVisited h = .ok true := by
  intro w
  refine ⟨by decide +kernel, by decide +kernel, by decide +kernel, fun all => ?_⟩
  have visited := all ⟨1⟩ (by decide +kernel) ⟨1⟩ (by decide +kernel)
  exact absurd visited (by decide +kernel)

end CycleCollector.World
