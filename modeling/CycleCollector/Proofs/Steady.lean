import CycleCollector.Proofs.Accounts
import CycleCollector.Proofs.Classification
import CycleCollector.Proofs.Exactness
import CycleCollector.Proofs.Idempotence
import CycleCollector.Proofs.Interference
/-!
# Tidy worlds stay tidy

A collection of the host heap leaves a tidy world tidy, and tells by its outcome how many objects it
has released: all that are not live. It does so even if the program interferes before the verdict,
as long as the program keeps the world tidy. If an object that is not live has another count by
then, the pass fails and releases nothing. If all of them are as before, the pass goes through. So a
tidy world goes from one collection to the next without end.

## Main definitions

* `World.Steady`: a tidy world between two collections.

## Main statements

* `World.Steady.of_releaseAll`: releases keep a world steady.
* `World.Steady.exists_collectWith`: what a collection does, with a program that interferes.
* `World.Steady.nothing_of_collect`: the next collection releases nothing.
-/

namespace CycleCollector

namespace Arena

variable {a b : Arena} {os : List ObjectId} {o : ObjectId}

theorem isReleased_eq_false_of_releaseAll (nodup : os.Nodup)
    (done : ForeignHeap.releaseAll a os = .ok b) :
    b.isReleased o = .ok false ↔ a.isReleased o = .ok false ∧ o ∉ os := by
  by_cases mem : o ∈ os
  · simp [mem, (isReleased_of_releaseAll done).2 (.inr mem)]
  · have same : b.isReleased o = a.isReleased o :=
      map_cell_releaseAll (fun _ _ => rfl) nodup done mem
    simp [mem, same]

theorem liveObjects_eq (a : Arena) :
    a.liveObjects = a.objects.filter fun o => decide (a.isReleased o = .ok false) := by
  refine List.filter_congr fun o mem => ?_
  obtain ⟨j, hj, rfl⟩ := List.mem_map.1 mem
  have bound : j < a.cells.size := by simpa [size] using hj
  simp [isReleased, cell, bound, Functor.map, Except.map]

theorem length_liveObjects (a : Arena) : a.liveObjects.length =
    (List.range a.size).countP fun j => decide (a.isReleased ⟨j⟩ = .ok false) := by
  rw [liveObjects_eq, objects, ObjectId.range, List.range'_eq_map_range,
    ← List.countP_eq_length_filter, List.countP_map, List.countP_map]
  simp [Function.comp_def]

end Arena

namespace World

/-- A tidy world between two collections, with a ledger that names objects. -/
structure Steady (w : World Arena) (l : Ledger) : Prop extends Tidy w l where
  orderly : w.collector.Orderly
  held : ∀ o ∈ l.held, o.index < w.foreign.size
  linked : ∀ o ∈ l.linked, o.index < w.foreign.size

variable {w v w₁ w' x y : World Arena} {l : Ledger} {s₀ s : Snapshot} {a b : Arena}
  {os : List ObjectId} {o : ObjectId} {n m : Nat}

theorem Steady.books (steady : w.Steady l) : w.foreign.Books l [] where
  tally o c hc := by simpa using steady.accurate o c hc
  stored := steady.closed
  held := steady.held
  linked := steady.linked

/-- A world stays steady if objects are released and tracked no longer, while the host heap
collects. -/
theorem Steady.of_releaseAll (steady : w.Steady l) (cells : b.cells = w.foreign.cells)
    (done : ForeignHeap.releaseAll b os = .ok x.foreign) (nodup : os.Nodup)
    (orderly : x.collector.Orderly) (idle : x.collector.phase = .idle)
    (options : x.collector.options = w.collector.options)
    (tracked : ∀ o, x.collector.sets.contains o = true ↔
      w.collector.sets.contains o = true ∧ o ∉ os)
    (roles : ∀ o, x.collector.sets.contains o = true →
      o ∈ x.collector.sets.members .new ∨ o ∈ x.collector.sets.members .inCollection)
    (onward : HostHeap.Onward w.host.beginCollection x.host) : x.Steady l := by
  have books := (steady.books.congr cells).releaseAll done
  have same := onward.same.trans (HostHeap.map_unmarked_beginCollection w.host)
  have size := HostHeap.size_of_map_unmarked same
  have before : ∀ o c, x.foreign.cell o = .ok c →
      ∃ d, w.foreign.cell o = .ok d ∧ c = b.reclaimed os o d := by
    intro o c hc
    rw [Arena.cell_releaseAll nodup done, Arena.cell_congr cells] at hc
    obtain ⟨d, hd, rfl⟩ := map_eq_ok.1 hc
    exact ⟨d, hd, rfl⟩
  constructor
  case orderly => exact orderly
  case held => exact books.held
  case linked => exact books.linked
  constructor
  case idle => exact idle
  case cycleDetection => exact options ▸ steady.cycleDetection
  case tracked =>
    intro o
    rw [tracked, steady.tracked, Unreleased, Unreleased,
      Arena.isReleased_eq_false_of_releaseAll nodup done, Arena.isReleased_congr cells]
  case roles => exact roles
  case accurate => exact books.accurate
  case small => exact (steady.small.congr cells).mono (Arena.stored_releaseAll_le done)
  case plain =>
    intro o c hc
    obtain ⟨d, hd, rfl⟩ := before o c hc
    have plain := steady.plain o d hd
    unfold Arena.reclaimed
    split <;> exact plain
  case emptied =>
    intro o c hc gone
    obtain ⟨d, hd, rfl⟩ := before o c hc
    unfold Arena.reclaimed at gone ⊢
    split at gone
    · next mem => simp [mem]
    · next stays => simpa [stays] using steady.emptied o d hd gone
  case closed => exact books.stored
  case bridges =>
    intro o h bridged
    have early := Arena.bridge_of_releaseAll nodup done bridged
    rw [Arena.bridge_congr cells] at early
    exact size ▸ steady.bridges o h early
  case edges => exact fun h k edge => size ▸ steady.edges h k ((HostHeap.points_congr same).1 edge)
  case roots => exact fun h mem => size ▸ steady.roots h (onward.roots ▸ mem)

/-! ## The end of a pass -/

theorem releases_of_finishPass (orderly : w.collector.Orderly)
    (taken : w.collector.snapshot? = some s)
    (plain : ∀ o c, w.foreign.cell o = .ok c → c.finalizer = .none)
    (finished : w.finishPass = .ok w')
    (consistent : w'.collector.lastOutcome ≠ some .resurrected) {dead : List ObjectId}
    (same : dead = (w.collector.sets.members .inCollection).filter s.findsDead) :
    w'.collector.lastOutcome = some (.collected dead.length 0 0) ∧
      (∃ b, b.cells = w.foreign.cells ∧ ForeignHeap.releaseAll b dead = .ok w'.foreign) ∧
      w'.collector.sets.members .new = w.collector.sets.members .new ∧
      w'.collector.sets.members .isolated = w.collector.sets.members .isolated ∧
      w'.collector.sets.members .staged = [] ∧
      w'.collector.sets.members .inCollection =
        (w.collector.sets.members .inCollection).filter (· ∉ dead) := by
  obtain ⟨kept, sorts⟩ := sorts_of_finishPass orderly taken finished consistent
  rw [← same] at sorts
  have none : ∀ kind, kind ≠ .none → ∀ os, ForeignHeap.ofKind w.foreign kind os = [] := by
    intro kind some os
    refine List.filter_eq_nil_iff.2 fun o _ => ?_
    rw [decide_eq_true_eq]
    intro own
    obtain ⟨c, hc, rfl⟩ := map_eq_ok.1 own
    exact some (plain o c hc)
  obtain rfl : kept = [] := by
    refine List.eq_nil_iff_forall_not_mem.2 fun o mem => ?_
    obtain ⟨p, -, own, -⟩ := ((sorts.retained o).1 mem).leads
    obtain ⟨c, hc, legacy⟩ := map_eq_ok.1 own
    simp [plain p c hc] at legacy
  have all : dead = dead.filter (· ∉ ([] : List ObjectId)) := by simp
  obtain ⟨isolated, -, done, outcome⟩ := sorts.releases dead all
    ((Arena.ofKind_afterReports ..).trans (none .modern (by decide) dead))
  rw [none .legacy (by decide)] at outcome
  refine ⟨outcome, ⟨_, ?_, done⟩, sorts.new, isolated, sorts.staged, ?_⟩
  · rw [Arena.afterReports_eq]
  · simpa using sorts.inCollection

/-- Nothing has changed where a pass ends that nobody disturbed. -/
theorem Passes.not_changed {ρ : Type} [ForeignHeap ρ] {w v w₁ w' : World ρ}
    (passes : Passes w v s₀ s w₁ w') : ¬w₁.Changed := by
  obtain ⟨w₂, host, finished, -, -⟩ := passes.ended
  obtain ⟨s', verdict, sets, outcome, u, taken, judged, -, -⟩ := finishPass_eq_ok finished
  obtain rfl := Option.some.inj (passes.snapshot.symm.trans taken)
  obtain rfl := passes.consistent judged
  exact (not_changed_of_consistent passes.orderly passes.snapshot judged).2

/-! ## Collections -/

section

variable (steady : w.Steady l) (passes : Passes w.begun v s₀ s w₁ w')

include steady passes

theorem Steady.foreign_eq : w₁.foreign = w.foreign :=
  passes.foreign.trans (by rw [passes.start_eq steady.toTidy])

theorem Steady.sets_eq : w₁.collector.sets = w.collector.sets.merged .new .inCollection := by
  rw [passes.sets, passes.start_eq steady.toTidy]

/-- The pass finds dead what is not live. -/
theorem Steady.mem_dead_iff (o : ObjectId) :
    o ∈ (w₁.collector.sets.members .inCollection).filter s.findsDead ↔
      w.Unreleased o ∧ ¬Live w l w.Unreleased (.foreign o) := by
  have nodup := (passes.orderly.records s passes.snapshot).wellformed.nodup
  have candidate : o ∈ w₁.collector.sets.members .inCollection ↔ w.Unreleased o := by
    rw [steady.sets_eq passes]
    exact steady.mem_candidates
  rw [List.mem_filter, candidate, Snapshot.findsDead_iff_mem_dead nodup,
    passes.mem_dead_iff (passes.pictures_start steady.toTidy) steady.toTidy, ← and_assoc, and_self]

theorem Steady.intact (disturbed : Steady { w with foreign := a } l) :
    Intact { w₁ with foreign := a } := by
  have pictures := passes.pictures_start steady.toTidy
  have onward := passes.spreads.course.onward
  have same := onward.same.trans (HostHeap.map_unmarked_beginCollection w.host)
  have size := HostHeap.size_of_map_unmarked same
  refine ⟨⟨fun o tracked => ?_, disturbed.closed⟩, fun o h bridged => ?_, ?_,
    fun s' taken r mem => ?_⟩
  · refine (disturbed.tracked o).1 ?_
    simpa [steady.sets_eq passes] using tracked
  · exact size ▸ disturbed.bridges o h bridged
  · refine ⟨fun h k edge => ?_, fun h mem => ?_, fun h mem => ?_⟩
    · exact size ▸ steady.edges h k ((HostHeap.points_congr same).1 edge)
    · exact size ▸ steady.roots h (onward.roots ▸ mem)
    · simp [passes.drained] at mem
  · obtain rfl := Option.some.inj (passes.snapshot.symm.trans taken)
    intro h bridged
    obtain ⟨i, hr⟩ := Array.mem_iff_getElem?.1 mem
    obtain ⟨r₀, hr₀, -, bridge, -⟩ := passes.exists_record hr
    have answer := pictures.bridge r₀ (Array.mem_of_getElem? hr₀)
    rw [bridge, bridged] at answer
    exact size ▸ steady.bridges r₀.object h answer

/-- An object that is not live and has another count by then makes the pass fail. -/
theorem Steady.changed_of_refcount (disturbed : Steady { w with foreign := a } l)
    (unreleased : w.Unreleased o) (dead : ¬Live w l w.Unreleased (.foreign o))
    (differs : a.refcount o ≠ w.foreign.refcount o) : Changed { w₁ with foreign := a } := by
  obtain ⟨candidate, found⟩ :=
    List.mem_filter.1 ((steady.mem_dead_iff passes o).2 ⟨unreleased, dead⟩)
  obtain ⟨r, recorded, zero⟩ := Snapshot.findsDead_iff.1 found
  have nodup := (passes.orderly.records s passes.snapshot).wellformed.nodup
  obtain ⟨mem, rfl⟩ := (Snapshot.recordOf_eq_some nodup).1 recorded
  obtain ⟨q, same, describes⟩ := passes.describes mem
  have refcount : q.refcount = r.refcount := (congrArg Snapshot.Record.refcount same :)
  have before : w.foreign.refcount r.object = .ok r.refcount := by
    rw [← refcount, ← steady.foreign_eq passes, passes.foreign]
    exact describes.refcount
  obtain ⟨c, hc, -⟩ :=
    map_eq_ok.1 ((disturbed.tracked r.object).1 ((steady.tracked _).2 unreleased))
  have count : a.refcount r.object = .ok c.refcount := Arena.refcount_eq_ok.2 ⟨c, hc, rfl⟩
  refine ⟨s, passes.snapshot, r, mem, zero, .inl ⟨c.refcount, count, fun same => differs ?_⟩⟩
  rw [count, before, same]

/-- If every object that is not live is as before, the pass does not fail. -/
theorem Steady.not_changed_of_cell (alike : ∀ o, w.Unreleased o →
    ¬Live w l w.Unreleased (.foreign o) → a.cell o = w.foreign.cell o) :
    ¬Changed { w₁ with foreign := a } := by
  rintro ⟨s', taken, r, mem, zero, differs⟩
  obtain rfl := Option.some.inj (passes.snapshot.symm.trans taken)
  have records := passes.orderly.records s passes.snapshot
  have found : r.object ∈ (w₁.collector.sets.members .inCollection).filter s.findsDead := by
    obtain ⟨candidate, recorded⟩ := records.recordOf_of_mem passes.valid mem
    exact List.mem_filter.2 ⟨candidate, Snapshot.findsDead_iff.2 ⟨r, recorded, zero⟩⟩
  obtain ⟨unreleased, dead⟩ := (steady.mem_dead_iff passes r.object).1 found
  have same : a.cell r.object = w₁.foreign.cell r.object := by
    rw [steady.foreign_eq passes]
    exact alike r.object unreleased dead
  refine passes.not_changed ⟨s, passes.snapshot, r, mem, zero, ?_⟩
  simpa only [Snapshot.Differs, Arena.foreign_refcount, Arena.foreign_references, Arena.refcount,
    Arena.references, same] using differs

/-- Where a pass ends after the program has interfered, some objects of the collection are released,
and the others stay in it. -/
theorem Steady.exists_released (disturbed : Steady { w with foreign := a } l) {w₂ : World Arena}
    (finished : finishPass { w₁ with foreign := a } = .ok w₂) :
    ∃ os b, os.Nodup ∧ b.cells = a.cells ∧ ForeignHeap.releaseAll b os = .ok w₂.foreign ∧
      ∀ r o, o ∈ w₂.collector.sets.members r ↔
        r = .inCollection ∧ w.collector.sets.contains o = true ∧ o ∉ os := by
  have sets := steady.sets_eq passes
  have fresh : w₁.collector.sets.members .new = [] := by simp [sets, TrackedSets.members_merged]
  have waiting : w₁.collector.sets.members .isolated = [] := by
    simp [sets, TrackedSets.members_merged, steady.isolated_eq_nil]
  have candidate : ∀ o, o ∈ w₁.collector.sets.members .inCollection ↔
      w.collector.sets.contains o = true := fun o => by
    rw [sets]
    exact steady.mem_candidates.trans (steady.tracked o).symm
  have alone : ∀ {os : List ObjectId}, w₂.collector.sets.members .new = [] →
      w₂.collector.sets.members .isolated = [] → w₂.collector.sets.members .staged = [] →
      (∀ o, o ∈ w₂.collector.sets.members .inCollection ↔
        o ∈ w₁.collector.sets.members .inCollection ∧ o ∉ os) →
      ∀ r o, o ∈ w₂.collector.sets.members r ↔
        r = .inCollection ∧ w.collector.sets.contains o = true ∧ o ∉ os := by
    intro os new isolated staged inCollection r o
    cases r <;> simp [new, isolated, staged, inCollection, candidate]
  by_cases failed : w₂.collector.lastOutcome = some .resurrected
  · obtain ⟨foreign, undone⟩ :=
      (resurrects_of_finishPass (w := { w₁ with foreign := a }) passes.orderly finished).2 failed
    refine ⟨[], a, .nil, rfl, foreign ▸ rfl, alone (undone.new.trans fresh)
      (undone.isolated.trans waiting) undone.staged fun o => ?_⟩
    simpa using undone.inCollection o
  · obtain ⟨-, ⟨b, cells, done⟩, new, isolated, staged, inCollection⟩ :=
      releases_of_finishPass (w := { w₁ with foreign := a }) passes.orderly passes.snapshot
        (fun o c hc => (disturbed.plain o c hc).1) finished failed rfl
    refine ⟨_, b, (TrackedSets.nodup_members ..).filter _, cells, done, alone (new.trans fresh)
      (isolated.trans waiting) staged fun o => ?_⟩
    rw [inCollection, List.mem_filter, decide_eq_true_eq]

/-- So the world is steady again. If the pass has failed, the arena is as the program left it. If
not, all that is not live is released. -/
theorem Steady.finishes (options : w₁.collector.options = w.collector.options)
    (disturbed : Steady { w with foreign := a } l) {w₂ : World Arena} {host : HostHeap}
    (finished : finishPass { w₁ with foreign := a } = .ok w₂)
    (drained : w₂.host.drain = .ok host) (same : x = { w₂ with host }) :
    x.Steady l ∧ (x.collector.lastOutcome = some .resurrected ↔ Changed { w₁ with foreign := a }) ∧
      (x.collector.lastOutcome = some .resurrected → x.foreign = a) ∧
      (x.collector.lastOutcome ≠ some .resurrected → ∀ os,
        os = (w₁.collector.sets.members .inCollection).filter s.findsDead →
        x.collector.lastOutcome = some (.collected os.length 0 0) ∧
          ∃ b, b.cells = a.cells ∧ ForeignHeap.releaseAll b os = .ok x.foreign) := by
  subst same
  obtain ⟨reasons, spares⟩ :=
    resurrects_of_finishPass (w := { w₁ with foreign := a }) passes.orderly finished
  simp only [passes.valid, Bool.false_eq_true, false_or] at reasons
  have releases := releases_of_finishPass (w := { w₁ with foreign := a }) passes.orderly
    passes.snapshot (fun o c hc => (disturbed.plain o c hc).1) finished
  refine ⟨?_, reasons, fun failed => (spares failed).foreign, fun through os same =>
    ⟨(releases through same).1, (releases through same).2.1⟩⟩
  obtain ⟨os, b, nodup, cells, done, members⟩ := steady.exists_released passes disturbed finished
  have stages : Stages { w₁ with foreign := a } w₂ := .finish passes.phase finished
  have tracked : ∀ o, w₂.collector.sets.contains o = true ↔
      w.collector.sets.contains o = true ∧ o ∉ os := fun o => by
    simp [TrackedSets.contains_iff_exists_mem, members]
  refine disturbed.of_releaseAll (x := { w₂ with host }) cells done nodup
    (stages.orderly passes.orderly) (snapshot_of_finishPass finished).2
    (stages.options.trans options) tracked (fun o here => .inr ?_) ?_
  · exact (members .inCollection o).2 ⟨rfl, (tracked o).1 here⟩
  · have handed : HostHeap.Onward w₁.host w₂.host :=
      onward_of_finishPass (w := { w₁ with foreign := a }) finished
    exact (passes.spreads.course.onward.trans handed).trans (HostHeap.onward_drain drained)

end

/-- What a collection of a steady world comes to if the program leaves the arena `a` before the
verdict, and how many steps it takes. The objects in `dead` are those that are not live when it
begins. -/
structure Collects (w : World Arena) (l : Ledger) (a : Arena) (n : Nat) (dead : List ObjectId)
    (x : World Arena) : Prop where
  steady : x.Steady l
  options : x.collector.options = w.collector.options
  steps : w.collector.options.scansPerStep = none → w.collector.options.eagerHostTrace = true →
    n = 3
  nodup : dead.Nodup
  mem_dead : ∀ o, o ∈ dead ↔ w.Unreleased o ∧ ¬Live w l w.Unreleased (.foreign o)
  fails : (∃ o ∈ dead, a.refcount o ≠ w.foreign.refcount o) →
    x.collector.lastOutcome = some .resurrected ∧ x.foreign = a
  releases : (∀ o ∈ dead, a.cell o = w.foreign.cell o) →
    x.collector.lastOutcome = some (.collected dead.length 0 0) ∧
      ∃ b, b.cells = a.cells ∧ ForeignHeap.releaseAll b dead = .ok x.foreign

/-- A collection of a steady world comes to its end, and leaves a steady world. -/
theorem Steady.exists_collectWith {program : Phase → Arena → Except Fault Arena}
    (steady : w.Steady l)
    (rests : ∀ phase foreign, phase ≠ .marked → program phase foreign = .ok foreign)
    (acts : program .marked w.foreign = .ok a) (disturbed : Steady { w with foreign := a } l) :
    ∃ n dead x, w.begun.collectWith program = .ok (n, x) ∧ w.Collects l a n dead x := by
  obtain ⟨w', completes⟩ := steady.exists_completes steady.orderly
  obtain ⟨n, collected⟩ := completes.exists_collect
  obtain ⟨off, -⟩ | ⟨-, k, v, s₀, s, w₁, nears, passes⟩ :=
    nears_of_collect (w := w.begun) steady.orderly steady.idle collected
  · simp [begun, steady.cycleDetection] at off
  obtain ⟨w₂, host, finished, drained⟩ := exists_finishPass (w := { w₁ with foreign := a })
    (steady.intact passes disturbed) passes.orderly passes.snapshot
  have acted : program .marked w₁.foreign = .ok a := steady.foreign_eq passes ▸ acts
  refine ⟨k + 1, (w₁.collector.sets.members .inCollection).filter s.findsDead, _,
    (nears.collectWith_eq_ok rests).2 ⟨a, w₂, host, acted, finished, drained, rfl, rfl⟩, ?_⟩
  have dead := steady.mem_dead_iff passes
  obtain ⟨still, reasons, failed, through⟩ :=
    steady.finishes passes nears.options disturbed finished drained rfl
  constructor
  case steady => exact still
  case options =>
    have stages : Stages { w₁ with foreign := a } w₂ := .finish passes.phase finished
    exact stages.options.trans nears.options
  case steps =>
    intro unlimited eager
    rw [nears.eq_two steady.idle unlimited eager]
  case nodup => exact (TrackedSets.nodup_members ..).filter _
  case mem_dead => exact dead
  case fails =>
    rintro ⟨o, mem, differs⟩
    obtain ⟨unreleased, unreached⟩ := (dead o).1 mem
    have resurrected := reasons.2 (steady.changed_of_refcount passes disturbed unreleased unreached
      differs)
    exact ⟨resurrected, failed resurrected⟩
  case releases =>
    intro alike
    refine through (fun resurrected => ?_) _ rfl
    exact steady.not_changed_of_cell passes
      (fun o unreleased unreached => alike o ((dead o).2 ⟨unreleased, unreached⟩))
      (reasons.1 resurrected)

/-- A collection that follows on another one releases nothing. -/
theorem Steady.nothing_of_collect (steady : w.Steady l) (first : w.begun.collect = .ok (n, x))
    (again : x.Steady l) (second : x.begun.collect = .ok (m, y)) :
    ∃ legacy, y.collector.lastOutcome = some (.collected 0 0 legacy) := by
  obtain ⟨v, _, _, _, _, -, begins, leaves⟩ :=
    leaves_of_collect steady.orderly steady.idle steady.cycleDetection first
  obtain ⟨v', _, _, _, _, prepared, -, next⟩ :=
    leaves_of_collect again.orderly again.idle again.cycleDetection second
  have same : x.begun.prepareSets = .ok x.begun := prepareSets_of_new leaves.new
  obtain rfl := Except.ok.inj (same.symm.trans prepared)
  obtain ⟨rfl, rfl⟩ := leaves.nothing begins next
  exact next.outcome

end World

end CycleCollector
