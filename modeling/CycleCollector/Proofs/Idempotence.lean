import CycleCollector.Proofs.KeptBorder
/-!
# A second pass changes nothing

When the host heap collects again and nothing else has happened since, the next pass looks at
another graph. Released objects are gone, isolated ones are no longer candidates, and everything
else is in collection. But what was alive is so again: it may have lost references, and then the
candidates have lost as many. So whatever is dead now was kept for a legacy finalizer. What the
finalizer kept it for is dead too, up to the object with the finalizer, as something alive would
keep the rest alive. Hence all of it is kept once more, and nothing is left to be isolated or
released. No count has to be right for that.

## Main definitions

* `World.Leaves`: what an undisturbed pass leaves.
* `World.begun`: the world when the host heap begins to collect.

## Main statements

* `World.Passes.leaves`: a pass leaves that.
* `World.Leaves.alive`: what a pass finds alive is alive in the next.
* `World.Leaves.nothing`: the next pass isolates and releases nothing.
* `World.collect_idempotent`: what the next pass changes.
-/

namespace CycleCollector

/-- Releases leave no reference to what was never allocated. -/
theorem Arena.Closed.releaseAll {a b : Arena} {os : List ObjectId} (closed : a.Closed)
    (nodup : os.Nodup) (done : ForeignHeap.releaseAll a os = .ok b) : b.Closed := by
  intro o c hc p mem
  rw [cell_releaseAll nodup done] at hc
  obtain ⟨d, hd, rfl⟩ := map_eq_ok.1 hc
  have before : p ∈ d.references := by
    unfold reclaimed at mem
    split at mem
    · simp at mem
    · exact mem
  obtain ⟨e, he⟩ := cell_of_lt (closed o d hd p before)
  exact lt_size_of_cell (by rw [cell_releaseAll nodup done, he]; rfl)

namespace World

/-- What an undisturbed pass over the prepared world `v` leaves: the dead objects were kept for a
legacy finalizer, isolated or released, and everything else is in collection. -/
structure Leaves (v : World Arena) (dead kept isolated released : List ObjectId) (x : World Arena) :
    Prop where
  mem_dead : ∀ o, o ∈ dead ↔ o ∈ v.candidates ∧ ¬v.Alive (.foreign o)
  nodup : dead.Nodup
  mem_kept : ∀ o, o ∈ kept ↔ ForeignHeap.Retained v.foreign dead o
  rest : isolated = dead.filter (· ∉ kept) ∧ released = [] ∨
    isolated = [] ∧ released = dead.filter (· ∉ kept)
  heap : ∃ a, a.cells = v.foreign.cells ∧ ForeignHeap.releaseAll a released = .ok x.foreign ∧
    (isolated = [] → ∃ garbage, a =
      { v.foreign with legacyGarbage := v.foreign.legacyGarbage ++ garbage })
  onward : HostHeap.Onward v.host x.host
  new : x.collector.sets.members .new = []
  staged : x.collector.sets.members .staged = []
  mem_inCollection : ∀ o, o ∈ x.collector.sets.members .inCollection ↔
    v.Alive (.foreign o) ∨ o ∈ kept
  waiting : x.collector.sets.members .isolated = v.collector.sets.members .isolated ++ isolated
  outcome : ∃ legacy,
    x.collector.lastOutcome = some (.collected released.length isolated.length legacy)

def begun (w : World Arena) : World Arena := { w with host := w.host.beginCollection }

@[simp] theorem foreign_begun (w : World Arena) : w.begun.foreign = w.foreign := rfl

variable {w v x y w₁ w' : World Arena} {s₀ s : Snapshot} {o : ObjectId} {h : HostRef} {node : Node}
  {dead kept isolated released dead' kept' isolated' released' : List ObjectId}

theorem Passes.leaves (passes : Passes w v s₀ s w₁ w')
    (fresh : ∀ h, ¬HostHeap.Marked w.host.objects h) :
    ∃ dead kept isolated released, Leaves v dead kept isolated released w' := by
  obtain ⟨sets, u, kept, isolated, released, reported, legacy, judged, disposes, outcome, foreign,
    same_sets, -⟩ := passes.concludes fresh
  obtain ⟨new, inCollection, waiting⟩ := passes.members_of_disposes judged disposes
  refine ⟨sets.members .staged, kept, isolated, released, ?_⟩
  constructor
  case mem_dead => exact fun o => passes.mem_staged_iff judged
  case nodup => exact sets.nodup_members .staged
  case mem_kept => exact fun o => passes.foreign ▸ disposes.retained o
  case rest => exact disposes.rest
  case heap =>
    refine ⟨reported, passes.foreign ▸ (Arena.cells_of_informed disposes.informed).1,
      foreign ▸ disposes.released, fun none => ?_⟩
    obtain ⟨garbage, reports⟩ := disposes.reports none
    rw [foreign_discardSnapshot, passes.foreign, Arena.foldl_noteLegacyGarbage] at reports
    exact ⟨garbage, reports⟩
  case onward => exact (prepares_of_prepareSets passes.prepared).host ▸ passes.onward
  case new => rw [same_sets, new]
  case staged => rw [same_sets, disposes.staged]
  case mem_inCollection =>
    intro o
    rw [same_sets, inCollection, passes.members_inCollection]
    refine or_congr_left ⟨fun ⟨candidate, alive⟩ => ?_, fun alive => ⟨alive.mem_candidates, ?_⟩⟩
    · have found := passes.findsDead_iff candidate
      exact not_not.1 fun dead => by simp [alive, dead] at found
    · have found := passes.findsDead_iff alive.mem_candidates
      simpa [alive] using found
  case waiting =>
    rw [same_sets, waiting, passes.sets]
    simp [TrackedSets.members_merged]
  case outcome => exact ⟨legacy, outcome⟩

theorem leaves_of_collect {n : Nat} (orderly : w.collector.Orderly)
    (idle : w.collector.phase = .idle)
    (on : w.collector.options.cycleDetection = true) (collected : w.begun.collect = .ok (n, x)) :
    ∃ v dead kept isolated released, w.begun.prepareSets = .ok v ∧
      v.host = w.host.beginCollection ∧ Leaves v dead kept isolated released x := by
  obtain ⟨off, -⟩ | ⟨-, v, s₀, s, w₁, passes⟩ :=
    passes_of_collect (w := w.begun) orderly idle collected
  · simp [begun, on] at off
  · obtain ⟨dead, kept, isolated, released, leaves⟩ :=
      passes.leaves (HostHeap.not_marked_beginCollection w.host)
    exact ⟨v, dead, kept, isolated, released, passes.prepared,
      (prepares_of_prepareSets passes.prepared).host, leaves⟩

/-! ## The world after a pass -/

namespace Leaves

section

variable (leaves : Leaves v dead kept isolated released x)

include leaves

theorem dead_of_released (mem : o ∈ released) : o ∈ dead ∧ o ∉ kept := by
  obtain ⟨-, rfl⟩ | ⟨-, rfl⟩ := leaves.rest
  · simp at mem
  · simpa using mem

theorem nodup_released : released.Nodup := by
  obtain ⟨-, rfl⟩ | ⟨-, rfl⟩ := leaves.rest
  · exact .nil
  · exact leaves.nodup.filter _

theorem of_inCollection (mem : o ∈ x.collector.sets.members .inCollection) :
    o ∈ v.candidates ∧ o ∉ released := by
  rcases (leaves.mem_inCollection o).1 mem with alive | mem
  · refine ⟨alive.mem_candidates, fun released => ?_⟩
    exact ((leaves.mem_dead o).1 (leaves.dead_of_released released).1).2 alive
  · have dead := ((leaves.mem_kept o).1 mem).mem
    exact ⟨((leaves.mem_dead o).1 dead).1, fun released => (leaves.dead_of_released released).2 mem⟩

theorem candidates_begun : x.begun.candidates = x.collector.sets.members .inCollection := by
  simp [begun, candidates, TrackedSets.members_merged, leaves.new]

/-- Nothing but the count of an object has changed that is not released. -/
theorem map_cell {β : Type} {f : Cell → β} (uncounted : ∀ c n, f { c with refcount := n } = f c)
    (stays : o ∉ released) : f <$> x.foreign.cell o = f <$> v.foreign.cell o := by
  obtain ⟨a, cells, done, -⟩ := leaves.heap
  rw [Arena.map_cell_releaseAll uncounted leaves.nodup_released done stays, Arena.cell_congr cells]

theorem bridge_eq (stays : o ∉ released) : x.foreign.bridge o = v.foreign.bridge o :=
  leaves.map_cell (fun _ _ => rfl) stays

theorem references_eq (stays : o ∉ released) : x.foreign.references o = v.foreign.references o :=
  leaves.map_cell (fun _ _ => rfl) stays

theorem finalizer_eq (stays : o ∉ released) : x.foreign.finalizer o = v.foreign.finalizer o :=
  leaves.map_cell (fun _ _ => rfl) stays

theorem referencesOf_eq (stays : o ∉ released) :
    x.foreign.referencesOf o = v.foreign.referencesOf o := by
  obtain ⟨a, cells, done, -⟩ := leaves.heap
  rw [Arena.referencesOf_releaseAll done stays, Arena.referencesOf_congr cells]

/-- A candidate that has lost references is one for which the candidates store as many less. -/
theorem exists_lost {n : Nat} (count : v.foreign.refcount o = .ok n) : ∃ lost,
    x.foreign.refcount o = .ok (n - lost) ∧
      x.foreign.storedIn x.begun.candidates o + lost ≤ v.foreign.storedIn v.candidates o := by
  obtain ⟨a, cells, done, -⟩ := leaves.heap
  refine ⟨v.foreign.storedIn released o, ?_, ?_⟩
  · rw [← Arena.refcount_congr cells] at count
    rw [Arena.refcount_releaseAll leaves.nodup_released done count, Arena.storedIn_congr cells]
  · have stays : ∀ p ∈ x.begun.candidates, p ∈ v.candidates ∧ p ∉ released := fun p mem =>
      leaves.of_inCollection (leaves.candidates_begun ▸ mem)
    have same : x.foreign.storedIn x.begun.candidates o =
        v.foreign.storedIn x.begun.candidates o :=
      congrArg List.sum (List.map_congr_left fun p mem => by
        rw [leaves.referencesOf_eq (stays p mem).2])
    have nodup : (x.begun.candidates ++ released).Nodup := by
      refine List.nodup_append.2 ⟨nodup_candidates _, leaves.nodup_released, ?_⟩
      rintro p mem _ late rfl
      exact (stays p mem).2 late
    have subset : ∀ p ∈ x.begun.candidates ++ released, p ∈ v.candidates := by
      intro p mem
      rcases List.mem_append.1 mem with mem | mem
      · exact (stays p mem).1
      · exact ((leaves.mem_dead p).1 (leaves.dead_of_released mem).1).1
    calc x.foreign.storedIn x.begun.candidates o + v.foreign.storedIn released o
      _ = v.foreign.storedIn (x.begun.candidates ++ released) o := by
        rw [same]
        simp [Arena.storedIn]
      _ ≤ v.foreign.storedIn v.candidates o := Arena.storedIn_le_of_subset nodup subset _ o

theorem grounded (grounded : v.Grounded) : x.Grounded where
  tracked o tracked := by
    have stays : v.collector.sets.contains o = true ∧ o ∉ released := by
      obtain ⟨r, mem⟩ := TrackedSets.contains_iff_exists_mem.1 tracked
      have of_candidate : o ∈ v.candidates → v.collector.sets.contains o = true := fun candidate =>
        by simpa using TrackedSets.contains_of_mem_members candidate
      cases r with
      | new => simp [leaves.new] at mem
      | staged => simp [leaves.staged] at mem
      | inCollection => exact (leaves.of_inCollection mem).imp_left of_candidate
      | isolated =>
        rw [leaves.waiting] at mem
        rcases List.mem_append.1 mem with early | late
        · refine ⟨TrackedSets.contains_of_mem_members early, fun mem => ?_⟩
          have candidate := ((leaves.mem_dead o).1 (leaves.dead_of_released mem).1).1
          have role := TrackedSets.mem_members.1 early
          rw [candidates, TrackedSets.members_merged (by decide), if_pos rfl, List.mem_append,
            TrackedSets.mem_members, TrackedSets.mem_members, role] at candidate
          simp at candidate
        · -- a pass that isolates objects releases none
          obtain ⟨rfl, rfl⟩ | ⟨rfl, -⟩ := leaves.rest
          · have dead := (List.mem_filter.1 late).1
            exact ⟨of_candidate ((leaves.mem_dead o).1 dead).1, by simp⟩
          · simp at late
    exact (leaves.map_cell (fun _ _ => rfl) stays.2).trans (grounded.tracked o stays.1)
  closed := by
    obtain ⟨a, cells, done, -⟩ := leaves.heap
    exact (grounded.closed.congr cells).releaseAll leaves.nodup_released done

end

/-! ## The next pass -/

section

variable {g : HostHeap} (leaves : Leaves v dead kept isolated released x)
  (begins : v.host = g.beginCollection)

include leaves begins

theorem objects_begun : x.begun.host.objects = v.host.objects := by
  refine leaves.onward.same.trans ?_
  rw [begins]
  exact HostHeap.map_unmarked_beginCollection g

/-- What a pass finds alive is alive in the next. -/
theorem alive (alive : v.Alive node) : x.begun.Alive node := by
  have stays : ∀ {o}, v.Alive (.foreign o) → o ∈ x.begun.candidates ∧ o ∉ released := by
    intro o alive
    have mem := (leaves.mem_inCollection o).2 (.inl alive)
    exact ⟨leaves.candidates_begun ▸ mem, (leaves.of_inCollection mem).2⟩
  have bridges : ∀ {o h}, v.Alive (.foreign o) → v.foreign.bridge o = .ok (some h) →
      x.foreign.bridge o = .ok (some h) :=
    fun {o h} alive bridged => (leaves.bridge_eq (stays alive).2).trans bridged
  induction alive with
  | @held _ n candidate count left =>
    have alive := Alive.held candidate count left
    obtain ⟨lost, counted, fewer⟩ := leaves.exists_lost count
    have stripped := Refcount.stripBias_le_sub_add n lost
    refine .held (stays alive).1 counted ?_
    rw [foreign_begun]
    omega
  | known candidate bridged known =>
    have alive := Alive.known candidate bridged known
    rw [← leaves.objects_begun begins] at known
    exact .known (stays alive).1 (bridges alive bridged) known
  | reference alive refers candidate ih =>
    exact ih.reference (leaves.referencesOf_eq (stays alive).2 ▸ refers)
      (stays (alive.reference refers candidate)).1
  | across alive bridged ih => exact ih.across (bridges alive bridged)
  | back alive candidate bridged ih =>
    have here := alive.back candidate bridged
    exact ih.back (stays here).1 (bridges here bridged)
  | listed mem =>
    have roots : x.host.roots = g.roots := by
      rw [leaves.onward.roots, begins]
      rfl
    refine .listed ?_
    rw [begins] at mem
    simpa [begun, HostHeap.beginCollection, roots] using mem
  | edge _ _ edge ih =>
    rw [← leaves.objects_begun begins] at edge
    exact ih.edge (HostHeap.not_marked_beginCollection x.host _) edge

/-- All that is dead in the next pass is kept for the same legacy finalizers. -/
theorem mem_kept_again (again : Leaves x.begun dead' kept' isolated' released' y)
    (mem : o ∈ dead') : o ∈ kept' := by
  -- everything among the candidates was kept unless it is alive
  have early : ∀ {o}, o ∈ dead' → ForeignHeap.Retained v.foreign dead o := by
    intro o mem
    obtain ⟨candidate, gone⟩ := (again.mem_dead o).1 mem
    rw [leaves.candidates_begun, leaves.mem_inCollection] at candidate
    exact (leaves.mem_kept o).1 (candidate.resolve_left fun was => gone (leaves.alive begins was))
  have inCollection : ∀ {o}, ForeignHeap.Retained v.foreign dead o →
      o ∈ x.collector.sets.members .inCollection :=
    fun {o} retained => (leaves.mem_inCollection o).2 (.inr ((leaves.mem_kept o).2 retained))
  rw [again.mem_kept]
  have retained := early mem
  induction retained with
  | legacy _ own =>
    have stays := (leaves.of_inCollection (inCollection (early mem))).2
    exact .legacy mem ((leaves.finalizer_eq stays).trans own)
  | @reference o p os before refs refers _ ih =>
    have stays := (leaves.of_inCollection (inCollection before)).2
    have refs' : x.foreign.references p = .ok os := (leaves.references_eq stays).trans refs
    -- if what refers to it were alive, it would be alive itself
    have dead_p : p ∈ dead' := by
      refine (again.mem_dead p).2 ⟨leaves.candidates_begun ▸ inCollection before, fun here => ?_⟩
      obtain ⟨c, hc, rfl⟩ := Arena.references_eq_ok.1 refs'
      obtain ⟨candidate, gone⟩ := (again.mem_dead o).1 mem
      exact gone (here.reference (Arena.mem_referencesOf.2 ⟨c, hc, refers⟩) candidate)
    exact .reference (ih dead_p) refs' refers mem

theorem nothing (again : Leaves x.begun dead' kept' isolated' released' y) :
    isolated' = [] ∧ released' = [] := by
  have none : dead'.filter (· ∉ kept') = [] := by
    refine List.filter_eq_nil_iff.2 fun o mem => ?_
    simpa using leaves.mem_kept_again begins again mem
  rcases again.rest with ⟨isolated, released⟩ | ⟨isolated, released⟩
  · exact ⟨isolated.trans none, released⟩
  · exact ⟨isolated, released.trans none⟩

/-- In the next pass the counts cover what is stored if they do so in this one. -/
theorem covered (covered : v.Covered) : x.begun.Covered := by
  intro o mem m bridge b count bridged reached
  obtain ⟨candidate, stays⟩ := leaves.of_inCollection (leaves.candidates_begun ▸ mem)
  have bridged' : v.foreign.bridge o = .ok bridge := (leaves.bridge_eq stays).symm.trans bridged
  have reached' : v.host.reaches bridge = .ok b :=
    (HostHeap.reaches_congr (leaves.objects_begun begins) bridge).symm.trans reached
  obtain ⟨c, hc, -⟩ := map_eq_ok.1 bridged'
  have before : v.foreign.refcount o = .ok c.refcount := Arena.refcount_eq_ok.2 ⟨c, hc, rfl⟩
  obtain ⟨lost, counted, fewer⟩ := leaves.exists_lost before
  obtain rfl := Except.ok.inj (counted.symm.trans count)
  have enough := covered o candidate _ _ _ before bridged' reached'
  have stripped := Refcount.stripBias_le_sub_add c.refcount lost
  rw [foreign_begun]
  omega

end

end Leaves

theorem prepareSets_of_new (none : w.collector.sets.members .new = []) : w.prepareSets = .ok w := by
  unfold prepareSets
  split
  · simp only [untrackContainers, none]
    rfl
  · rfl

/-- An idle collector goes undisturbed through a pass, and when the host heap begins to collect
again through another. Then the second one isolates and releases nothing and leaves the objects and
roles as they were: the foreign heap has changed in what it was told of legacy garbage at most. And
it comes to its end if all handles were valid before the first one and only unreleased objects were
tracked. -/
theorem collect_idempotent {n : Nat} {options : Options} {foreign : Arena} {host : HostHeap}
    {actions : List (Action Arena)}
    (ran : run { collector := { options }, foreign, host } actions = .ok w)
    (idle : w.collector.phase = .idle) (on : w.collector.options.cycleDetection = true)
    (first : collect { w with host := w.host.beginCollection } = .ok (n, x)) :
    (∀ m y, collect { x with host := x.host.beginCollection } = .ok (m, y) →
      (∃ legacy, y.collector.lastOutcome = some (.collected 0 0 legacy)) ∧
      (∃ garbage, y.foreign =
        { x.foreign with legacyGarbage := x.foreign.legacyGarbage ++ garbage }) ∧
      y.collector.sets.members .new = x.collector.sets.members .new ∧
      y.collector.sets.members .isolated = x.collector.sets.members .isolated ∧
      ∀ o, o ∈ y.collector.sets.members .inCollection ↔
        o ∈ x.collector.sets.members .inCollection) ∧
    (w.Grounded →
      (∀ o h, w.foreign.bridge o = .ok (some h) → h.index < w.host.objects.size) →
      (∀ h k, HostHeap.Points w.host.objects h k → k.index < w.host.objects.size) →
      (∀ h ∈ w.host.roots, h.index < w.host.objects.size) →
      ∃ m y, collect { x with host := x.host.beginCollection } = .ok (m, y)) := by
  have orderly := orderly_of_run ran (.start options)
  obtain ⟨off, -⟩ | ⟨-, v, s₀, s, w₁, passes⟩ := passes_of_collect (w := w.begun) orderly idle first
  · simp [begun, on] at off
  obtain ⟨dead, kept, isolated, released, leaves⟩ :=
    passes.leaves (HostHeap.not_marked_beginCollection w.host)
  have prepares := prepares_of_prepareSets passes.prepared
  have begins : v.host = w.host.beginCollection := prepares.host
  have completes := completes_of_collect first
  have orderly' : x.begun.collector.Orderly := completes.orderly orderly
  have idle' : x.begun.collector.phase = .idle := passes.idle
  have on' : x.begun.collector.options.cycleDetection = true :=
    (congrArg Options.cycleDetection completes.options).trans on
  have prepared : x.begun.prepareSets = .ok x.begun := prepareSets_of_new leaves.new
  constructor
  · intro m y second
    obtain ⟨v', dead', kept', isolated', released', prepared', -, again⟩ :=
      leaves_of_collect (w := x) orderly' idle' on' second
    obtain rfl := Except.ok.inj (prepared.symm.trans prepared')
    obtain ⟨rfl, rfl⟩ := leaves.nothing begins again
    refine ⟨again.outcome, ?_, again.new.trans leaves.new.symm, ?_, fun o => ?_⟩
    · obtain ⟨a, -, done, reports⟩ := again.heap
      obtain ⟨garbage, rfl⟩ := reports rfl
      exact ⟨garbage, (pure_eq_ok.1 done).symm⟩
    · rw [again.waiting, List.append_nil]
      rfl
    · rw [← leaves.candidates_begun, again.mem_inCollection]
      constructor
      · rintro (alive | mem)
        · exact alive.mem_candidates
        · exact ((again.mem_dead o).1 ((again.mem_kept o).1 mem).mem).1
      · intro candidate
        by_cases alive : x.begun.Alive (.foreign o)
        · exact .inl alive
        · exact .inr (leaves.mem_kept_again begins again ((again.mem_dead o).2 ⟨candidate, alive⟩))
  · intro grounded bridges edges roots
    obtain ⟨taken, htaken, collected⟩ := passes.taken
    have covered := leaves.covered begins ((exists_roots_iff htaken).1 ⟨s₀, collected⟩)
    have cells := (Arena.cells_of_informed prepares.informed).1
    have before : v.Grounded := grounded.congr cells prepares.contains
    have same : x.host.objects.map HostObject.unmarked = w.host.objects.map HostObject.unmarked :=
      passes.onward.same.trans (HostHeap.map_unmarked_beginCollection w.host)
    have size := HostHeap.size_of_map_unmarked same
    have linked : x.begun.host.Linked := by
      refine .beginCollection (fun h k edge => ?_) fun h mem => ?_
      · exact size ▸ edges h k ((HostHeap.points_congr same).1 edge)
      · exact size ▸ roots h (passes.onward.roots ▸ mem)
    refine (exists_collect_iff orderly' idle' on' prepared
      ⟨(leaves.grounded before).tracked, (leaves.grounded before).closed⟩ linked ?_).2 covered
    intro o h bridged
    obtain ⟨a, same_cells, done, -⟩ := leaves.heap
    have early := Arena.bridge_of_releaseAll leaves.nodup_released done bridged
    rw [Arena.bridge_congr same_cells, Arena.bridge_congr cells] at early
    simpa [begun, HostHeap.beginCollection, size] using bridges o h early

/-- The first pass lets go of a container and releases the second object, which leaves the first
with one reference less. The third has a legacy finalizer and keeps the fourth, and the last waits
for its finalizer since an earlier pass. -/
theorem collect_idempotent_mixed :
    let start : World Arena :=
      { foreign := { cells := #[
          { refcount := Refcount.hostBias + 2, bridge := some ⟨0⟩ },
          { refcount := 1, references := [⟨1⟩, ⟨0⟩] },
          { refcount := 1, references := [⟨2⟩, ⟨3⟩], finalizer := .legacy },
          { refcount := 1, bridge := none },
          { refcount := 1, atomic := true },
          { refcount := 1, references := [⟨5⟩], finalizer := .modern }] }
        host := { objects := #[{ edges := [⟨1⟩] }, {}], roots := [⟨1⟩] } }
    let w := start.after [.track ⟨5⟩, .step, .step, .step, .track ⟨0⟩, .track ⟨1⟩, .track ⟨2⟩,
      .track ⟨3⟩, .track ⟨4⟩]
    let x := w.collected
    let y := x.collected
    x.foreign.released = [⟨1⟩] ∧ x.foreign.untracked = [⟨4⟩] ∧
      x.collector.sets.members .isolated = [⟨5⟩] ∧
      (∃ legacy, y.collector.lastOutcome = some (.collected 0 0 legacy)) ∧
      y.foreign.cells = x.foreign.cells ∧ y.foreign.released = x.foreign.released ∧
      y.collector.sets.members .isolated = x.collector.sets.members .isolated ∧
      ∀ o, o ∈ y.collector.sets.members .inCollection ↔
        o ∈ x.collector.sets.members .inCollection := by
  intro start w x y
  have ran : start.run [.track ⟨5⟩, .step, .step, .step, .track ⟨0⟩, .track ⟨1⟩, .track ⟨2⟩,
      .track ⟨3⟩, .track ⟨4⟩] = .ok w := by decide +kernel
  have first : collect { w with host := w.host.beginCollection } = .ok (3, x) := by decide +kernel
  have bridges : ∀ o c, w.foreign.cell o = .ok c → ∀ h ∈ c.bridge, h.index < w.host.objects.size :=
    Arena.forall_cell.2 (by decide +kernel)
  have edges : ∀ z ∈ w.host.objects.toList, ∀ k ∈ z.edges, k.index < w.host.objects.size := by
    decide +kernel
  have tracked : ∀ e ∈ w.collector.sets.entries, w.foreign.isReleased e.object = .ok false := by
    decide +kernel
  have grounded : w.Grounded := by
    refine ⟨fun o here => ?_, by decide +kernel⟩
    obtain ⟨e, mem, rfl⟩ := TrackedSets.contains_iff.1 here
    exact tracked e mem
  obtain ⟨unchanged, goes⟩ :=
    collect_idempotent ran (by decide +kernel) (by decide +kernel) first
  obtain ⟨m, y', second⟩ := goes grounded
    (fun o h bridged => by
      obtain ⟨c, hc, bridge⟩ := map_eq_ok.1 bridged
      exact bridges o c hc h bridge)
    (fun h k ⟨z, hz, mem⟩ =>
      edges z (Array.mem_toList_iff.2 (Array.mem_of_getElem? hz)) k mem)
    (by decide +kernel)
  obtain rfl : y' = y := by simp only [y, collected, second]
  obtain ⟨outcome, ⟨garbage, same⟩, -, isolated, inCollection⟩ := unchanged m y second
  exact ⟨by decide +kernel, by decide +kernel, by decide +kernel, outcome, by rw [same],
    by rw [same], isolated, inCollection⟩

end World

end CycleCollector
