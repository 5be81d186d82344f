import CycleCollector.Proofs.RingLiveness
import CycleCollector.Proofs.Sweeping
/-!
# What the demonstration reports

The demonstration has no fault, whatever its arguments. If nothing disturbs it, the first round
releases the objects of the rings that are not alive, and later rounds find nothing more. The
program may point the first ring into the second one before the first verdict. This changes two
counts. If the object of one of them is dead, the verdict fails and nothing is released; otherwise
the verdict does not depend on them. Without cycle detection every round is one sweep.

## Main definitions

* `Demo.Report.Prints`: how the report is laid out.
* `Demo.Expected`: what there is to report, and how it is printed.

## Main statements

* `Demo.Scene.exists_runRounds`: what each round keeps holds after all of them.
* `Demo.exists_report`: the report is as expected.
-/

namespace CycleCollector

namespace World

variable {w x : World Arena} {l : Ledger} {a : Arena} {f : ObjectId → Cell → Cell}
  {program : Phase → Arena → Except Fault Arena}

/-- A world stays steady if its objects get other counts and references for which the books are
right. -/
theorem Steady.of_alters (steady : w.Steady l) (alters : Arena.Alters f w.foreign a)
    (books : a.Books l []) (small : a.Small l)
    (finalizer : ∀ o c, (f o c).finalizer = c.finalizer) (atomic : ∀ o c, (f o c).atomic = c.atomic)
    (bridge : ∀ o c, (f o c).bridge = c.bridge) (released : ∀ o c, (f o c).released = c.released)
    (emptied : ∀ o c, w.foreign.cell o = .ok c → c.released = true → (f o c).references = []) :
    Steady { w with foreign := a } l where
  idle := steady.idle
  cycleDetection := steady.cycleDetection
  tracked o := by
    have same : a.isReleased o = w.foreign.isReleased o := alters.map_cell released o
    rw [steady.tracked, Unreleased, Unreleased, same]
  roles := steady.roles
  accurate := books.accurate
  small := small
  plain o c hc := by
    obtain ⟨d, hd, rfl⟩ := alters.exists_of_cell hc
    rw [finalizer, atomic]
    exact steady.plain o d hd
  emptied o c hc gone := by
    obtain ⟨d, hd, rfl⟩ := alters.exists_of_cell hc
    exact emptied o d hd (released o d ▸ gone)
  closed := books.stored
  bridges o h bridged := by
    have same : a.bridge o = w.foreign.bridge o := alters.map_cell bridge o
    exact steady.bridges o h (same ▸ bridged)
  edges := steady.edges
  roots := steady.roots
  orderly := steady.orderly
  held := books.held
  linked := books.linked

structure SweepsOnly (w : World Arena) : Prop where
  idle : w.collector.phase = .idle
  cycleDetection : w.collector.options.cycleDetection = false
  staged : w.collector.sets.members .staged = []
  grounded : w.Grounded
  bridges : ∀ o h, w.foreign.bridge o = .ok (some h) → h.index < w.host.objects.size
  edges : ∀ h k, HostHeap.Points w.host.objects h k → k.index < w.host.objects.size
  roots : ∀ h ∈ w.host.roots, h.index < w.host.objects.size

theorem SweepsOnly.exists_collectWith (only : w.SweepsOnly)
    (rests : ∀ foreign, program .idle foreign = .ok foreign) :
    ∃ x, w.begun.collectWith program = .ok (1, x) ∧ x.collector.lastOutcome = some .swept ∧
      x.foreign = w.foreign ∧ x.SweepsOnly := by
  have begun := HostHeap.map_unmarked_beginCollection w.host
  obtain ⟨x, collected, sweeps⟩ :=
    exists_sweeps (w := w.begun) (.inr ⟨only.idle, only.cycleDetection⟩) only.staged
      ⟨only.grounded.tracked, only.grounded.closed⟩
      (HostHeap.Linked.beginCollection only.edges only.roots)
      fun o h bridged => HostHeap.size_of_map_unmarked begun ▸ only.bridges o h bridged
  obtain ⟨collected', outcome, idle, options⟩ :=
    collectWith_of_sweeps (w := w.begun) only.idle only.cycleDetection rests collected
  have same := sweeps.onward.same.trans begun
  have size := HostHeap.size_of_map_unmarked same
  have foreign : x.foreign = w.foreign := sweeps.foreign
  refine ⟨x, collected', outcome, foreign, ?_⟩
  constructor
  case idle => exact idle
  case cycleDetection => exact options ▸ only.cycleDetection
  case staged => exact sweeps.sets ▸ only.staged
  case grounded =>
    exact only.grounded.congr (congrArg Arena.cells foreign) fun o mem => sweeps.sets ▸ mem
  case bridges => exact fun o h bridged => size ▸ only.bridges o h (foreign ▸ bridged)
  case edges => exact fun h k edge => size ▸ only.edges h k ((HostHeap.points_congr same).1 edge)
  case roots => exact fun h mem => size ▸ only.roots h (sweeps.onward.roots ▸ mem)

end World

namespace Demo

namespace Scene

variable {args : Arguments} {s : Scene} {l : Ledger} {a : Arena} {i m n : Nat} {is : List Nat}

/-! ## Rounds -/

/-- The program rests but before the verdict of the first round. -/
theorem interfere_of_ne {phase : Phase} (other : phase ≠ .marked) (rings : List (List ObjectId))
    (i : Nat) (a : Arena) : interfere args rings i phase a = .ok a :=
  if_neg fun acts => other acts.2.2

theorem interfere_of_rests {rings : List (List ObjectId)}
    (rests : i ≠ 0 ∨ args.mutate = false ∨ rings.length < 2) :
    interfere args rings i = fun _ a => .ok a := by
  funext phase a
  unfold interfere
  split
  · next acts =>
    split
    · simp only [acts, ne_eq, not_true_eq_false, false_or, reduceCtorEq, List.length_cons] at rests
      omega
    · rfl
  · rfl

/-- A round of a steady scene. -/
theorem exists_round (args : Arguments) (i : Nat) (steady : s.world.Steady l)
    (acts : interfere args s.rings i .marked s.world.foreign = .ok a)
    (disturbed : World.Steady { s.world with foreign := a } l) :
    ∃ r dead x, s.round args i = .ok (r, { s with world := x }) ∧ r.number = i ∧
      r.outcome = x.collector.lastOutcome ∧ s.world.Collects l a r.steps dead x ∧
      s.world.begun.collectWith (interfere args s.rings i) = .ok (r.steps, x) := by
  obtain ⟨n, dead, x, collected, collects⟩ :=
    steady.exists_collectWith (fun _ a other => interfere_of_ne other s.rings i a) acts disturbed
  exact ⟨{ number := i, steps := n, outcome := x.collector.lastOutcome }, dead, x,
    bind_eq_ok.2 ⟨_, collected, rfl⟩, rfl, rfl, collects, collected⟩

/-- What each round keeps holds after all of them. -/
theorem exists_runRounds (args : Arguments) (is : List Nat) {P : Scene → Prop} {Q : Round → Prop}
    (step : ∀ i ∈ is, ∀ s, P s → ∃ r s', s.round args i = .ok (r, s') ∧ r.number = i ∧ Q r ∧ P s')
    (start : P s) :
    ∃ rounds s', s.runRounds args is = .ok (rounds, s') ∧ rounds.map Round.number = is ∧
      (∀ r ∈ rounds, Q r) ∧ P s' := by
  induction is generalizing s with
  | nil => exact ⟨[], s, rfl, rfl, by simp, start⟩
  | cons i is ih =>
    obtain ⟨r, s₁, first, rfl, told, kept⟩ := step i List.mem_cons_self s start
    obtain ⟨rounds, s₂, others, numbers, told', kept'⟩ :=
      ih (fun j mem => step j (List.mem_cons_of_mem _ mem)) kept
    exact ⟨r :: rounds, s₂, bind_eq_ok.2 ⟨_, first, bind_eq_ok.2 ⟨_, others, rfl⟩⟩,
      by simp [numbers], List.forall_mem_cons.2 ⟨told, told'⟩, kept'⟩

/-- The first round may differ from the others. -/
theorem exists_runRounds_range {r : Round} {s₁ : Scene} {P : Scene → Prop} {Q : Round → Prop}
    (first : s.round args 0 = .ok (r, s₁)) (number : r.number = 0) (start : P s₁)
    (step : ∀ i ≠ 0, ∀ s, P s → ∃ r s', s.round args i = .ok (r, s') ∧ r.number = i ∧ Q r ∧ P s')
    (n : Nat) :
    ∃ rounds s₂, s.runRounds args (List.range (n + 1)) = .ok (r :: rounds, s₂) ∧
      (r :: rounds).map Round.number = List.range (n + 1) ∧
      (∀ r ∈ rounds, r.number ≠ 0 ∧ Q r) ∧ P s₂ := by
  rw [List.range_succ_eq_map]
  obtain ⟨rounds, s₂, others, numbers, told, kept⟩ := exists_runRounds args
    ((List.range n).map Nat.succ) (fun i mem => step i (by rintro rfl; simp at mem)) start
  refine ⟨rounds, s₂, bind_eq_ok.2 ⟨_, first, bind_eq_ok.2 ⟨_, others, rfl⟩⟩,
    by simp [number, numbers], fun r mem => ⟨fun zero => ?_, told r mem⟩, kept⟩
  have listed : r.number ∈ rounds.map Round.number := List.mem_map_of_mem mem
  simp [numbers, zero] at listed

/-! ## Collections that nobody disturbs -/

/-- How many steps a round takes with an eager host heap and no limit on scans. -/
def Paced (args : Arguments) (r : Round) : Prop :=
  args.scansPerStep = none → args.lazyHostTrace = false → r.steps = 3

theorem paced_of_collects {w x : World Arena} {r : Round} {dead : List ObjectId}
    (collects : w.Collects l a r.steps dead x) (options : w.collector.options = args.options) :
    Paced args r := by
  intro unlimited eager
  refine collects.steps ?_ ?_ <;> rw [options]
  · exact unlimited
  · simp [Arguments.options, eager]

structure Ready (args : Arguments) (l : Ledger) (s : Scene) : Prop where
  steady : s.world.Steady l
  options : s.world.collector.options = args.options
  size : s.world.foreign.size = args.rings * args.ringSize

/-- A round in which the program rests releases what is not live. -/
theorem Ready.exists_round (ready : Ready args l s)
    (rests : interfere args s.rings i = fun _ a => .ok a) :
    ∃ r dead x, s.round args i = .ok (r, { s with world := x }) ∧ r.number = i ∧ Paced args r ∧
      r.outcome = some (.collected dead.length 0 0) ∧ Ready args l { s with world := x } ∧
      s.world.begun.collect = .ok (r.steps, x) ∧
      s.world.Collects l s.world.foreign r.steps dead x := by
  obtain ⟨r, dead, x, ran, number, outcome, collects, collected⟩ :=
    Scene.exists_round args i ready.steady (by rw [rests]) ready.steady
  rw [rests] at collected
  obtain ⟨released, b, cells, done⟩ := collects.releases fun _ _ => rfl
  have size : x.foreign.size = s.world.foreign.size := by
    rw [Arena.size_releaseAll done, Arena.size, cells]
    rfl
  have ready' : Ready args l { s with world := x } :=
    ⟨collects.steady, collects.options.trans ready.options, size.trans ready.size⟩
  exact ⟨r, dead, x, ran, number, paced_of_collects collects ready.options, outcome.trans released,
    ready', collected, collects⟩

/-- A scene that is ready after a collection that nobody disturbed, and has `n` objects left. -/
structure Rested (args : Arguments) (l : Ledger) (n : Nat) (s : Scene) : Prop
    extends Ready args l s where
  follows : ∃ (w : World Arena) (k : Nat), w.Steady l ∧ w.begun.collect = .ok (k, s.world)
  live : s.world.foreign.liveObjects.length = n

/-- The next round finds nothing. -/
theorem Rested.exists_round (rested : Rested args l n s) (later : i ≠ 0) :
    ∃ r s', s.round args i = .ok (r, s') ∧ r.number = i ∧
      (Paced args r ∧ r.outcome = some (.collected 0 0 0)) ∧ Rested args l n s' := by
  obtain ⟨r, dead, x, ran, number, paced, outcome, ready, collected, collects⟩ :=
    rested.toReady.exists_round (interfere_of_rests (.inl later))
  obtain ⟨w, k, steady, before⟩ := rested.follows
  obtain ⟨released, b, cells, done⟩ := collects.releases fun _ _ => rfl
  obtain ⟨legacy, nothing⟩ := steady.nothing_of_collect before rested.steady collected
  -- the outcome names the dead, so there are none
  obtain ⟨none, -⟩ : dead.length = 0 ∧ 0 = legacy := by
    simpa using released.symm.trans nothing
  obtain rfl := List.length_eq_zero_iff.1 none
  obtain rfl : b = x.foreign := pure_eq_ok.1 done
  refine ⟨r, _, ran, number, ⟨paced, outcome⟩, ready,
    ⟨s.world, r.steps, rested.steady, collected⟩, ?_⟩
  rw [← rested.live, Arena.length_liveObjects, Arena.length_liveObjects, Arena.size, cells,
    ← Arena.size]
  simp only [Arena.isReleased_congr cells]

section

variable (built : Built args args.rings s) (nonempty : 1 ≤ args.ringSize)

include built

theorem Built.ready (nonempty : 1 ≤ args.ringSize) (on : args.disableCycles = false) :
    Ready args (args.ledger args.rings) s :=
  ⟨built.steady nonempty on, built.options, built.size⟩

theorem Built.length_liveObjects_start :
    s.world.foreign.liveObjects.length = args.rings * args.ringSize := by
  have left : ∀ j, s.world.foreign.isReleased ⟨j⟩ = .ok false ↔ j < args.rings * args.ringSize :=
    fun j => built.unreleased_iff
  rw [Arena.length_liveObjects, built.size, List.countP_eq_length.2 fun j mem => ?_,
    List.length_range]
  simpa [left] using mem

include nonempty

/-- The first round if the program rests: what is not live is released. -/
theorem Built.exists_round_zero (on : args.disableCycles = false)
    (rests : args.mutate = false ∨ args.rings < 2) :
    ∃ r s', s.round args 0 = .ok (r, s') ∧ r.number = 0 ∧ Paced args r ∧
      r.outcome = some (.collected (args.ringSize * args.deadRings) 0 0) ∧
      Rested args (args.ledger args.rings) (args.ringSize * args.aliveRings) s' := by
  have few : args.rings < 2 → s.rings.length < 2 := fun few => by simpa [built.rings] using few
  obtain ⟨r, dead, x, ran, number, paced, outcome, ready, collected, collects⟩ :=
    (built.ready nonempty on).exists_round (interfere_of_rests (.inr (rests.imp_right few)))
  rw [built.length_dead nonempty collects.nodup collects.mem_dead] at outcome
  refine ⟨r, _, ran, number, paced, outcome, ready,
    ⟨s.world, r.steps, built.steady nonempty on, collected⟩, ?_⟩
  obtain ⟨-, b, cells, done⟩ := collects.releases fun _ _ => rfl
  refine length_liveObjects nonempty ready.size fun o => ?_
  have dead_iff := built.dead_iff nonempty o
  have unreleased_iff : s.world.foreign.isReleased o = .ok false ↔ _ := built.unreleased_iff
  rw [Arena.isReleased_eq_false_of_releaseAll collects.nodup done, Arena.isReleased_congr cells,
    collects.mem_dead, dead_iff, unreleased_iff]
  grind

/-! ## A change before the verdict -/

theorem Built.exists_rings (two : 2 ≤ args.rings) :
    ∃ os os' rest, s.rings = (args.object 0 0 :: os) :: (args.object 1 0 :: os') :: rest := by
  obtain ⟨m, same⟩ := Nat.exists_eq_add_of_le' two
  obtain ⟨os, first⟩ := Arguments.exists_ring nonempty 0
  obtain ⟨os', second⟩ := Arguments.exists_ring nonempty 1
  exact ⟨os, os', _, by simp [built.rings, same, List.range_succ_eq_map, first, second]; rfl⟩

omit nonempty in
/-- A reference more or less does not make a count look like a bias. -/
theorem Built.small_of_redirected {f : ObjectId → Cell → Cell}
    (alters : Arena.Alters f s.world.foreign a) (books : a.Books (args.ledger args.rings) [])
    (few : ∀ o c, (f o c).refcount ≤ c.refcount + 1) : a.Small (args.ledger args.rings) := by
  intro o
  have roomy : 4 ≤ Refcount.hostBias := by decide
  by_cases bound : o.index < s.world.foreign.size
  · obtain ⟨c, hc⟩ := Arena.cell_of_lt bound
    have before := built.books.accurate o c hc
    have after := books.accurate o _ (alters.cell o c hc)
    have le := built.stored_le o
    have more := few o c
    omega
  · have unheld : o ∉ (args.ledger args.rings).held := fun mem => bound (built.books.held o mem)
    rw [books.stored_eq_zero (by rw [alters.size]; omega), List.count_eq_zero.2 unheld]
    omega

/-- The scene stays steady if the program points the first ring into the second one. -/
theorem Built.exists_interfere (on : args.disableCycles = false) (mutate : args.mutate = true)
    (two : 2 ≤ args.rings) :
    ∃ a, interfere args s.rings 0 .marked s.world.foreign = .ok a ∧
      Arena.Alters (Arena.redirected (args.object 0 0) 0 (args.object 1 0)
        (args.object 0 (1 % args.ringSize))) s.world.foreign a ∧
      World.Steady { s.world with foreign := a } (args.ledger args.rings) := by
  have next : 1 % args.ringSize < args.ringSize := Nat.mod_lt _ nonempty
  have first : 0 < args.rings := by omega
  have refers : (args.cell 0 0).references[0]? = some (args.object 0 (1 % args.ringSize)) := by
    simp [Arguments.cell]
  obtain ⟨a, pointed, alters⟩ := Arena.exists_retarget (p := args.object 1 0)
    (built.cell 0 first 0 nonempty) refers (built.size ▸ Arguments.index_object_lt first next)
    (built.size ▸ Arguments.index_object_lt two nonempty) fun c hc => by
      obtain ⟨i, -, k, -, -, rfl⟩ := built.exists_of_cell hc
      have few := args.refcount_cell_lt i k
      have roomy : Refcount.hostBias + 3 < Refcount.limit := by decide
      omega
  have books := built.books.retarget pointed
  have small := built.small_of_redirected alters books fun o c => by
    have once : [args.object 1 0].count o ≤ 1 := List.count_le_length
    simp only [Arena.redirected]
    omega
  refine ⟨a, ?_, alters, (built.steady nonempty on).of_alters alters books small (fun _ _ => rfl)
    (fun _ _ => rfl) (fun _ _ => rfl) (fun _ _ => rfl) fun o c hc released => ?_⟩
  · obtain ⟨os, os', rest, rings⟩ := built.exists_rings nonempty two
    simpa [interfere, mutate, rings] using pointed
  · obtain ⟨i, -, k, -, -, rfl⟩ := built.exists_of_cell hc
    exact absurd released Bool.false_ne_true

section

variable (two : 2 ≤ args.rings)
  (alters : Arena.Alters (Arena.redirected (args.object 0 0) 0 (args.object 1 0)
    (args.object 0 (1 % args.ringSize))) s.world.foreign a)

include two alters

/-- Two counts have changed, of an object of the first ring and of one of the second ring. -/
theorem Built.exists_differs : ∀ i < 2, ∃ k < args.ringSize,
    a.refcount (args.object i k) ≠ s.world.foreign.refcount (args.object i k) := by
  have next : 1 % args.ringSize < args.ringSize := Nat.mod_lt _ nonempty
  have counts : ∀ {i k}, i < args.rings → k < args.ringSize →
      (a.refcount (args.object i k) = s.world.foreign.refcount (args.object i k) ↔
        (args.cell i k).refcount + [args.object 1 0].count (args.object i k) -
          [args.object 0 (1 % args.ringSize)].count (args.object i k) =
            (args.cell i k).refcount) := by
    intro i k ring place
    have before := built.cell i ring k place
    rw [Arena.refcount, Arena.refcount, before, alters.cell _ _ before]
    exact ⟨fun same => Except.ok.inj same, fun same => congrArg Except.ok same⟩
  intro i bound
  obtain rfl | rfl : i = 0 ∨ i = 1 := by omega
  · refine ⟨_, next, fun same => ?_⟩
    rw [counts (by omega) next] at same
    have apart : [args.object 1 0].count (args.object 0 (1 % args.ringSize)) = 0 := by
      simp [Arguments.object_eq_iff nonempty next]
    have positive : 0 < (args.cell 0 (1 % args.ringSize)).refcount := by
      simp only [Arguments.cell]
      omega
    rw [apart, List.count_cons_self] at same
    omega
  · refine ⟨0, nonempty, fun same => ?_⟩
    rw [counts two nonempty] at same
    have apart : [args.object 0 (1 % args.ringSize)].count (args.object 1 0) = 0 := by
      simp [Arguments.object_eq_iff next nonempty]
    rw [apart, List.count_cons_self] at same
    omega

omit two in
/-- The objects of rings that are not alive are as before if the first two rings are alive. -/
theorem Built.cell_eq_of_alive (first : args.Alive 0) (second : args.Alive 1) {o : ObjectId}
    (bound : o.index < args.rings * args.ringSize) (dead : ¬args.Alive (o.index / args.ringSize)) :
    a.cell o = s.world.foreign.cell o := by
  have next : 1 % args.ringSize < args.ringSize := Nat.mod_lt _ nonempty
  obtain ⟨i, ring, k, place, rfl⟩ := Arguments.exists_object bound
  rw [Arguments.div_object place] at dead
  have apart : ∀ {j k'}, args.Alive j → k' < args.ringSize →
      args.object j k' ≠ args.object i k := by
    intro j k' alive place' same
    obtain ⟨rfl, -⟩ := (Arguments.object_eq_iff place' place).1 same
    exact dead alive
  have before := built.cell i ring k place
  rw [alters.cell _ _ before, before]
  simp [Arena.redirected, apart first next, apart second nonempty, (apart first nonempty).symm]

end

/-- The first round if the program changes a reference. If the objects concerned are alive it makes
no difference. If not, nothing is released. -/
theorem Built.exists_round_zero_of_mutate (on : args.disableCycles = false)
    (mutate : args.mutate = true) (two : 2 ≤ args.rings) :
    ∃ r s', s.round args 0 = .ok (r, s') ∧ r.number = 0 ∧ Paced args r ∧
      Ready args (args.ledger args.rings) s' ∧
      (args.Alive 0 ∧ args.Alive 1 →
        r.outcome = some (.collected (args.ringSize * args.deadRings) 0 0)) ∧
      (¬(args.Alive 0 ∧ args.Alive 1) → r.outcome = some .resurrected ∧
        s'.world.foreign.liveObjects = s.world.foreign.liveObjects) := by
  obtain ⟨a, acts, alters, disturbed⟩ := built.exists_interfere nonempty on mutate two
  obtain ⟨r, dead, x, ran, number, outcome, collects, -⟩ :=
    exists_round args 0 (built.steady nonempty on) acts disturbed
  have mem_dead : ∀ o, o ∈ dead ↔
      o.index < args.rings * args.ringSize ∧ ¬args.Alive (o.index / args.ringSize) :=
    fun o => (collects.mem_dead o).trans (built.dead_iff nonempty o)
  -- either what has changed is alive, or an object that is not has another count
  have through : args.Alive 0 ∧ args.Alive 1 → x.collector.lastOutcome =
      some (.collected dead.length 0 0) ∧ x.foreign.size = a.size := by
    rintro ⟨first, second⟩
    obtain ⟨released, b, cells, done⟩ := collects.releases fun o mem => by
      obtain ⟨bound, unreached⟩ := (mem_dead o).1 mem
      exact built.cell_eq_of_alive nonempty alters first second bound unreached
    refine ⟨released, ?_⟩
    rw [Arena.size_releaseAll done, Arena.size, cells]
    rfl
  have fails : ¬(args.Alive 0 ∧ args.Alive 1) →
      x.collector.lastOutcome = some .resurrected ∧ x.foreign = a := by
    intro broken
    obtain ⟨i, few, unreached⟩ : ∃ i < 2, ¬args.Alive i := by
      rcases not_and_or.1 broken with first | second
      · exact ⟨0, by omega, first⟩
      · exact ⟨1, by omega, second⟩
    obtain ⟨k, place, differs⟩ := built.exists_differs nonempty two alters i few
    refine collects.fails ⟨args.object i k, (mem_dead _).2 ⟨?_, ?_⟩, differs⟩
    · exact Arguments.index_object_lt (by omega) place
    · rwa [Arguments.div_object place]
  refine ⟨r, _, ran, number, paced_of_collects collects built.options, ⟨collects.steady,
    collects.options.trans built.options, ?_⟩, fun alive => ?_, fun broken => ?_⟩
  · rw [← built.size, ← alters.size]
    by_cases alive : args.Alive 0 ∧ args.Alive 1
    · exact (through alive).2
    · exact congrArg Arena.size (fails alive).2
  · rw [outcome, (through alive).1, built.length_dead nonempty collects.nodup collects.mem_dead]
  · obtain ⟨resurrected, foreign⟩ := fails broken
    have same : ∀ o, a.isReleased o = s.world.foreign.isReleased o :=
      fun o => alters.map_cell (fun _ _ => rfl) o
    exact ⟨outcome.trans resurrected,
      by simp only [foreign, Arena.liveObjects_eq, Arena.objects, alters.size, same]⟩

end

/-! ## Sweeps -/

/-- A scene whose collector does not look for cycles only sweeps. -/
theorem Built.sweepsOnly (built : Built args m s) (nonempty : 1 ≤ args.ringSize)
    (off : args.disableCycles = true) : s.world.SweepsOnly where
  idle := built.idle
  cycleDetection := by simp [built.options, Arguments.options, off]
  staged := List.eq_nil_iff_forall_not_mem.2 fun o mem => by simpa using (built.members _ o).1 mem
  grounded :=
    ⟨fun _ tracked => built.unreleased_iff.2 (built.contains.1 tracked), built.books.stored⟩
  bridges _ _ := built.bridge_valid nonempty
  edges _ _ points := absurd points built.not_points
  roots _ := built.root_valid

/-- Every round of such a scene is one step and leaves the objects as they are. -/
theorem exists_round_of_sweepsOnly (only : s.world.SweepsOnly) (i : Nat) :
    ∃ r s', s.round args i = .ok (r, s') ∧ r.number = i ∧
      (r.steps = 1 ∧ r.outcome = some .swept) ∧
      s'.world.SweepsOnly ∧ s'.world.foreign = s.world.foreign := by
  have rests : ∀ a, interfere args s.rings i .idle a = .ok a :=
    fun a => interfere_of_ne (by decide) s.rings i a
  obtain ⟨x, collected, outcome, foreign, only'⟩ := only.exists_collectWith rests
  exact ⟨_, _, bind_eq_ok.2 ⟨_, collected, rfl⟩, rfl, ⟨rfl, outcome⟩, only', foreign⟩

end Scene

/-! ## The report -/

/-- The report is printed as a line for each round, which ends in these words, a line for the
objects that are left, and the statistics. -/
def Report.Prints (report : Report) (words : Round → String) : Prop :=
  report.lines =
    (report.rounds.map fun r =>
      "round " ++ toString r.number ++ ": " ++ toString r.steps ++ " steps, " ++ words r) ++
    [toString report.live ++ " of " ++ toString report.total ++ " foreign objects alive"] ++
    report.stats.lines

/-- What there is to report of a scene, and how it is printed. -/
structure Expected (args : Arguments) (s : Scene) (report : Report) : Prop where
  total : report.total = args.rings * args.ringSize
  numbers : report.rounds.map Round.number = List.range args.rounds
  swept : args.disableCycles = true →
    (∀ r ∈ report.rounds, r.steps = 1 ∧ r.outcome = some .swept) ∧ report.live = report.total ∧
      report.Prints fun _ => "Some(Swept)"
  /-- With an eager host heap and no limit on scans a round takes three steps. -/
  paced : args.disableCycles = false → args.scansPerStep = none → args.lazyHostTrace = false →
    ∀ r ∈ report.rounds, r.steps = 3
  /-- If nothing disturbs them, the first round releases what is not alive and the others
  nothing. -/
  rested : args.disableCycles = false → args.mutate = false ∨ args.rings < 2 →
    (∀ r ∈ report.rounds, r.outcome =
      some (.collected (if r.number = 0 then args.ringSize * args.deadRings else 0) 0 0)) ∧
      report.live = (if args.rounds = 0 then report.total else args.ringSize * args.aliveRings) ∧
      report.Prints fun r =>
        toString (if r.number = 0 then args.ringSize * args.deadRings else 0) ++ " objects released"
  /-- If the program interferes, it depends on the first two rings whether anything is released. -/
  mutated : args.disableCycles = false → args.mutate = true → 2 ≤ args.rings →
    (∀ r ∈ report.rounds, r.number = 0 → ∃ next, s.round args 0 = .ok (r, next) ∧
      (args.Alive 0 ∧ args.Alive 1 →
        r.outcome = some (.collected (args.ringSize * args.deadRings) 0 0)) ∧
      (¬(args.Alive 0 ∧ args.Alive 1) → r.outcome = some .resurrected ∧
        next.world.foreign.liveObjects = s.world.foreign.liveObjects)) ∧
      report.Prints fun r =>
        if r.number ≠ 0 then r.ending
        else if args.Alive 0 ∧ args.Alive 1 then
          toString (args.ringSize * args.deadRings) ++ " objects released"
        else "Some(Resurrected)"

theorem Report.prints_of_ending {report : Report} {words : Round → String}
    (told : ∀ r ∈ report.rounds, r.ending = words r) : report.Prints words := by
  have rounds : report.rounds.map Round.line = report.rounds.map fun r =>
      "round " ++ toString r.number ++ ": " ++ toString r.steps ++ " steps, " ++ words r :=
    List.map_congr_left fun r mem => by rw [Round.line, told r mem]
  rw [Prints, lines, census, rounds]

theorem Round.ending_of_collected {r : Round} {n : Nat}
    (outcome : r.outcome = some (.collected n 0 0)) :
    r.ending = toString n ++ " objects released" := by
  simp only [ending, outcome]

section

variable {args : Arguments} {s : Scene} (built : Scene.Built args args.rings s)
  (nonempty : 1 ≤ args.ringSize)

include built nonempty

theorem expected_of_sweeps (off : args.disableCycles = true) :
    ∃ rounds s', s.runRounds args (List.range args.rounds) = .ok (rounds, s') ∧
      Expected args s (s'.report rounds) := by
  obtain ⟨rounds, s', ran, numbers, told, -, foreign⟩ :=
    Scene.exists_runRounds args (List.range args.rounds)
      (P := fun s' => s'.world.SweepsOnly ∧ s'.world.foreign = s.world.foreign)
      (fun i _ s₁ kept => by
        obtain ⟨r, s₂, ran, number, told, only, same⟩ :=
          Scene.exists_round_of_sweepsOnly kept.1 i
        exact ⟨r, s₂, ran, number, told, only, same.trans kept.2⟩)
      ⟨built.sweepsOnly nonempty off, rfl⟩
  have size : s'.world.foreign.size = args.rings * args.ringSize := foreign ▸ built.size
  have live : s'.world.foreign.liveObjects.length = args.rings * args.ringSize :=
    foreign ▸ built.length_liveObjects_start
  refine ⟨rounds, s', ran, size, numbers, fun _ => ⟨told, live.trans size.symm, ?_⟩, ?_, ?_, ?_⟩
  · exact Report.prints_of_ending fun r mem => by simp only [Round.ending, (told r mem).2]
  all_goals simp [off]

theorem expected_of_rests (on : args.disableCycles = false)
    (rests : args.mutate = false ∨ args.rings < 2) :
    ∃ rounds s', s.runRounds args (List.range args.rounds) = .ok (rounds, s') ∧
      Expected args s (s'.report rounds) := by
  have disturbs : ¬(args.mutate = true ∧ 2 ≤ args.rings) := by
    rintro ⟨mutate, two⟩
    exact rests.elim (by simp [mutate]) (by omega)
  cases count : args.rounds with
  | zero =>
    refine ⟨[], s, rfl, built.size, by simp [Scene.report, count], by simp [on],
      fun _ _ _ => nofun, fun _ _ => ⟨nofun, ?_, Report.prints_of_ending nofun⟩,
      fun _ mutate two => absurd ⟨mutate, two⟩ disturbs⟩
    rw [count, if_pos rfl]
    exact built.length_liveObjects_start.trans built.size.symm
  | succ n =>
    obtain ⟨r, s₁, first, number, paced, released, rested⟩ :=
      built.exists_round_zero nonempty on rests
    obtain ⟨rounds, s₂, ran, numbers, told, rested'⟩ :=
      Scene.exists_runRounds_range first number rested
        (fun i later _ rested => rested.exists_round later) n
    have outcomes : ∀ q ∈ r :: rounds, q.outcome =
        some (.collected (if q.number = 0 then args.ringSize * args.deadRings else 0) 0 0) := by
      refine List.forall_mem_cons.2 ⟨by rw [released, if_pos number], fun q mem => ?_⟩
      obtain ⟨later, -, outcome⟩ := told q mem
      rw [outcome, if_neg later]
    refine ⟨r :: rounds, s₂, ran, rested'.size, count ▸ numbers, by simp [on],
      fun _ unlimited lazy => ?_, fun _ _ => ⟨outcomes, ?_, Report.prints_of_ending fun q mem =>
        Round.ending_of_collected (outcomes q mem)⟩,
      fun _ mutate two => absurd ⟨mutate, two⟩ disturbs⟩
    · exact List.forall_mem_cons.2
        ⟨paced unlimited lazy, fun r mem => (told r mem).2.1 unlimited lazy⟩
    · rw [count, if_neg (Nat.succ_ne_zero n)]
      exact rested'.live

theorem expected_of_mutate (on : args.disableCycles = false) (mutate : args.mutate = true)
    (two : 2 ≤ args.rings) :
    ∃ rounds s', s.runRounds args (List.range args.rounds) = .ok (rounds, s') ∧
      Expected args s (s'.report rounds) := by
  have rests : ¬(args.mutate = false ∨ args.rings < 2) := by
    rintro (off | few)
    · simp [mutate] at off
    · omega
  cases count : args.rounds with
  | zero =>
    exact ⟨[], s, rfl, built.size, by simp [Scene.report, count], by simp [on],
      fun _ _ _ => nofun, fun _ rest => absurd rest rests,
      fun _ _ _ => ⟨nofun, Report.prints_of_ending nofun⟩⟩
  | succ n =>
    obtain ⟨r, s₁, first, number, paced, ready, alive, broken⟩ :=
      built.exists_round_zero_of_mutate nonempty on mutate two
    obtain ⟨rounds, s₂, ran, numbers, told, ready'⟩ :=
      Scene.exists_runRounds_range (Q := Scene.Paced args) first number ready
        (fun i later s₁ ready => by
          obtain ⟨r, _, x, ran, number, paced, -, ready', -⟩ :=
            ready.exists_round (i := i) (Scene.interfere_of_rests (.inl later))
          exact ⟨r, _, ran, number, paced, ready'⟩) n
    refine ⟨r :: rounds, s₂, ran, ready'.size, count ▸ numbers, by simp [on],
      fun _ unlimited lazy => ?_, fun _ rest => absurd rest rests,
      fun _ _ _ => ⟨?_, Report.prints_of_ending ?_⟩⟩
    · exact List.forall_mem_cons.2
        ⟨paced unlimited lazy, fun r mem => (told r mem).2 unlimited lazy⟩
    · exact List.forall_mem_cons.2
        ⟨fun _ => ⟨s₁, first, alive, broken⟩, fun r mem zero => absurd zero (told r mem).1⟩
    · refine List.forall_mem_cons.2 ⟨?_, fun r mem => (if_pos (told r mem).1).symm⟩
      rw [if_neg (not_not.2 number)]
      by_cases both : args.Alive 0 ∧ args.Alive 1
      · rw [if_pos both, Round.ending_of_collected (alive both)]
      · simp only [if_neg both, Round.ending, (broken both).1]

end

/-- The demonstration reports what is expected, whatever its arguments. -/
theorem exists_report (args : Arguments) (nonempty : 1 ≤ args.ringSize) :
    ∃ s report, Scene.build args = .ok s ∧ run args = .ok report ∧ Expected args s report := by
  obtain ⟨s, scene, built⟩ := Scene.exists_build nonempty
  obtain ⟨rounds, s', ran, expected⟩ : ∃ rounds s',
      s.runRounds args (List.range args.rounds) = .ok (rounds, s') ∧
        Expected args s (s'.report rounds) := by
    cases off : args.disableCycles with
    | true => exact expected_of_sweeps built nonempty off
    | false =>
      by_cases rests : args.mutate = false ∨ args.rings < 2
      · exact expected_of_rests built nonempty off rests
      · rw [not_or, Bool.not_eq_false, Nat.not_lt] at rests
        exact expected_of_mutate built nonempty off rests.1 rests.2
  have performed : perform args = .ok (s'.report rounds) :=
    bind_eq_ok.2 ⟨s, scene, bind_eq_ok.2 ⟨_, ran, rfl⟩⟩
  refine ⟨s, _, scene, ?_, expected⟩
  rw [run, if_neg (by omega), performed]
  rfl

/-- The program holds the first two of three rings and points the one into the other. The first
round releases the third ring, one scan at a time. -/
theorem exists_report_held :
    let args : Arguments :=
      { rings := 3, ringSize := 2, held := 2, mutate := true, scansPerStep := some 1 }
    1 ≤ args.ringSize ∧ ∃ s report, Scene.build args = .ok s ∧ run args = .ok report ∧
      Expected args s report ∧ report.lines = ["round 0: 5 steps, 2 objects released",
        "round 1: 5 steps, 0 objects released", "4 of 6 foreign objects alive"] ++
          report.stats.lines := by
  intro args
  let rounds : List Round := [{ number := 0, steps := 5, outcome := some (.collected 2 0 0) },
    { number := 1, steps := 5, outcome := some (.collected 0 0 0) }]
  have told : (fun report : Report => (report.live, report.rounds)) <$> perform args =
      .ok (4, rounds) := by decide +kernel
  obtain ⟨s, report, scene, ran, expected⟩ := exists_report args (by decide)
  refine ⟨by decide, s, report, scene, ran, expected, ?_⟩
  obtain ⟨report', performed, same⟩ := map_eq_ok.1 told
  have ran' : run args = .ok report' := by
    rw [run, if_neg (by decide), performed]
    rfl
  obtain rfl := Except.ok.inj (ran'.symm.trans ran)
  obtain ⟨live, ended⟩ := Prod.mk.inj same
  obtain ⟨-, printed⟩ := expected.mutated rfl rfl (by decide)
  rw [printed, expected.total, live, ended]
  refine congrArg (· ++ report'.stats.lines) ?_
  decide +kernel

end Demo

end CycleCollector
