import CycleCollector.Proofs.Draining
import CycleCollector.Proofs.WholePass
/-!
# Marking computes a least fixed point

Liveness starts at the records that are held from outside and at the bridges that the host heap
knows, and spreads along edges, and through the host heap from bridge to bridge. Whatever the bound
on scans, whether bridges are traced at once or later, and however marking steps and drains take
turns: when marking has ended, the records found alive are those that liveness can come to, and each
of their bridges was handed to the host heap once.

## Main definitions

* `HostHeap.Through`: a path of edges whose sources are not marked.
* `Marking.Comes`: where liveness comes to, as the least set closed under everything that passes it
  on.
* `Marking.Hands`: which bridges were handed to the host heap, in order.
* `World.MarksOn`: marking steps and drains in any order.

## Main statements

* `Marking.Spreads.comes_of_alive`, `Marking.Spreads.processed_of_comes`: the two bounds.
* `Marking.Hands.visit`: no bridge is handed over twice.
* `World.processed_iff_comes`: the end of marking.
-/

namespace CycleCollector

/-- A path of edges from `h`, perhaps empty, that leaves only objects not marked yet. -/
inductive HostHeap.Through (objects : Array HostObject) (h : HostRef) : HostRef → Prop
  | refl : Through objects h h
  | step {k j : HostRef} : Through objects h k → ¬Marked objects k → Points objects k j →
      Through objects h j

namespace Marking

open HostHeap (Marked Prebuilt Points Through)

variable {s₀ s : Snapshot} {g₀ g : HostHeap} {i : Nat} {r : Snapshot.Record} {h : HostRef}

/-! ## Where liveness comes to -/

/-- Liveness comes to position `i` of a snapshot, as far as the two graphs tell. -/
inductive Comes (s : Snapshot) (g : HostHeap) : Nat → Prop
  | held {i : Nat} {r : Snapshot.Record} : s.records[i]? = some r → 0 < r.external → Comes s g i
  | edge {i j : Nat} {r : Snapshot.Record} : Comes s g i → s.records[i]? = some r → j ∈ r.edges →
      Comes s g j
  | known {i : Nat} {r : Snapshot.Record} {h : HostRef} : s.records[i]? = some r →
      r.bridge = some h → Marked g.objects h ∨ Prebuilt g.objects h → Comes s g i
  | listed {i : Nat} {r : Snapshot.Record} {h k : HostRef} : s.records[i]? = some r →
      r.bridge = some h → k ∈ g.worklist → Through g.objects k h → Comes s g i
  | crossed {i j : Nat} {r q : Snapshot.Record} {h k : HostRef} : Comes s g j →
      s.records[j]? = some q → q.bridge = some k → Through g.objects k h →
      s.records[i]? = some r → r.bridge = some h → Comes s g i

def ComesTo (s : Snapshot) (g : HostHeap) (h : HostRef) : Prop :=
  (∃ k ∈ g.worklist, Through g.objects k h) ∨
    ∃ j q k, Comes s g j ∧ s.records[j]? = some q ∧ q.bridge = some k ∧ Through g.objects k h

/-- What liveness comes to is closed under what passes it on. -/
theorem closed_comes (s : Snapshot) (g : HostHeap) : Closed (Comes s g) (ComesTo s g) s g where
  edge _ _ _ comes hr edge := comes.edge hr edge
  handed i r h comes hr bridged := .inr ⟨i, r, h, comes, hr, bridged, .refl⟩
  points h k comes unmarked edge := by
    rcases comes with ⟨l, mem, path⟩ | ⟨j, q, l, comes, hq, bridged, path⟩
    · exact .inl ⟨l, mem, path.step unmarked edge⟩
    · exact .inr ⟨j, q, l, comes, hq, bridged, path.step unmarked edge⟩
  bridged i r h hr bridged alive := by
    rcases alive with marked | prebuilt | ⟨k, mem, path⟩ | ⟨j, q, k, comes, hq, crossing, path⟩
    · exact .known hr bridged (.inl marked)
    · exact .known hr bridged (.inr prebuilt)
    · exact .listed hr bridged mem path
    · exact .crossed comes hq crossing path hr bridged

theorem within_comes (s : Snapshot) (g : HostHeap) : Within (Comes s g) (ComesTo s g) g s g where
  alive _ _ hr positive := .held hr positive
  confined := ⟨fun k mem => .inl ⟨k, mem, .refl⟩, fun _ => .inl⟩

/-- A record is alive only if liveness comes to it. -/
theorem Spreads.comes_of_alive (spreads : Spreads s₀ g₀ s g) (hr : s.records[i]? = some r)
    (alive : 0 < r.external) : Comes s₀ g₀ i :=
  (spreads.within _ _ (closed_comes s₀ g₀) (within_comes s₀ g₀)).alive i r hr alive

/-- With nothing left to trace, a path through unmarked objects from a marked one is marked. -/
theorem marked_of_through (onward : g₀.Onward g) (drained : g.worklist = []) {k : HostRef}
    (marked : Marked g.objects k) (path : Through g₀.objects k h) : Marked g.objects h := by
  induction path with
  | refl => exact marked
  | step _ unmarked edge ih => simpa [unmarked, drained] using onward.traced _ _ ih edge

/-- At a fixed point, whatever keeps a record alive has been found. -/
theorem processed_of_quiet (quiet : s.Quiet g) (hr : s.records[i]? = some r)
    (alive : 0 < r.external ∨ g.reaches r.bridge = .ok true) : r.processed = true := by
  rcases quiet r (Array.mem_of_getElem? hr) with processed | ⟨dead, unreached⟩
  · exact processed
  · simp [dead, unreached] at alive

/-- At a fixed point, a record with a bridge that is known to be alive has been found. -/
theorem Course.processed_of_known {r₀ : Snapshot.Record} (course : Course s₀ g₀ s g)
    (quiet : s.Quiet g) (hr₀ : s₀.records[i]? = some r₀) (bridged : r₀.bridge = some h)
    (hr : s.records[i]? = some r) (known : Marked g.objects h ∨ Prebuilt g.objects h) :
    r.processed = true := by
  obtain ⟨q, hq, same⟩ := Snapshot.exists_of_frozen_eq course.frozen hr₀
  obtain rfl := Option.some.inj (hr.symm.trans hq)
  have bridge : r.bridge = r₀.bridge := (congrArg Snapshot.Record.bridge same :)
  refine processed_of_quiet quiet hr (.inr ?_)
  exact HostHeap.reaches_eq_ok_true.2 ⟨h, bridge.trans bridged, known⟩

/-- With nothing left to trace, the bridge of a record that was found alive is marked. -/
theorem Course.marked_of_processed {r₀ : Snapshot.Record} (course : Course s₀ g₀ s g)
    (drained : g.worklist = []) (hr₀ : s₀.records[i]? = some r₀) (bridged : r₀.bridge = some h)
    (processed : ∀ r, s.records[i]? = some r → r.processed = true) : Marked g.objects h := by
  obtain ⟨r, hr, same⟩ := Snapshot.exists_of_frozen_eq course.frozen hr₀
  have bridge : r.bridge = r₀.bridge := (congrArg Snapshot.Record.bridge same :)
  simpa [drained] using
    course.handed r (Array.mem_of_getElem? hr) (processed r hr) h (bridge.trans bridged)

/-- At a fixed point with nothing left to trace, every record that liveness comes to has been
found. -/
theorem Course.processed_of_comes (course : Course s₀ g₀ s g) (quiet : s.Quiet g)
    (drained : g.worklist = []) (comes : Comes s₀ g₀ i) (hr : s.records[i]? = some r) :
    r.processed = true := by
  have onward := course.onward
  induction comes generalizing r with
  | held hr₀ positive =>
    exact processed_of_quiet quiet hr (.inl (course.held _ _ r hr₀ hr positive))
  | edge _ hr₀ edge ih =>
    obtain ⟨q, hq, same⟩ := Snapshot.exists_of_frozen_eq course.frozen hr₀
    have edges : q.edges = _ := (congrArg Snapshot.Record.edges same :)
    refine processed_of_quiet quiet hr (.inl ?_)
    exact course.passed _ _ q r hq (ih hq) (edges ▸ edge) hr
  | known hr₀ bridged known =>
    refine course.processed_of_known quiet hr₀ bridged hr (known.imp (onward.marked _) ?_)
    exact (HostHeap.prebuilt_congr onward.same).2
  | @listed _ _ _ k hr₀ bridged mem path =>
    have start : Marked g.objects k := by simpa [drained] using onward.listed k mem
    exact course.processed_of_known quiet hr₀ bridged hr
      (.inl (marked_of_through onward drained start path))
  | crossed _ hq crossing path hr₀ bridged ih =>
    have start := course.marked_of_processed drained hq crossing fun _ => ih
    exact course.processed_of_known quiet hr₀ bridged hr
      (.inl (marked_of_through onward drained start path))

/-! ## What is handed over -/

end Marking

def Snapshot.bridgeAt (s : Snapshot) (i : Nat) : Option HostRef :=
  s.records[i]?.bind Snapshot.Record.bridge

theorem Snapshot.bridgeAt_congr {s s' : Snapshot} (same : s'.frozen = s.frozen) (i : Nat) :
    s'.bridgeAt i = s.bridgeAt i := by
  have at_i := congrArg (fun s : Snapshot => s.bridgeAt i) same
  simpa [bridgeAt, frozen, Option.bind_map, Function.comp_def, Record.frozen] using at_i

theorem HostHeap.promoted_of_receive {g g' : HostHeap} {eager : Bool} {bridge : Option HostRef}
    (received : g.receive eager bridge = .ok g') :
    g'.promoted = g.promoted ++ bridge.toList := by
  cases bridge with
  | none =>
    obtain rfl := Except.ok.inj received
    simp
  | some h =>
    simp only [receive] at received
    split at received
    · exact promoted_of_drain received
    · obtain rfl := Except.ok.inj received
      rfl

namespace Marking

variable {s₀ s : Snapshot} {g₀ g g' : HostHeap} {m m' : Marking} {eager : Bool} {i : Nat}

/-- The bridges of the records found alive, in the order in which they were found, are what was
handed to the host heap. -/
structure Hands (s₀ : Snapshot) (g₀ : HostHeap) (order : List Nat) (s : Snapshot) (g : HostHeap) :
    Prop where
  once : order.Nodup
  found : ∀ i, i ∈ order ↔ (∃ r, s.records[i]? = some r ∧ r.processed = true) ∧
    (s₀.bridgeAt i).isSome
  promoted : g.promoted = g₀.promoted ++ order.filterMap s₀.bridgeAt

theorem Hands.start (unprocessed : ∀ r ∈ s.records, r.processed = false) (g : HostHeap) :
    Hands s g [] s g where
  once := .nil
  found i := by
    suffices ∀ r, s.records[i]? = some r → ¬r.processed = true by simp; grind
    intro r hr
    simp [unprocessed r (Array.mem_of_getElem? hr)]
  promoted := by simp

theorem Hands.drain {order : List Nat} (hands : Hands s₀ g₀ order s g)
    (drained : g.drain = .ok g') : Hands s₀ g₀ order s g' :=
  ⟨hands.once, hands.found, (HostHeap.promoted_of_drain drained).trans hands.promoted⟩

/-- A visit hands over at most the bridge of the record that it finds, which was not found
before. -/
theorem Hands.visit {order : List Nat} (hands : Hands s₀ g₀ order m.snapshot m.host)
    (frozen : m.snapshot.frozen = s₀.frozen) (v : Visits eager m i m') :
    ∃ order, Hands s₀ g₀ order m'.snapshot m'.host := by
  cases v with
  | quiet => exact ⟨order, hands⟩
  | @finds r external host hr unprocessed positive _ received =>
    have bridge : s₀.bridgeAt i = r.bridge := by
      rw [← Snapshot.bridgeAt_congr frozen, Snapshot.bridgeAt, hr, Option.bind_some]
    have fresh : i ∉ order := by
      intro mem
      obtain ⟨⟨q, hq, processed⟩, -⟩ := (hands.found i).1 mem
      obtain rfl := Option.some.inj (hr.symm.trans hq)
      simp [unprocessed] at processed
    have processed : ∀ j, (∃ q, (m.snapshot.settle i r external).records[j]? = some q ∧
        q.processed = true) ↔ j = i ∨ ∃ q, m.snapshot.records[j]? = some q ∧
          q.processed = true := by
      intro j
      rw [Snapshot.getElem?_settle hr]
      by_cases same : j = i <;> simp [same]
    have promoted := (HostHeap.promoted_of_receive received).trans
      (congrArg (· ++ r.bridge.toList) hands.promoted)
    cases bridged : r.bridge with
    | none =>
      refine ⟨order, hands.once, fun j => ?_, by simpa [bridged] using promoted⟩
      rw [hands.found, processed]
      grind
    | some h =>
      refine ⟨order ++ [i], ?_, fun j => ?_, ?_⟩
      · simpa [List.nodup_append] using ⟨hands.once, fun j mem same => fresh (same ▸ mem)⟩
      · rw [List.mem_append, hands.found, processed, List.mem_singleton]
        grind
      · simp [promoted, bridged, bridge]

end Marking

namespace World

variable {ρ : Type} [ForeignHeap ρ] {w w' : World ρ} {s₀ : Snapshot}

/-- Marking goes on: the collector takes marking steps, and the host heap is drained, in any order
and as often as either likes. -/
inductive MarksOn (w : World ρ) : World ρ → Prop
  | refl : MarksOn w w
  | mark {v v' : World ρ} : MarksOn w v → v.collector.phase = .marking → v.step = .ok (false, v') →
      MarksOn w v'
  | drain {v v' : World ρ} : MarksOn w v → v.drain = .ok v' → MarksOn w v'

omit [ForeignHeap ρ] in
/-- How far marking has come from the snapshot `s₀` and the host heap `g₀`: to the snapshot `s`,
with the bridges at the positions in `order` handed over. -/
structure Progressed (s₀ : Snapshot) (g₀ : HostHeap) (w : World ρ) (s : Snapshot)
    (order : List Nat) : Prop where
  snapshot : w.collector.snapshot? = some s
  balanced : s.Balanced
  spreads : Marking.Spreads s₀ g₀ s w.host
  hands : Marking.Hands s₀ g₀ order s w.host
  ended : w.collector.phase = .marked → s.Quiet w.host ∧ w.host.worklist = []

variable {g₀ : HostHeap} {s : Snapshot} {order : List Nat}

omit [ForeignHeap ρ] in
theorem Progressed.markStep (progressed : Progressed s₀ g₀ w s order)
    (marked : w.markStep = .ok w') : ∃ s order, Progressed s₀ g₀ w' s order := by
  obtain ⟨_, progress, m, stats, taken, ran, -, rfl⟩ := markStep_eq_ok marked
  obtain rfl := Option.some.inj (progressed.snapshot.symm.trans taken)
  obtain ⟨balanced, spreads, order, hands⟩ := Marking.run_induction
    (P := fun s g => s.Balanced ∧ Marking.Spreads s₀ g₀ s g ∧
      ∃ order, Marking.Hands s₀ g₀ order s g) ran
    ⟨progressed.balanced, progressed.spreads, order, progressed.hands⟩
    fun _ _ _ ⟨balanced, spreads, _, hands⟩ visits =>
      ⟨visits.balanced balanced, spreads.visit visits, hands.visit spreads.course.frozen visits⟩
  refine ⟨m.snapshot, order, rfl, balanced, spreads, hands, fun ended => ?_⟩
  dsimp only at ended
  split at ended
  · next fixed =>
    obtain ⟨rfl, empty⟩ := fixed
    exact ⟨Marking.quiet_of_run ran, by simpa [HostHeap.isDrained] using empty⟩
  · simp at ended

omit [ForeignHeap ρ] in
theorem Progressed.drain (progressed : Progressed s₀ g₀ w s order) (drained : w.drain = .ok w') :
    Progressed s₀ g₀ w' s order := by
  simp only [World.drain, bind_eq_ok, pure_eq_ok] at drained
  obtain ⟨host, drained, rfl⟩ := drained
  refine ⟨progressed.snapshot, progressed.balanced, progressed.spreads.drain drained,
    progressed.hands.drain drained,
    fun ended => ⟨fun r mem => ?_, HostHeap.worklist_of_drain drained⟩⟩
  obtain ⟨quiet, empty⟩ := progressed.ended ended
  have same := HostHeap.objects_of_drain (by simpa [HostHeap.isDrained] using empty) drained
  rw [HostHeap.reaches_congr same]
  exact quiet r mem

theorem MarksOn.progressed (goes : MarksOn w w') (marking : w.collector.phase = .marking)
    (taken : w.collector.snapshot? = some s₀) (balanced : s₀.Balanced)
    (unprocessed : ∀ r ∈ s₀.records, r.processed = false) :
    ∃ s order, Progressed s₀ w.host w' s order := by
  induction goes with
  | refl =>
    exact ⟨s₀, [], taken, balanced, .start unprocessed w.host, .start unprocessed w.host,
      by simp [marking]⟩
  | mark _ here stepped ih =>
    obtain ⟨s, order, progressed⟩ := ih
    cases step_eq_ok.1 stepped with
    | start idle => simp [here] at idle
    | mark _ marked => exact progressed.markStep marked
  | drain _ drained ih =>
    obtain ⟨s, order, progressed⟩ := ih
    exact ⟨s, order, progressed.drain drained⟩

/-- However marking steps and drains take turns, and from whatever state of the host heap, when
marking has ended the records that liveness comes to are found alive and all others are dead; and
the bridges of the former, each once, are all that was handed to the host heap meanwhile. -/
theorem processed_iff_comes {sets : TrackedSets} {foreign : ρ} {host : HostHeap} {taken : Snapshot}
    (htaken : Snapshot.take sets foreign host = .ok taken) (roots : taken.collectRoots = .ok s₀)
    (marking : w.collector.phase = .marking) (snapshot : w.collector.snapshot? = some s₀)
    (goes : MarksOn w w') (marked : w'.collector.phase = .marked) :
    ∃ s, w'.collector.snapshot? = some s ∧ s.frozen = s₀.frozen ∧
      (∀ (i : Nat) r, s.records[i]? = some r →
        (r.processed = true ↔ Marking.Comes s₀ w.host i) ∧
          (r.external = 0 ↔ ¬Marking.Comes s₀ w.host i)) ∧
      ∃ order : List Nat, order.Nodup ∧
        (∀ i, i ∈ order ↔ Marking.Comes s₀ w.host i ∧ (s₀.bridgeAt i).isSome) ∧
        w'.host.promoted = w.host.promoted ++ order.filterMap s₀.bridgeAt := by
  obtain ⟨balanced₀, unprocessed⟩ := Snapshot.balanced_of_take htaken roots
  obtain ⟨s, order, progressed⟩ := goes.progressed marking snapshot balanced₀ unprocessed
  obtain ⟨quiet, drained⟩ := progressed.ended marked
  have course := progressed.spreads.course
  have alive : ∀ (i : Nat) r, s.records[i]? = some r → r.processed = true → 0 < r.external :=
    fun i r hr => progressed.balanced.alive r (Array.mem_of_getElem? hr)
  have found : ∀ (i : Nat) r, s.records[i]? = some r →
      (r.processed = true ↔ Marking.Comes s₀ w.host i) := fun i r hr =>
    ⟨fun processed => progressed.spreads.comes_of_alive hr (alive i r hr processed),
      fun comes => course.processed_of_comes quiet drained comes hr⟩
  refine ⟨s, progressed.snapshot, course.frozen, fun i r hr => ⟨found i r hr, ?_⟩,
    order, progressed.hands.once, fun i => ?_, progressed.hands.promoted⟩
  · rw [← found i r hr]
    have positive := alive i r hr
    have dead := Marking.processed_of_quiet quiet hr
    grind
  · rw [progressed.hands.found]
    refine and_congr_left fun bridged => ?_
    rw [← Snapshot.bridgeAt_congr course.frozen, Snapshot.bridgeAt] at bridged
    cases hr : s.records[i]? with
    | none => simp [hr] at bridged
    | some r => simp [← found i r hr]

/-- One scan a step, and bridges that are traced later. Liveness goes from the object held from
outside through the host heap to a second object and on along its edge; a prebuilt counterpart and
the worklist keep two more alive. Nothing comes to the last object, whose bridge stays where it
is. -/
theorem processed_iff_comes_crossed :
    let foreign : Arena := { cells := #[
      { refcount := Refcount.hostBias, references := [⟨1⟩], bridge := some ⟨2⟩ },
      { refcount := 1 },
      { refcount := Refcount.hostBias + 1, bridge := some ⟨0⟩ },
      { refcount := Refcount.hostBias, bridge := some ⟨3⟩ },
      { refcount := Refcount.hostBias, bridge := some ⟨4⟩ },
      { refcount := Refcount.hostBias, bridge := some ⟨6⟩ }] }
    let host : HostHeap := {
      objects := #[{ edges := [⟨1⟩] }, { edges := [⟨2⟩] }, {}, { flags := { noHeapPtrs := true } },
        {}, { edges := [⟨4⟩] }, {}]
      worklist := [⟨5⟩] }
    let start : World Arena :=
      { collector := { options := { scansPerStep := some 1, eagerHostTrace := false } }
        foreign
        host }
    let w := start.after
      [.track ⟨0⟩, .track ⟨1⟩, .track ⟨2⟩, .track ⟨3⟩, .track ⟨4⟩, .track ⟨5⟩, .step]
    ∃ s₀ w', w.collector.snapshot? = some s₀ ∧ MarksOn w w' ∧ w'.collector.phase = .marked ∧
      (∀ i < 6, Marking.Comes s₀ w.host i ↔ i ≠ 5) ∧
      w'.host.promoted = [⟨0⟩, ⟨3⟩, ⟨2⟩, ⟨4⟩] := by
  intro foreign host start w
  let tracked := start.after
    [.track ⟨0⟩, .track ⟨1⟩, .track ⟨2⟩, .track ⟨3⟩, .track ⟨4⟩, .track ⟨5⟩]
  let drained (v : World Arena) : World Arena := v.after [.host (v.host.drain.toOption.getD {})]
  let w₁ := drained (w.after [.step])
  let w₂ := drained (w₁.after [.step])
  let w₃ := w₂.after [.step]
  have started : tracked.step = .ok (false, w) := by decide +kernel
  have first : MarksOn w w₁ := .drain
    (.mark .refl (by decide +kernel) (show w.step = .ok (false, w.after [.step]) by decide +kernel))
    (by decide +kernel)
  have second : MarksOn w w₂ := .drain
    (.mark first (by decide +kernel)
      (show w₁.step = .ok (false, w₁.after [.step]) by decide +kernel))
    (by decide +kernel)
  have third : MarksOn w w₃ := .mark second (by decide +kernel) (by decide +kernel)
  cases step_eq_ok.1 started with
  | mark marking => exact absurd marking (by decide +kernel)
  | start _ _ begun =>
    obtain ⟨v, taken, s₀, _, -, htaken, roots, -, same⟩ := startPass_eq_ok begun
    have snapshot : w.collector.snapshot? = some s₀ := by rw [same]
    obtain ⟨s, snapshot₃, -, found, -⟩ := processed_iff_comes htaken roots
      (show w.collector.phase = .marking by decide +kernel) snapshot third (by decide +kernel)
    refine ⟨s₀, w₃, snapshot, third, by decide +kernel, fun i bound => ?_, by decide +kernel⟩
    have flags : (w₃.collector.snapshot?.map fun s => s.records.map (·.processed)) =
        some #[true, true, true, true, true, false] := by decide +kernel
    rw [snapshot₃, Option.map_some, Option.some.injEq] at flags
    have all : ∀ i < 6, #[true, true, true, true, true, false][i]? = some (decide (i ≠ 5)) := by
      decide
    have at_i : (s.records[i]?).map (·.processed) = some (decide (i ≠ 5)) := by
      rw [← Array.getElem?_map, flags, all i bound]
    obtain ⟨r, hr, flag⟩ := Option.map_eq_some_iff.1 at_i
    rw [← (found i r hr).1]
    simp [flag]

end World

end CycleCollector
