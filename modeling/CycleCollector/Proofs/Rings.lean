import CycleCollector.Demo.Run
import CycleCollector.Proofs.RingAllocation
import CycleCollector.Proofs.Steady
import CycleCollector.Proofs.TrackingOrder
/-!
# The rings of the demonstration

The scene is built ring by ring, and after each ring every object is known: its count, its reference
to the next object of its ring, and its bridge. The program holds the last object of some rings, and
the first objects of all rings may be bridged to host objects, some of them roots. Both heaps agree
with the books of the program, so a scene whose collector looks for cycles is steady.

## Main definitions

* `Demo.Arguments.cell`, `Demo.Arguments.ledger`: the objects of a scene, and what the program
  holds.
* `Demo.Scene.Built`: a scene after some rings.

## Main statements

* `Demo.Scene.exists_build`: there is a scene for all arguments.
* `Demo.Scene.Built.steady`: it is steady.
-/

namespace CycleCollector.Demo

namespace Arguments

variable (args : Arguments)

def object (i k : Nat) : ObjectId := ⟨i * args.ringSize + k⟩

def ring (i : Nat) : List ObjectId := ObjectId.range (i * args.ringSize) args.ringSize

def cell (i k : Nat) : Cell where
  refcount := 1 + (if args.bridged = true ∧ k = 0 then Refcount.hostBias else 0) +
    if i < args.held ∧ k + 1 = args.ringSize then 1 else 0
  references := [args.object i ((k + 1) % args.ringSize)]
  bridge := if args.bridged = true ∧ k = 0 then some ⟨i⟩ else none

def ledger (m : Nat) : Ledger where
  held := ((List.range m).filter (· < args.held)).reverse.map fun i =>
    args.object i (args.ringSize - 1)
  linked := if args.bridged then (List.range m).reverse.map (args.object · 0) else []

def roots (m : Nat) : List HostRef :=
  if args.bridged then ((List.range m).filter (· < args.rooted)).map HostRef.mk else []

variable {args} {i j k m : Nat} {o : ObjectId} {h : HostRef}

theorem refcount_cell_lt (args : Arguments) (i k : Nat) :
    (args.cell i k).refcount < Refcount.hostBias + 3 := by
  simp only [cell]
  split <;> split <;> omega

theorem object_inj : args.object i j = args.object i k ↔ j = k := by simp [object]

theorem div_object (bound : k < args.ringSize) : (args.object i k).index / args.ringSize = i := by
  rw [object, Nat.mul_comm, Nat.mul_add_div (Nat.zero_lt_of_lt bound), Nat.div_eq_of_lt bound]
  rfl

theorem object_eq_iff {i' k' : Nat} (bound : k < args.ringSize) (bound' : k' < args.ringSize) :
    args.object i k = args.object i' k' ↔ i = i' ∧ k = k' := by
  constructor
  · intro same
    obtain rfl : i = i' := by rw [← div_object (i := i) bound, same, div_object bound']
    exact ⟨rfl, object_inj.1 same⟩
  · rintro ⟨rfl, rfl⟩
    rfl

theorem exists_object (bound : o.index < m * args.ringSize) :
    ∃ i < m, ∃ k < args.ringSize, o = args.object i k := by
  have some : 0 < args.ringSize := Nat.pos_of_ne_zero fun none => by simp [none] at bound
  refine ⟨o.index / args.ringSize, Nat.div_lt_of_lt_mul (Nat.mul_comm _ _ ▸ bound),
    o.index % args.ringSize, Nat.mod_lt _ some, ?_⟩
  rw [object, Nat.mul_comm, Nat.div_add_mod]

theorem index_object_lt (ring : i < m) (place : k < args.ringSize) :
    (args.object i k).index < m * args.ringSize := by
  calc i * args.ringSize + k
    _ < i * args.ringSize + args.ringSize := Nat.add_lt_add_left place _
    _ = (i + 1) * args.ringSize := (Nat.succ_mul ..).symm
    _ ≤ m * args.ringSize := Nat.mul_le_mul_right _ ring

theorem mem_ring : o ∈ args.ring i ↔
    i * args.ringSize ≤ o.index ∧ o.index < (i + 1) * args.ringSize := by
  rw [Nat.succ_mul]
  constructor
  · intro mem
    obtain ⟨j, hj, rfl⟩ := List.mem_map.1 mem
    simpa using hj
  · intro bounds
    exact List.mem_map.2 ⟨o.index, by simpa using bounds, rfl⟩

theorem exists_ring (nonempty : 1 ≤ args.ringSize) (i : Nat) :
    ∃ os, args.ring i = args.object i 0 :: os := by
  obtain ⟨n, same⟩ := Nat.exists_eq_add_of_le' nonempty
  simp [ring, ObjectId.range, object, same, List.range'_succ]

theorem getLast?_ring (nonempty : 1 ≤ args.ringSize) (i : Nat) :
    (args.ring i).getLast? = some (args.object i (args.ringSize - 1)) := by
  have some : args.ringSize ≠ 0 := by omega
  simp [ring, ObjectId.range, object, List.getLast?_map, List.getLast?_range', some,
    Nat.add_sub_assoc nonempty]

theorem mem_held : o ∈ (args.ledger m).held ↔
    ∃ i < m, i < args.held ∧ o = args.object i (args.ringSize - 1) := by
  simp only [ledger, List.mem_map, List.mem_reverse, List.mem_filter, List.mem_range,
    decide_eq_true_eq, and_assoc, eq_comm (a := o)]

theorem ledger_succ : args.ledger (m + 1) =
    { held := if m < args.held then args.object m (args.ringSize - 1) :: (args.ledger m).held
        else (args.ledger m).held
      linked := if args.bridged then args.object m 0 :: (args.ledger m).linked
        else (args.ledger m).linked } := by
  simp only [ledger, List.range_succ, List.filter_append, List.reverse_append, List.map_append]
  split <;> split <;> simp [*]

theorem mem_roots :
    h ∈ args.roots m ↔ args.bridged = true ∧ h.index < m ∧ h.index < args.rooted := by
  unfold roots
  split
  · next bridged =>
    simp only [List.mem_map, List.mem_filter, List.mem_range, decide_eq_true_eq, bridged, true_and]
    constructor
    · rintro ⟨i, bounds, rfl⟩
      exact bounds
    · exact fun bounds => ⟨h.index, bounds, rfl⟩
  · next apart => simp [apart]

theorem roots_succ : args.roots (m + 1) =
    if args.bridged = true ∧ m < args.rooted then args.roots m ++ [⟨m⟩] else args.roots m := by
  simp only [roots, List.range_succ, List.filter_append, List.map_append]
  split <;> split <;> simp_all

end Arguments

namespace Scene

variable {args : Arguments} {s : Scene} {w : World Arena} {l : Ledger} {i m n : Nat}
  {o : ObjectId} {c : Cell} {os : List ObjectId}

/-! ## One ring -/

/-- Bridging a ring alters its first object, and gives the host heap another object. -/
theorem exists_bridge (args : Arguments) (i : Nat) (os : List ObjectId)
    (hc : w.foreign.cell o = .ok c)
    (room : c.refcount + Refcount.hostBias < Refcount.limit)
    (books : w.foreign.Books l []) (fresh : o ∉ l.linked) :
    ∃ a host, bridge args w i (o :: os) = .ok { w with foreign := a, host } ∧
      Arena.Alters (fun p c => if args.bridged = true ∧ p = o then
        { c with
          refcount := c.refcount + Refcount.hostBias
          bridge := some w.host.fresh } else c) w.foreign a ∧
      a.Books { l with linked := if args.bridged then o :: l.linked else l.linked } [] ∧
      host.objects = w.host.objects ++ Array.replicate (if args.bridged then 1 else 0) default ∧
      host.roots = if args.bridged = true ∧ i < args.rooted then w.host.roots ++ [w.host.fresh]
        else w.host.roots := by
  cases bridged : args.bridged with
  | false =>
    refine ⟨w.foreign, w.host, ?_, ⟨rfl, fun p c hc => by simpa using hc⟩, by simpa using books,
      by simp, by simp⟩
    simp [bridge, bridged]
  | true =>
    obtain ⟨a, linked, alters⟩ := Arena.exists_link (h := w.host.fresh) hc room
    refine ⟨a, if i < args.rooted then (w.host.alloc 1).2.addRoot w.host.fresh
      else (w.host.alloc 1).2, ?_, alters.congr fun p c => by simp,
      by simpa using books.link fresh linked, ?_, ?_⟩
    · simp only [bridge, bridged]
      exact bind_eq_ok.2 ⟨a, linked, rfl⟩
    · split <;> rfl
    · simp only [true_and]
      split <;> rfl

/-- Holding a ring counts its last object once more. -/
theorem exists_hold (args : Arguments) (i : Nat) (last : os.getLast? = some o)
    (hc : w.foreign.cell o = .ok c) (room : c.refcount + 1 < Refcount.limit)
    (books : w.foreign.Books l []) :
    ∃ a, hold args w i os = .ok { w with foreign := a } ∧
      Arena.Alters (fun p c => if i < args.held ∧ p = o then
        { c with refcount := c.refcount + 1 } else c) w.foreign a ∧
      a.Books { l with held := if i < args.held then o :: l.held else l.held } [] := by
  by_cases held : i < args.held
  · obtain ⟨a, counted, alters⟩ := Arena.exists_raise (n := 1) hc room
    refine ⟨a, ?_, alters.congr fun p c => by simp [held], by simpa [held] using books.hold counted⟩
    simp only [hold, held, last, decide_true]
    exact bind_eq_ok.2 ⟨a, counted, rfl⟩
  · refine ⟨w.foreign, ?_, ⟨rfl, fun p c hc => by simpa [held] using hc⟩,
      by simpa [held] using books⟩
    simp [hold, held]

/-! ## The scene -/

structure Built (args : Arguments) (m : Nat) (s : Scene) : Prop where
  rings : s.rings = (List.range m).map args.ring
  size : s.world.foreign.size = m * args.ringSize
  cell : ∀ i < m, ∀ k < args.ringSize, s.world.foreign.cell (args.object i k) = .ok (args.cell i k)
  books : s.world.foreign.Books (args.ledger m) []
  objects : s.world.host.objects = Array.replicate (if args.bridged then m else 0) default
  roots : s.world.host.roots = args.roots m
  orderly : s.world.collector.Orderly
  idle : s.world.collector.phase = .idle
  options : s.world.collector.options = args.options
  members : ∀ r o, o ∈ s.world.collector.sets.members r ↔
    r = .new ∧ o.index < m * args.ringSize

theorem Built.exists_of_cell (built : Built args m s) (hc : s.world.foreign.cell o = .ok c) :
    ∃ i < m, ∃ k < args.ringSize, o = args.object i k ∧ c = args.cell i k := by
  obtain ⟨i, ring, k, place, rfl⟩ :=
    Arguments.exists_object (built.size ▸ Arena.lt_size_of_cell hc)
  exact ⟨i, ring, k, place, rfl, Except.ok.inj (hc.symm.trans (built.cell i ring k place))⟩

theorem Built.contains (built : Built args m s) :
    s.world.collector.sets.contains o = true ↔ o.index < m * args.ringSize := by
  simp [TrackedSets.contains_iff_exists_mem, built.members]

theorem built_start (args : Arguments) :
    Built args 0 { world := { collector := { options := args.options }, foreign := {} } } where
  rings := rfl
  size := by simp [Arena.size]
  cell := nofun
  books := ⟨fun o c hc => by simp [Arena.cell] at hc, fun o c hc => by simp [Arena.cell] at hc,
    by simp [Arguments.ledger], by simp [Arguments.ledger]⟩
  objects := by simp
  roots := by simp [Arguments.roots]
  orderly := .start args.options
  idle := rfl
  options := rfl
  members := by simp

/-- Another ring can be added. It leaves the others as they are. -/
theorem Built.exists_ring (built : Built args m s) (nonempty : 1 ≤ args.ringSize) :
    ∃ a host, addRing args s m = .ok {
        world := { collector := (s.world.collector.trackAll (args.ring m)).2, foreign := a, host }
        rings := s.rings ++ [args.ring m] } ∧
      a.size = (m + 1) * args.ringSize ∧
      (∀ i < m, ∀ k < args.ringSize, a.cell (args.object i k) = .ok (args.cell i k)) ∧
      (∀ k < args.ringSize, a.cell (args.object m k) = .ok (args.cell m k)) ∧
      a.Books (args.ledger (m + 1)) [] ∧
      host.objects = Array.replicate (if args.bridged then m + 1 else 0) default ∧
      host.roots = args.roots (m + 1) := by
  have roomy : Refcount.hostBias + 3 < Refcount.limit := by decide
  obtain ⟨a, allocated, size, old, new⟩ :=
    Arena.exists_allocRing (a := s.world.foreign) args.ringSize fun o c hc => by
      obtain ⟨i, -, k, -, -, rfl⟩ := built.exists_of_cell hc
      exact Nat.lt_trans (args.refcount_cell_lt i k) roomy
  rw [built.size] at allocated size new
  replace new : ∀ k < args.ringSize, a.cell (args.object m k) =
      .ok { refcount := 1, references := [args.object m ((k + 1) % args.ringSize)] } := new
  obtain ⟨os, ring⟩ := Arguments.exists_ring nonempty m
  replace allocated : s.world.foreign.allocRing args.ringSize = .ok (args.object m 0 :: os, a) :=
    ring ▸ allocated
  have fresh : args.object m 0 ∉ (args.ledger m).linked := fun mem => by
    have bound := built.books.linked _ mem
    rw [built.size] at bound
    exact absurd bound (by simp [Arguments.object])
  -- the first object is bridged and the last one held, and both may be the same
  obtain ⟨a₁, host, bridged, alters₁, books₁, objects, roots⟩ :=
    exists_bridge args m os (w := ⟨s.world.collector, a, s.world.host⟩)
      (new 0 nonempty) (by dsimp only; omega) (built.books.allocRing allocated) fresh
  have last : args.ringSize - 1 < args.ringSize := by omega
  obtain ⟨a₂, held, alters₂, books₂⟩ :=
    exists_hold args m (w := ⟨s.world.collector, a₁, host⟩)
      (ring ▸ Arguments.getLast?_ring nonempty m)
      (alters₁.cell _ _ (new _ last)) (by split <;> dsimp only <;> omega) books₁
  have alters := alters₁.trans alters₂
  dsimp only at objects roots alters
  have counterpart : args.bridged = true → s.world.host.fresh = ⟨m⟩ := fun bridged => by
    simp [HostHeap.fresh, built.objects, bridged]
  refine ⟨a₂, host, ?_, alters.size.trans (size.trans (Nat.succ_mul ..).symm),
    fun i earlier k place => ?_, fun k place => ?_, Arguments.ledger_succ ▸ books₂, ?_, ?_⟩
  · rw [ring]
    exact bind_eq_ok.2 ⟨_, allocated, bind_eq_ok.2 ⟨_, bridged, bind_eq_ok.2 ⟨_, held, rfl⟩⟩⟩
  · have other : ∀ k' < args.ringSize, args.object i k ≠ args.object m k' := by
      intro k' place' same
      exact absurd ((Arguments.object_eq_iff place place').1 same).1 (Nat.ne_of_lt earlier)
    rw [alters.cell _ _ (old _ _ (built.cell i earlier k place))]
    simp only [other 0 nonempty, other _ last, and_false, if_false]
  · rw [alters.cell _ _ (new k place)]
    have ends : k = args.ringSize - 1 ↔ k + 1 = args.ringSize := by omega
    simp only [Arguments.object_inj, ends, Arguments.cell]
    split <;> split <;> simp_all
  · rw [objects, built.objects]
    split <;> simp [Array.replicate_succ]
  · rw [roots, built.roots, Arguments.roots_succ]
    split
    · next root => rw [counterpart root.1]
    · rfl

theorem Built.exists_addRing (built : Built args m s) (nonempty : 1 ≤ args.ringSize) :
    ∃ s', addRing args s m = .ok s' ∧ Built args (m + 1) s' := by
  obtain ⟨a, host, added, size, old, new, books, objects, roots⟩ := built.exists_ring nonempty
  have tracks := s.world.collector.tracks_trackAll (args.ring m)
  refine ⟨_, added, ?_⟩
  constructor
  case rings => simp [built.rings, List.range_succ]
  case size => exact size
  case cell =>
    intro i ring k place
    rcases Nat.lt_succ_iff_lt_or_eq.1 ring with earlier | rfl
    · exact old i earlier k place
    · exact new k place
  case books => exact books
  case objects => exact objects
  case roots => exact roots
  case orderly => exact tracks.orderly built.orderly
  case idle => exact tracks.phase.trans built.idle
  case options => exact tracks.options.trans built.options
  case members =>
    intro r o
    rw [tracks.members, built.members, Arguments.mem_ring, ← Bool.not_eq_true, built.contains,
      Nat.succ_mul]
    grind

/-- There is a scene for all arguments that ask for objects in the rings. -/
theorem exists_build (nonempty : 1 ≤ args.ringSize) :
    ∃ s, build args = .ok s ∧ Built args args.rings s := by
  have after : ∀ m, ∃ s, (List.range m).foldlM (addRing args)
      { world := { collector := { options := args.options }, foreign := {} } } = .ok s ∧
        Built args m s := by
    intro m
    induction m with
    | zero => exact ⟨_, rfl, built_start args⟩
    | succ m ih =>
      obtain ⟨s, before, built⟩ := ih
      obtain ⟨s', added, built'⟩ := built.exists_addRing nonempty
      refine ⟨s', ?_, built'⟩
      rw [List.range_succ, List.foldlM_append]
      exact bind_eq_ok.2 ⟨s, before, bind_eq_ok.2 ⟨s', added, rfl⟩⟩
  exact after args.rings

namespace Built

variable {h k : HostRef} (built : Built args m s)

include built

theorem unreleased_iff : s.world.Unreleased o ↔ o.index < m * args.ringSize := by
  constructor
  · intro unreleased
    obtain ⟨c, hc, -⟩ := map_eq_ok.1 unreleased
    exact built.size ▸ Arena.lt_size_of_cell hc
  · intro bound
    obtain ⟨i, ring, k, place, rfl⟩ := Arguments.exists_object bound
    exact map_eq_ok.2 ⟨_, built.cell i ring k place, rfl⟩

theorem bridge_iff (nonempty : 1 ≤ args.ringSize) : s.world.foreign.bridge o = .ok (some h) ↔
    args.bridged = true ∧ h.index < m ∧ o = args.object h.index 0 := by
  constructor
  · intro bridge
    obtain ⟨c, hc, bridge⟩ := map_eq_ok.1 bridge
    obtain ⟨i, ring, k, place, rfl, rfl⟩ := built.exists_of_cell hc
    simp only [Arguments.cell] at bridge
    split at bridge
    · next first =>
      obtain rfl := Option.some.inj bridge
      exact ⟨first.1, ring, by rw [first.2]⟩
    · exact nomatch bridge
  · rintro ⟨bridged, ring, rfl⟩
    exact map_eq_ok.2 ⟨_, built.cell _ ring 0 nonempty, by simp [Arguments.cell, bridged]⟩

/-- The host objects have no edges, and none is prebuilt. -/
theorem object_eq {x : HostObject} {i : Nat} (hx : s.world.host.objects[i]? = some x) :
    x = default := by
  rw [built.objects, Array.getElem?_replicate, Option.ite_none_right_eq_some] at hx
  exact (Option.some.inj hx.2).symm

theorem not_points : ¬HostHeap.Points s.world.host.objects h k := by
  rintro ⟨x, hx, mem⟩
  rw [built.object_eq hx] at mem
  exact nomatch mem

theorem not_prebuilt : ¬HostHeap.Prebuilt s.world.host.objects h := by
  rintro ⟨x, hx, prebuilt⟩
  rw [built.object_eq hx] at prebuilt
  exact nomatch prebuilt

theorem bridge_valid (nonempty : 1 ≤ args.ringSize)
    (bridge : s.world.foreign.bridge o = .ok (some h)) : h.index < s.world.host.objects.size := by
  obtain ⟨bridged, ring, -⟩ := (built.bridge_iff nonempty).1 bridge
  simpa [built.objects, bridged] using ring

theorem root_valid (mem : h ∈ s.world.host.roots) : h.index < s.world.host.objects.size := by
  rw [built.roots, Arguments.mem_roots] at mem
  simpa [built.objects, mem.1] using mem.2.1

/-- Apart from the bias, no object is counted more than twice. -/
theorem stored_le (o : ObjectId) :
    s.world.foreign.stored o + (args.ledger m).held.count o ≤ 2 := by
  by_cases bound : o.index < m * args.ringSize
  · obtain ⟨i, ring, k, place, rfl⟩ := Arguments.exists_object bound
    have tally := built.books.accurate _ _ (built.cell i ring k place)
    have bias : args.bridged = true ∧ k = 0 → args.object i k ∈ (args.ledger m).linked := by
      rintro ⟨bridged, rfl⟩
      simp only [Arguments.ledger, bridged, if_true]
      exact List.mem_map.2 ⟨i, by simpa using ring, rfl⟩
    simp only [Arguments.cell, Ledger.bias] at tally
    grind
  · have held : o ∉ (args.ledger m).held := fun mem =>
      bound (built.size ▸ built.books.held o mem)
    rw [built.books.stored_eq_zero (by rw [built.size]; omega), List.count_eq_zero.2 held]
    exact Nat.zero_le 2

/-- A scene whose collector looks for cycles is steady. -/
theorem steady (nonempty : 1 ≤ args.ringSize) (on : args.disableCycles = false) :
    s.world.Steady (args.ledger m) := by
  constructor
  case orderly => exact built.orderly
  case held => exact built.books.held
  case linked => exact built.books.linked
  constructor
  case idle => exact built.idle
  case cycleDetection => simp [built.options, Arguments.options, on]
  case tracked => exact fun o => built.contains.trans built.unreleased_iff.symm
  case roles =>
    exact fun o tracked => .inl ((built.members .new o).2 ⟨rfl, built.contains.1 tracked⟩)
  case accurate => exact built.books.accurate
  case small => exact fun o => Nat.lt_of_le_of_lt (built.stored_le o) (by decide)
  case plain =>
    intro o c hc
    obtain ⟨i, -, k, -, -, rfl⟩ := built.exists_of_cell hc
    exact ⟨rfl, rfl⟩
  case emptied =>
    intro o c hc released
    obtain ⟨i, -, k, -, -, rfl⟩ := built.exists_of_cell hc
    exact nomatch released
  case closed => exact built.books.stored
  case bridges => exact fun o h => built.bridge_valid nonempty
  case edges => exact fun h k points => absurd points built.not_points
  case roots => exact fun h => built.root_valid

end Built

end Scene

end CycleCollector.Demo
