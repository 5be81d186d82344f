import CycleCollector.Proofs.Tracing
/-!
# A drain is a search

A drain marks what the worklist leads to through objects that are not marked yet, and changes
nothing else. So it does not matter in which order the worklist names objects, how often it names
them, nor whether they are put on it all at once: they may come one after the other, stored by the
program or handed over by the collector, with drains in between.

## Main definitions

* `HostHeap.Awaits`: a path of unmarked objects leads from the worklist to an object.
* `HostHeap.Feed`, `HostHeap.feed`: what happens to the worklist during a collection.

## Main statements

* `HostHeap.marked_drain_iff`: a drain marks what is awaited.
* `HostHeap.drain_is_search`: all that a drain does, for every way of filling the worklist.
-/

namespace CycleCollector.HostHeap

variable {objects objects₁ objects₂ : Array HostObject} {stack stack' : List HostRef}
  {g g' k k' : HostHeap} {h : HostRef}

/-! ## What a drain marks -/

/-- A path of edges between unmarked objects leads from the worklist to an object. -/
inductive Awaits (g : HostHeap) : HostRef → Prop
  | listed {h : HostRef} : h ∈ g.worklist → ¬Marked g.objects h → Awaits g h
  | step {h k : HostRef} : Awaits g h → Points g.objects h k → ¬Marked g.objects k → Awaits g k

theorem Awaits.not_marked (awaits : g.Awaits h) : ¬Marked g.objects h := by
  cases awaits <;> assumption

/-- What is marked or awaited is closed under the edges of unmarked objects. -/
theorem marked_or_awaits_of_points {h k : HostRef} (reached : Marked g.objects h ∨ g.Awaits h)
    (fresh : ¬Marked g.objects h) (edge : Points g.objects h k) :
    Marked g.objects k ∨ g.Awaits k := by
  by_cases old : Marked g.objects k
  · exact .inl old
  · exact .inr ((reached.resolve_left fresh).step edge old)

theorem marked_or_awaits_of_mem (mem : h ∈ g.worklist) : Marked g.objects h ∨ g.Awaits h := by
  by_cases old : Marked g.objects h
  · exact .inl old
  · exact .inr (.listed mem old)

theorem Awaits.marked (awaits : g.Awaits h) (onward : Onward k k') (same : k.objects = g.objects)
    (listed : ∀ h ∈ g.worklist, Marked k'.objects h) (empty : k'.worklist = []) :
    Marked k'.objects h := by
  induction awaits with
  | listed mem _ => exact listed _ mem
  | step before edge _ ih =>
    have traced := onward.traced _ _ ih (same ▸ edge)
    simpa [empty, same, before.not_marked] using traced

/-- A trace marks what is awaited, and nothing else. -/
theorem marked_drain_iff (drained : g.drain = .ok g') :
    Marked g'.objects h ↔ Marked g.objects h ∨ g.Awaits h := by
  have onward := onward_drain drained
  have empty := worklist_of_drain drained
  constructor
  · intro marked
    have start : Confined (fun k => Marked g.objects k ∨ g.Awaits k) g g :=
      ⟨fun _ => marked_or_awaits_of_mem, fun _ => .inl⟩
    have confined := start.drain (.refl g) (fun _ _ => marked_or_awaits_of_points) drained
    exact (confined.marked h marked).elim .inl id
  · rintro (old | awaits)
    · exact onward.marked h old
    · exact awaits.marked onward rfl (fun h mem => by simpa [empty] using onward.listed h mem) empty

theorem promoted_of_drain (drained : g.drain = .ok g') : g'.promoted = g.promoted := by
  obtain ⟨_, -, rfl⟩ := drain_eq_ok.1 drained
  rfl

/-! ## Traces in any order -/

/-- Two host heaps that differ in marks only, and not in these, are the same. -/
theorem eq_of_marked_iff
    (same : objects₂.map HostObject.unmarked = objects₁.map HostObject.unmarked)
    (marked : ∀ h, Marked objects₂ h ↔ Marked objects₁ h) : objects₂ = objects₁ := by
  refine Array.ext_getElem? fun i => ?_
  cases hx : objects₁[i]? with
  | none =>
    have size := size_of_map_unmarked same
    rw [Array.getElem?_eq_none_iff] at hx ⊢
    omega
  | some x =>
    obtain ⟨y, hy, unmarked⟩ := exists_of_map_unmarked (h := ⟨i⟩) same hx
    have visited : y.flags.visited = x.flags.visited := by
      have flags := marked ⟨i⟩
      simp only [Marked, hx, hy, Option.some.injEq, exists_eq_left'] at flags
      exact Bool.eq_iff_iff.2 flags
    rw [hy]
    obtain ⟨⟨_, _⟩, _⟩ := x
    obtain ⟨⟨_, _⟩, _⟩ := y
    simp_all [HostObject.unmarked]

theorem Traces.marked_mono (ran : Traces objects stack objects₁)
    (ran' : Traces objects stack' objects₂)
    (subset : ∀ h ∈ stack, h ∈ stack') (marked : Marked objects₁ h) : Marked objects₂ h := by
  have within := ran.of_marked (H := Marked objects₂)
    (fun k mem => ran'.marked_of_mem (subset k mem))
    (fun k j holds unmarked edge => (ran'.marked_of_points holds edge).resolve_left unmarked) marked
  exact within.elim ran'.marked id

/-- Heaps that wait for the same objects look the same when they are drained. -/
theorem objects_of_drains (same : g'.objects = g.objects)
    (waiting : ∀ h, h ∈ g'.worklist ↔ h ∈ g.worklist) (drained : g.drain = .ok k)
    (drained' : g'.drain = .ok k') : k'.objects = k.objects := by
  obtain ⟨os, ran, rfl⟩ := drain_eq_ok.1 drained
  obtain ⟨os', ran', rfl⟩ := drain_eq_ok.1 drained'
  rw [same] at ran'
  have traces := traces_of_trace ran
  have traces' := traces_of_trace ran'
  refine eq_of_marked_iff (traces'.map_unmarked.trans traces.map_unmarked.symm) fun h => ?_
  exact ⟨traces'.marked_mono traces fun h => (waiting h).1,
    traces.marked_mono traces' fun h => (waiting h).2⟩

/-! ## Filling the worklist bit by bit -/

inductive Feed where
  | store (h : HostRef)
  | promote (h : HostRef)
  | drain
deriving DecidableEq, Repr

def Feed.listed : Feed → List HostRef
  | .store h | .promote h => [h]
  | .drain => []

def Feed.promoted : Feed → List HostRef
  | .promote h => [h]
  | .store _ | .drain => []

def feed (g : HostHeap) : Feed → Except Fault HostHeap
  | .store h => .ok (g.writeBarrier h)
  | .promote h => .ok (g.promote h)
  | .drain => g.drain

/-- The heap `g` has become `k`, nothing but objects of the set `H` was put on its worklist, all of
`listed` is dealt with or waits, and `promoted` was handed over. -/
structure Fed (H : HostRef → Prop) (g k : HostHeap) (listed promoted : List HostRef) : Prop where
  onward : Onward g k
  confined : Confined H g k
  listed : ∀ h ∈ listed, Marked k.objects h ∨ h ∈ k.worklist
  promoted : k.promoted = g.promoted ++ promoted

variable {H : HostRef → Prop} {listed promoted : List HostRef} {f : Feed} {fs : List Feed}

/-- An object of the set joins the worklist. -/
theorem Fed.list {handed : List HostRef} (fed : Fed H g k listed promoted) (holds : H h)
    (same : k' = { k with worklist := h :: k.worklist, promoted := k.promoted ++ handed }) :
    Fed H g k' (listed ++ [h]) (promoted ++ handed) := by
  subst same
  have onward : Onward k { k with worklist := h :: k.worklist, promoted := k.promoted ++ handed } :=
    ⟨rfl, rfl, fun _ => id, fun _ mem => .inr (List.mem_cons_of_mem _ mem),
      fun _ _ marked _ => .inl marked⟩
  refine ⟨fed.onward.trans onward, ⟨fun j mem => ?_, fed.confined.marked⟩, fun j mem => ?_, ?_⟩
  · rcases List.mem_cons.1 mem with rfl | mem
    · exact holds
    · exact fed.confined.worklist j mem
  · rcases List.mem_append.1 mem with mem | mem
    · exact (fed.listed j mem).imp id (List.mem_cons_of_mem h)
    · obtain rfl := List.mem_singleton.1 mem
      exact .inr List.mem_cons_self
  · simp only [fed.promoted, List.append_assoc]

theorem Fed.drain (fed : Fed H g k listed promoted)
    (closed : ∀ h j, H h → ¬Marked g.objects h → Points g.objects h j → H j)
    (drained : k.drain = .ok k') : Fed H g k' listed promoted where
  onward := fed.onward.trans (onward_drain drained)
  confined := fed.confined.drain fed.onward closed drained
  listed h mem := by
    rcases fed.listed h mem with marked | waits
    · exact .inl ((onward_drain drained).marked h marked)
    · exact (onward_drain drained).listed h waits
  promoted := (promoted_of_drain drained).trans fed.promoted

/-- Objects may be put on the worklist and traced in any order, as long as they are valid. -/
theorem Fed.exists_feed (fed : Fed H g k listed promoted)
    (closed : ∀ h j, H h → ¬Marked g.objects h → Points g.objects h j → H j)
    (valid : ∀ h, H h → h.index < g.objects.size) (holds : ∀ h ∈ f.listed, H h) :
    ∃ k', k.feed f = .ok k' ∧ Fed H g k' (listed ++ f.listed) (promoted ++ f.promoted) := by
  cases f with
  | store h =>
    exact ⟨_, rfl, fed.list (holds h List.mem_cons_self) (by simp [writeBarrier, Feed.promoted])⟩
  | promote h => exact ⟨_, rfl, fed.list (holds h List.mem_cons_self) rfl⟩
  | drain =>
    obtain ⟨k', drained⟩ := fed.confined.exists_drain fed.onward closed valid
    exact ⟨k', drained, by simpa [Feed.listed, Feed.promoted] using fed.drain closed drained⟩

theorem Fed.exists_foldlM (fed : Fed H g k listed promoted)
    (closed : ∀ h j, H h → ¬Marked g.objects h → Points g.objects h j → H j)
    (valid : ∀ h, H h → h.index < g.objects.size) (holds : ∀ h ∈ fs.flatMap Feed.listed, H h) :
    ∃ k', fs.foldlM feed k = .ok k' ∧
      Fed H g k' (listed ++ fs.flatMap Feed.listed) (promoted ++ fs.flatMap Feed.promoted) := by
  induction fs generalizing k listed promoted with
  | nil => exact ⟨k, rfl, by simpa using fed⟩
  | cons f fs ih =>
    rw [List.flatMap_cons] at holds
    obtain ⟨k₁, first, fed⟩ := fed.exists_feed closed valid
      fun h mem => holds h (List.mem_append_left _ mem)
    obtain ⟨k', others, fed⟩ := ih fed fun h mem => holds h (List.mem_append_right _ mem)
    refine ⟨k', ?_, by simpa using fed⟩
    rw [List.foldlM_cons, bind_eq_ok]
    exact ⟨k₁, first, others⟩

/-! ## A drain is a search -/

/-- What waits in a heap whose handles are valid names objects, and so does what is awaited. -/
theorem index_lt_of_marked_or_awaits
    (edges : ∀ h j, Points g.objects h j → j.index < g.objects.size)
    (worklist : ∀ h ∈ g.worklist, h.index < g.objects.size)
    (reached : Marked g.objects h ∨ g.Awaits h) : h.index < g.objects.size := by
  rcases reached with marked | awaits
  · exact marked.lt_size
  · cases awaits with
    | listed mem _ => exact worklist h mem
    | step _ edge _ => exact edges _ h edge

/-- What happens to a worklist, starting with a part of it, ends with the same marks as a drain of
all of it, once all of it was listed. -/
theorem Fed.objects_eq {part : List HostRef}
    (fed : Fed (fun h => Marked g.objects h ∨ g.Awaits h)
      { g with worklist := part } k listed promoted)
    (all : ∀ h ∈ g.worklist, h ∈ part ++ listed) (drained : g.drain = .ok g')
    (drained' : k.drain = .ok k') : k'.objects = g'.objects := by
  have fed := fed.drain (fun _ _ => marked_or_awaits_of_points) drained'
  have empty := worklist_of_drain drained'
  refine eq_of_marked_iff (fed.onward.same.trans (onward_drain drained).same.symm) fun h => ?_
  rw [marked_drain_iff drained]
  constructor
  · intro marked
    exact (fed.confined.marked h marked).elim .inl id
  · rintro (old | awaits)
    · exact fed.onward.marked h old
    · refine awaits.marked fed.onward rfl (fun j mem => ?_) empty
      rcases List.mem_append.1 (all j mem) with first | later
      · simpa [empty] using fed.onward.listed j first
      · simpa [empty] using fed.listed j later

/-- In a heap whose worklist and edges name objects, a drain marks exactly what a path of unmarked
objects leads to from the worklist, and nothing else changes but that nothing waits any more.
Whoever starts with a part of the worklist and lists the rest later, in any order, more than once,
by stores or by handing over and with drains in between, ends with the same heap, but for the record
of what was handed over. -/
theorem drain_is_search (edges : ∀ h k, Points g.objects h k → k.index < g.objects.size)
    (worklist : ∀ h ∈ g.worklist, h.index < g.objects.size) :
    ∃ g', g.drain = .ok g' ∧ g'.worklist = [] ∧
      (∀ h, Marked g'.objects h ↔ Marked g.objects h ∨ g.Awaits h) ∧
      g'.objects.map HostObject.unmarked = g.objects.map HostObject.unmarked ∧
      g'.roots = g.roots ∧ g'.promoted = g.promoted ∧
      ∀ (part : List HostRef) (fs : List Feed),
        (∀ h, h ∈ part ++ fs.flatMap Feed.listed ↔ h ∈ g.worklist) →
        ∃ k, fs.foldlM feed { g with worklist := part } = .ok k ∧
          k.drain = .ok { g' with promoted := g.promoted ++ fs.flatMap Feed.promoted } := by
  obtain ⟨os, ran⟩ := exists_trace edges worklist
  have drained : g.drain = .ok { g with objects := os, worklist := [] } :=
    drain_eq_ok.2 ⟨os, ran, rfl⟩
  refine ⟨_, drained, rfl, fun h => marked_drain_iff drained, (onward_drain drained).same, rfl, rfl,
    fun part fs all => ?_⟩
  have start : Fed (fun h => Marked g.objects h ∨ g.Awaits h) { g with worklist := part }
      { g with worklist := part } [] [] := by
    refine ⟨.refl _, ⟨fun h mem => ?_, fun _ => .inl⟩, by simp, by simp⟩
    exact marked_or_awaits_of_mem ((all h).1 (List.mem_append_left _ mem))
  have valid : ∀ h, Marked g.objects h ∨ g.Awaits h → h.index < g.objects.size :=
    fun _ => index_lt_of_marked_or_awaits edges worklist
  obtain ⟨k, ran', fed⟩ := start.exists_foldlM (fun _ _ => marked_or_awaits_of_points) valid
    fun h mem => marked_or_awaits_of_mem ((all h).1 (List.mem_append_right part mem))
  rw [List.nil_append, List.nil_append] at fed
  obtain ⟨k', drained'⟩ := fed.confined.exists_drain fed.onward
    (fun _ _ => marked_or_awaits_of_points) valid
  refine ⟨k, ran', ?_⟩
  have objects := fed.objects_eq (fun h => (all h).2) drained drained'
  obtain ⟨os', -, rfl⟩ := drain_eq_ok.1 drained'
  obtain rfl : os' = os := objects
  rw [drained', fed.onward.roots, fed.promoted]

/-- A ring of three objects, one of them prebuilt. Of two objects beside it, the first is marked
already, so that its edges to the second and into the ring are not looked at. The worklist names one
object twice. -/
def searched : HostHeap where
  objects := #[{ edges := [⟨1⟩] }, { flags := { noHeapPtrs := true }, edges := [⟨2⟩, ⟨2⟩] },
    { edges := [⟨0⟩] }, { flags := { visited := true }, edges := [⟨4⟩, ⟨2⟩] }, {}]
  worklist := [⟨1⟩, ⟨3⟩, ⟨1⟩]
  promoted := [⟨1⟩]

/-- The ring gets marked and the last object does not. It comes to the same if one object waits at
first, and the others are stored and handed over after a drain. -/
theorem drain_is_search_ring :
    (∀ h k, Points searched.objects h k → k.index < searched.objects.size) ∧
      (∀ h ∈ searched.worklist, h.index < searched.objects.size) ∧
      ∃ g', searched.drain = .ok g' ∧
        (Marked g'.objects ⟨0⟩ ↔ Marked searched.objects ⟨0⟩ ∨ searched.Awaits ⟨0⟩) ∧
        g'.objects.map (·.flags.visited) = #[true, true, true, true, false] ∧
        ∃ k, [Feed.drain, .store ⟨1⟩, .drain, .promote ⟨1⟩].foldlM feed
            { searched with worklist := [⟨3⟩] } = .ok k ∧
          k.drain = .ok { g' with promoted := [⟨1⟩, ⟨1⟩] } := by
  have edges : ∀ h k, Points searched.objects h k → k.index < searched.objects.size := by
    rintro h k ⟨x, hx, mem⟩
    have all : ∀ x ∈ searched.objects, ∀ k ∈ x.edges, k.index < searched.objects.size := by
      decide +kernel
    exact all x (Array.mem_of_getElem? hx) k mem
  have worklist : ∀ h ∈ searched.worklist, h.index < searched.objects.size := by decide +kernel
  obtain ⟨g', drained, -, marked, -, -, -, parts⟩ := drain_is_search edges worklist
  obtain ⟨k, fed, same⟩ := parts [⟨3⟩] [.drain, .store ⟨1⟩, .drain, .promote ⟨1⟩]
    (by simp [searched, Feed.listed])
  have visited : (fun g => g.objects.map (·.flags.visited)) <$> searched.drain =
      .ok #[true, true, true, true, false] := by decide +kernel
  obtain ⟨_, drained', visited⟩ := map_eq_ok.1 visited
  obtain rfl := Except.ok.inj (drained.symm.trans drained')
  exact ⟨edges, worklist, g', drained, marked ⟨0⟩, visited, k, fed, same⟩

end CycleCollector.HostHeap
