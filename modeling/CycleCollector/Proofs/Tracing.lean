import CycleCollector.HostHeap.Trace
/-!
# Tracing marks what it reaches

A trace changes nothing but marks. It marks every object on its stack, and an object marked by it
has all its edges marked in the end; on the other hand it marks nothing outside a set that holds
the stack and is closed under the edges of unmarked objects. Together these say that tracing is
reachability through unmarked objects.

## Main definitions

* `HostHeap.Marked`, `HostHeap.Prebuilt`, `HostHeap.Points`: marks, flags and edges as relations.
* `HostHeap.Leads`: a path of edges.
* `HostHeap.Linked`: every handle that a heap stores names an object.
* `HostHeap.Onward`, `HostHeap.Confined`: what handing over and tracing achieve, and what they
  do not.
-/

namespace CycleCollector.HostHeap

variable {objects objects' : Array HostObject} {stack : List HostRef} {g g' : HostHeap}
  {h k j : HostRef} {x : HostObject}

def Marked (objects : Array HostObject) (h : HostRef) : Prop :=
  ∃ x, objects[h.index]? = some x ∧ x.flags.visited = true

theorem Marked.lt_size (marked : Marked objects h) : h.index < objects.size := by
  obtain ⟨x, hx, -⟩ := marked
  exact (Array.getElem?_eq_some_iff.1 hx).1

def Prebuilt (objects : Array HostObject) (h : HostRef) : Prop :=
  ∃ x, objects[h.index]? = some x ∧ x.flags.noHeapPtrs = true

def Points (objects : Array HostObject) (h k : HostRef) : Prop :=
  ∃ x, objects[h.index]? = some x ∧ k ∈ x.edges

inductive Leads (objects : Array HostObject) (h : HostRef) : HostRef → Prop
  | refl : Leads objects h h
  | step {k j : HostRef} : Leads objects h k → Points objects k j → Leads objects h j

/-! ## What the heap answers -/

theorem object_eq_ok : g.object h = .ok x ↔ g.objects[h.index]? = some x := by
  unfold object
  split <;> simp_all

theorem isVisited_eq_ok_true : g.isVisited h = .ok true ↔ Marked g.objects h := by
  rw [isVisited, bind_eq_ok]
  simp [pure_eq_ok, object_eq_ok, Marked]

theorem isReachable_eq_ok_true :
    g.isReachable h = .ok true ↔ Marked g.objects h ∨ Prebuilt g.objects h := by
  simp only [isReachable, bind_eq_ok, pure_eq_ok, object_eq_ok, Marked, Prebuilt,
    HostFlags.reachable, Bool.or_eq_true]
  grind

theorem reaches_eq_ok_true {bridge : Option HostRef} : g.reaches bridge = .ok true ↔
    ∃ h, bridge = some h ∧ (Marked g.objects h ∨ Prebuilt g.objects h) := by
  cases bridge <;> simp [reaches, isReachable_eq_ok_true]

theorem exists_reaches {bridge : Option HostRef} (valid : ∀ h ∈ bridge, h.index < g.objects.size) :
    ∃ b, g.reaches bridge = .ok b := by
  cases bridge with
  | none => exact ⟨false, rfl⟩
  | some h =>
    have bound := valid h rfl
    refine ⟨g.objects[h.index].flags.reachable, ?_⟩
    simp [reaches, isReachable, object, bound, pure, Except.pure, bind, Except.bind]

theorem lt_size_of_reaches {b : Bool} (reached : g.reaches (some h) = .ok b) :
    h.index < g.objects.size := by
  obtain ⟨x, hx, -⟩ := map_eq_ok.1 reached
  exact (Array.getElem?_eq_some_iff.1 (object_eq_ok.1 hx)).1

/-! ## Only marks change -/

theorem unmarked_marked (x : HostObject) : x.marked.unmarked = x.unmarked := rfl

theorem unmarked_unmarked (x : HostObject) : x.unmarked.unmarked = x.unmarked := rfl

theorem map_unmarked_set (hx : objects[h.index]? = some x) :
    (objects.setIfInBounds h.index x.marked).map HostObject.unmarked =
      objects.map HostObject.unmarked := by
  apply Array.ext_getElem?
  intro i
  simp only [Array.getElem?_map, Array.getElem?_setIfInBounds]
  split
  · subst i
    obtain ⟨bound, rfl⟩ := Array.getElem?_eq_some_iff.1 hx
    simp [bound, unmarked_marked]
  · rfl

/-- The steps of a trace that ends: it skips a marked object, or marks an unmarked one. -/
inductive Traces : Array HostObject → List HostRef → Array HostObject → Prop
  | done {os : Array HostObject} : Traces os [] os
  | skip {os os' : Array HostObject} {h : HostRef} {rest : List HostRef} {x : HostObject} :
      os[h.index]? = some x → x.flags.visited = true → Traces os rest os' →
      Traces os (h :: rest) os'
  | mark {os os' : Array HostObject} {h : HostRef} {rest : List HostRef} {x : HostObject} :
      os[h.index]? = some x → x.flags.visited = false →
      Traces (os.setIfInBounds h.index x.marked) (x.edges.reverse ++ rest) os' →
      Traces os (h :: rest) os'

theorem traces_of_trace (ran : trace objects stack = .ok objects') :
    Traces objects stack objects' := by
  fun_induction trace objects stack with
  | case1 => exact Except.ok.inj ran ▸ .done
  | case2 => simp at ran
  | case3 objects h rest x hx visited ih => exact .skip hx visited (ih ran)
  | case4 objects h rest x hx unvisited ih =>
    simp only [List.unattach_reverse, List.unattach_attach] at ih
    exact .mark hx (Bool.eq_false_iff.2 unvisited) (ih ran)

theorem Traces.map_unmarked (ran : Traces objects stack objects') :
    objects'.map HostObject.unmarked = objects.map HostObject.unmarked := by
  induction ran with
  | done => rfl
  | skip _ _ _ ih => exact ih
  | mark hx _ _ ih => exact ih.trans (map_unmarked_set hx)

/-- Two heaps that differ in marks only agree object by object. -/
theorem exists_of_map_unmarked (same : objects'.map HostObject.unmarked =
    objects.map HostObject.unmarked) (hx : objects[h.index]? = some x) :
    ∃ x', objects'[h.index]? = some x' ∧ x'.unmarked = x.unmarked := by
  have at_h := congrArg (·[h.index]?) same
  simpa [hx] using at_h

theorem size_of_map_unmarked (same : objects'.map HostObject.unmarked =
    objects.map HostObject.unmarked) : objects'.size = objects.size := by
  simpa using congrArg Array.size same

theorem points_congr (same : objects'.map HostObject.unmarked =
    objects.map HostObject.unmarked) : Points objects' h k ↔ Points objects h k := by
  constructor
  · rintro ⟨x, hx, mem⟩
    obtain ⟨x', hx', eq⟩ := exists_of_map_unmarked same.symm hx
    exact ⟨x', hx', (congrArg HostObject.edges eq) ▸ mem⟩
  · rintro ⟨x, hx, mem⟩
    obtain ⟨x', hx', eq⟩ := exists_of_map_unmarked same hx
    exact ⟨x', hx', (congrArg HostObject.edges eq) ▸ mem⟩

theorem prebuilt_congr (same : objects'.map HostObject.unmarked =
    objects.map HostObject.unmarked) : Prebuilt objects' h ↔ Prebuilt objects h := by
  constructor
  · rintro ⟨x, hx, flag⟩
    obtain ⟨x', hx', eq⟩ := exists_of_map_unmarked same.symm hx
    exact ⟨x', hx', (congrArg (·.flags.noHeapPtrs) eq).trans flag⟩
  · rintro ⟨x, hx, flag⟩
    obtain ⟨x', hx', eq⟩ := exists_of_map_unmarked same hx
    exact ⟨x', hx', (congrArg (·.flags.noHeapPtrs) eq).trans flag⟩

theorem leads_congr (same : objects'.map HostObject.unmarked =
    objects.map HostObject.unmarked) : Leads objects' h k ↔ Leads objects h k := by
  constructor
  · intro path
    induction path with
    | refl => exact .refl
    | step _ edge ih => exact ih.step ((points_congr same).1 edge)
  · intro path
    induction path with
    | refl => exact .refl
    | step _ edge ih => exact ih.step ((points_congr same).2 edge)

/-! ## What is marked -/

theorem marked_set (hx : objects[h.index]? = some x) :
    Marked (objects.setIfInBounds h.index x.marked) k ↔ k = h ∨ Marked objects k := by
  have bound := (Array.getElem?_eq_some_iff.1 hx).1
  by_cases same : k = h
  · subst k
    simp [Marked, bound, HostObject.marked]
  · have ne : h.index ≠ k.index := by
      cases h
      cases k
      simpa [eq_comm] using same
    simp [Marked, ne, same]

theorem Traces.marked (ran : Traces objects stack objects') (old : Marked objects k) :
    Marked objects' k := by
  induction ran with
  | done => exact old
  | skip _ _ _ ih => exact ih old
  | mark hx _ _ ih => exact ih ((marked_set hx).2 (.inr old))

theorem Traces.marked_of_mem (ran : Traces objects stack objects') (mem : k ∈ stack) :
    Marked objects' k := by
  induction ran with
  | done => simp at mem
  | skip hx visited later ih =>
    rcases List.mem_cons.1 mem with rfl | mem
    · exact later.marked ⟨_, hx, visited⟩
    · exact ih mem
  | mark hx _ later ih =>
    rcases List.mem_cons.1 mem with rfl | mem
    · exact later.marked ((marked_set hx).2 (.inl rfl))
    · exact ih (by simp [mem])

theorem Traces.marked_of_points (ran : Traces objects stack objects') (marked : Marked objects' k)
    (edge : Points objects k j) : Marked objects k ∨ Marked objects' j := by
  induction ran with
  | done => exact .inl marked
  | skip _ _ _ ih => exact ih marked edge
  | mark hx _ later ih =>
    rcases ih marked ((points_congr (map_unmarked_set hx)).2 edge) with old | new
    · rcases (marked_set hx).1 old with rfl | old
      · obtain ⟨y, hy, mem⟩ := edge
        obtain rfl := Option.some.inj (hx.symm.trans hy)
        exact .inr (later.marked_of_mem (by simp [mem]))
      · exact .inl old
    · exact .inr new

/-- A trace marks nothing outside a set that holds the stack and is closed under the edges of
unmarked objects. -/
theorem Traces.of_marked {H : HostRef → Prop} (ran : Traces objects stack objects')
    (start : ∀ k ∈ stack, H k)
    (closed : ∀ k j, H k → ¬Marked objects k → Points objects k j → H j)
    (marked : Marked objects' k) : Marked objects k ∨ H k := by
  induction ran with
  | done => exact .inl marked
  | skip _ _ _ ih => exact ih (fun k mem => start k (by simp [mem])) closed marked
  | @mark objects _ h rest x hx unvisited _ ih =>
    have fresh : ¬Marked objects h := by
      rintro ⟨y, hy, visited⟩
      obtain rfl := Option.some.inj (hx.symm.trans hy)
      simp [unvisited] at visited
    have start' : ∀ k ∈ x.edges.reverse ++ rest, H k := by
      intro k mem
      rcases List.mem_append.1 mem with mem | mem
      · exact closed h k (start h (by simp)) fresh ⟨x, hx, by simpa using mem⟩
      · exact start k (by simp [mem])
    have closed' : ∀ k j, H k → ¬Marked (objects.setIfInBounds h.index x.marked) k →
        Points (objects.setIfInBounds h.index x.marked) k j → H j := by
      intro k j holds unmarked edge
      refine closed k j holds (fun old => unmarked ((marked_set hx).2 (.inr old))) ?_
      exact (points_congr (map_unmarked_set hx)).1 edge
    rcases ih start' closed' marked with old | new
    · rcases (marked_set hx).1 old with rfl | old
      · exact .inr (start _ (by simp))
      · exact .inl old
    · exact .inr new

/-! ## Traces end -/

structure Linked (g : HostHeap) : Prop where
  edges : ∀ h k, Points g.objects h k → k.index < g.objects.size
  roots : ∀ h ∈ g.roots, h.index < g.objects.size
  worklist : ∀ h ∈ g.worklist, h.index < g.objects.size

/-- A trace ends if the set that it stays in holds valid handles only. -/
theorem exists_trace_of_closed {H : HostRef → Prop} (valid : ∀ h, H h → h.index < objects.size)
    (closed : ∀ h k, H h → ¬Marked objects h → Points objects h k → H k)
    (start : ∀ h ∈ stack, H h) : ∃ objects', trace objects stack = .ok objects' := by
  fun_induction trace objects stack with
  | case1 objects => exact ⟨objects, rfl⟩
  | case2 objects h rest hx =>
    have bound := valid h (start h (by simp))
    simp [bound] at hx
  | case3 _ _ _ _ _ _ ih => exact ih valid closed fun k mem => start k (by simp [mem])
  | case4 objects h rest x hx unvisited ih =>
    simp only [List.unattach_reverse, List.unattach_attach] at ih
    refine ih (fun k holds => by simpa using valid k holds) (fun k j holds unmarked edge => ?_)
      fun k mem => ?_
    · refine closed k j holds (fun old => unmarked ((marked_set hx).2 (.inr old))) ?_
      exact (points_congr (map_unmarked_set hx)).1 edge
    · rcases List.mem_append.1 mem with mem | mem
      · refine closed h k (start h (by simp)) ?_ ⟨x, hx, by simpa using mem⟩
        rintro ⟨y, hy, visited⟩
        obtain rfl := Option.some.inj (hx.symm.trans hy)
        exact unvisited visited
      · exact start k (by simp [mem])

theorem exists_trace (edges : ∀ h k, Points objects h k → k.index < objects.size)
    (valid : ∀ h ∈ stack, h.index < objects.size) :
    ∃ objects', trace objects stack = .ok objects' :=
  exists_trace_of_closed (fun _ => id) (fun h k _ _ => edges h k) valid

/-! ## Handing over and draining -/

theorem drain_eq_ok : g.drain = .ok g' ↔
    ∃ os, trace g.objects g.worklist = .ok os ∧ g' = { g with objects := os, worklist := [] } := by
  simp only [drain, bind_eq_ok, pure_eq_ok]
  grind

/-- What handing objects over and tracing do to a heap: only marks are added, what was on the
worklist gets marked or stays there, and so do the edges of what gets marked. -/
structure Onward (g g' : HostHeap) : Prop where
  same : g'.objects.map HostObject.unmarked = g.objects.map HostObject.unmarked
  roots : g'.roots = g.roots
  marked : ∀ h, Marked g.objects h → Marked g'.objects h
  listed : ∀ h ∈ g.worklist, Marked g'.objects h ∨ h ∈ g'.worklist
  traced : ∀ h k, Marked g'.objects h → Points g.objects h k →
    Marked g.objects h ∨ Marked g'.objects k ∨ k ∈ g'.worklist

theorem Onward.refl (g : HostHeap) : Onward g g :=
  ⟨rfl, rfl, fun _ => id, fun _ => .inr, fun _ _ marked _ => .inl marked⟩

theorem Onward.trans {g₁ g₂ g₃ : HostHeap} (first : Onward g₁ g₂) (second : Onward g₂ g₃) :
    Onward g₁ g₃ where
  same := second.same.trans first.same
  roots := second.roots.trans first.roots
  marked h old := second.marked h (first.marked h old)
  listed h mem := by
    rcases first.listed h mem with marked | listed
    · exact .inl (second.marked h marked)
    · exact second.listed h listed
  traced h k marked edge := by
    rcases second.traced h k marked ((points_congr first.same).2 edge) with old | new
    · rcases first.traced h k old edge with old | marked | listed
      · exact .inl old
      · exact .inr (.inl (second.marked k marked))
      · exact .inr (second.listed k listed)
    · exact .inr new

theorem onward_promote (g : HostHeap) (h : HostRef) : Onward g (g.promote h) :=
  ⟨rfl, rfl, fun _ => id, fun _ mem => .inr (List.mem_cons_of_mem _ mem),
    fun _ _ marked _ => .inl marked⟩

theorem onward_promoteAll (g : HostHeap) (hs : List HostRef) : Onward g (g.promoteAll hs) := by
  induction hs generalizing g with
  | nil => exact .refl g
  | cons h hs ih => exact (onward_promote g h).trans (ih (g.promote h))

@[simp] theorem objects_promoteAll (g : HostHeap) (hs : List HostRef) :
    (g.promoteAll hs).objects = g.objects := by
  induction hs generalizing g with
  | nil => rfl
  | cons h hs ih => exact ih (g.promote h)

theorem mem_worklist_promoteAll {hs : List HostRef} :
    h ∈ (g.promoteAll hs).worklist ↔ h ∈ hs ∨ h ∈ g.worklist := by
  induction hs generalizing g with
  | nil => simp [promoteAll]
  | cons k hs ih =>
    refine (ih (g := g.promote k)).trans ?_
    simp only [promote, List.mem_cons]
    grind

theorem onward_drain (drained : g.drain = .ok g') : Onward g g' := by
  obtain ⟨os, ran, rfl⟩ := drain_eq_ok.1 drained
  have traces := traces_of_trace ran
  refine ⟨traces.map_unmarked, rfl, fun _ => traces.marked, ?_, ?_⟩
  · exact fun h mem => .inl (traces.marked_of_mem mem)
  · intro h k marked edge
    rcases traces.marked_of_points marked edge with old | new
    · exact .inl old
    · exact .inr (.inl new)

/-- Beyond the marks of `g`, the heap `g'` knows only objects of the set `H`. -/
structure Confined (H : HostRef → Prop) (g g' : HostHeap) : Prop where
  worklist : ∀ h ∈ g'.worklist, H h
  marked : ∀ h, Marked g'.objects h → Marked g.objects h ∨ H h

theorem Confined.promote {H : HostRef → Prop} (confined : Confined H g g') (holds : H h) :
    Confined H g (g'.promote h) where
  worklist k mem := by
    rcases List.mem_cons.1 mem with rfl | mem
    · exact holds
    · exact confined.worklist k mem
  marked := confined.marked

/-- Tracing stays within a set that is closed under the edges of unmarked objects. -/
theorem Confined.drain {H : HostRef → Prop} {g₁ g₂ : HostHeap} (confined : Confined H g g₁)
    (onward : Onward g g₁)
    (closed : ∀ h k, H h → ¬Marked g.objects h → Points g.objects h k → H k)
    (drained : g₁.drain = .ok g₂) : Confined H g g₂ := by
  obtain ⟨os, ran, rfl⟩ := drain_eq_ok.1 drained
  refine ⟨by simp, fun h marked => ?_⟩
  have within := (traces_of_trace ran).of_marked confined.worklist ?_ marked
  · rcases within with old | new
    · exact confined.marked h old
    · exact .inr new
  · intro h k holds unmarked edge
    exact closed h k holds (fun old => unmarked (onward.marked h old))
      ((points_congr onward.same).1 edge)

/-- So the heap can be drained if that set holds valid handles only. -/
theorem Confined.exists_drain {H : HostRef → Prop} {g₁ : HostHeap} (confined : Confined H g g₁)
    (onward : Onward g g₁)
    (closed : ∀ h k, H h → ¬Marked g.objects h → Points g.objects h k → H k)
    (valid : ∀ h, H h → h.index < g.objects.size) : ∃ g₂, g₁.drain = .ok g₂ := by
  have size := size_of_map_unmarked onward.same
  obtain ⟨os, ran⟩ := exists_trace_of_closed (fun h holds => size ▸ valid h holds)
    (fun h k holds unmarked edge => closed h k holds (fun old => unmarked (onward.marked h old))
      ((points_congr onward.same).1 edge)) confined.worklist
  exact ⟨_, drain_eq_ok.2 ⟨os, ran, rfl⟩⟩

/-- Where the edges of marked objects are traced already, handing objects over and tracing marks
what they lead to. -/
theorem marked_drain_promoteAll {hs : List HostRef} (drained : g.worklist = [])
    (closed : ∀ h k, Marked g.objects h → Points g.objects h k → Marked g.objects k)
    (done : (g.promoteAll hs).drain = .ok g') :
    Marked g'.objects h ↔ Marked g.objects h ∨ ∃ k ∈ hs, Leads g.objects k h := by
  have onward := (onward_promoteAll g hs).trans (onward_drain done)
  have rest : g'.worklist = [] := worklist_of_drain done
  constructor
  · intro marked
    have start : Confined (fun h => ∃ k ∈ hs, Leads g.objects k h) g (g.promoteAll hs) := by
      refine ⟨fun h mem => ?_, fun h marked => .inl (by simpa using marked)⟩
      rcases mem_worklist_promoteAll.1 mem with handed | old
      · exact ⟨h, handed, .refl⟩
      · simp [drained] at old
    have confined := start.drain (onward_promoteAll g hs)
      (fun h k ⟨j, mem, path⟩ _ edge => ⟨j, mem, path.step edge⟩) done
    exact confined.marked h marked
  · rintro (old | ⟨k, mem, path⟩)
    · exact onward.marked h old
    · induction path with
      | refl =>
        simpa [rest] using (onward_drain done).listed k (mem_worklist_promoteAll.2 (.inl mem))
      | @step j h _ edge ih =>
        rcases onward.traced j h ih edge with old | new
        · exact onward.marked h (closed j h old edge)
        · simpa [rest] using new

/-! ## The start of a collection -/

theorem map_unmarked_beginCollection (g : HostHeap) :
    g.beginCollection.objects.map HostObject.unmarked = g.objects.map HostObject.unmarked := by
  simp [beginCollection, Function.comp_def, unmarked_unmarked]

/-- A collection starts without marks. -/
theorem not_marked_beginCollection (g : HostHeap) (h : HostRef) :
    ¬Marked g.beginCollection.objects h := by
  rintro ⟨x, hx, visited⟩
  simp only [beginCollection, Array.getElem?_map, Option.map_eq_some_iff] at hx
  obtain ⟨y, -, rfl⟩ := hx
  simp [HostObject.unmarked] at visited

/-! ## Drains end -/

/-- A heap whose handles are valid can be drained, and they stay valid. -/
theorem Linked.exists_drain (linked : g.Linked) : ∃ g', g.drain = .ok g' ∧ g'.Linked := by
  obtain ⟨os, ran⟩ := exists_trace linked.edges linked.worklist
  have same := (traces_of_trace ran).map_unmarked
  have size := size_of_map_unmarked same
  refine ⟨_, drain_eq_ok.2 ⟨os, ran, rfl⟩, ?_, ?_, by simp⟩
  · exact fun h k edge => size ▸ linked.edges h k ((points_congr same).1 edge)
  · exact fun h mem => size ▸ linked.roots h mem

end CycleCollector.HostHeap
