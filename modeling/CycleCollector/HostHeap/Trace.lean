import CycleCollector.HostHeap.Basic
/-!
# Tracing the host heap

`HostHeap.drain` empties the worklist: it takes the next object off, and unless the object is
marked already, marks it and puts its edges in front. The search ends because each step uses up one
unit of *pending work*, the objects waiting and the edges of the objects not yet marked.

## Main definitions

* `HostHeap.trace`: the search, on the objects and a stack.
* `HostHeap.drain`: the heap after the search from its worklist.
-/

namespace CycleCollector.HostHeap

def pendingEdges : List HostObject → Nat
  | [] => 0
  | x :: xs => (if x.flags.visited then 0 else x.edges.length) + pendingEdges xs

/-- The steps of the search still to come, at most. -/
def pendingWork (objects : Array HostObject) (stack : List HostRef) : Nat :=
  pendingEdges objects.toList + stack.length

theorem pendingEdges_set_marked {xs : List HostObject} {i : Nat} {x : HostObject}
    (hx : xs[i]? = some x) (hv : x.flags.visited = false) :
    pendingEdges (xs.set i x.marked) + x.edges.length = pendingEdges xs := by
  induction xs generalizing i with
  | nil => simp at hx
  | cons y ys ih =>
    cases i with
    | zero =>
      obtain rfl : y = x := by simpa using hx
      simp [pendingEdges, HostObject.marked, hv]
      omega
    | succ i =>
      have := ih (by simpa using hx)
      simp only [List.set_cons_succ, pendingEdges]
      omega

theorem pendingWork_mark {objects : Array HostObject} {h : HostRef} {x : HostObject}
    (stack : List HostRef) (hx : objects[h.index]? = some x) (hv : x.flags.visited = false) :
    pendingWork (objects.setIfInBounds h.index x.marked) (x.edges.reverse ++ stack) <
      pendingWork objects (h :: stack) := by
  have hl : objects.toList[h.index]? = some x := by simpa using hx
  have := pendingEdges_set_marked hl hv
  simp only [pendingWork, Array.toList_setIfInBounds, List.length_append, List.length_reverse,
    List.length_cons]
  omega

def trace (objects : Array HostObject) (stack : List HostRef) :
    Except Fault (Array HostObject) :=
  match stack with
  | [] => .ok objects
  | h :: rest =>
    match _ : objects[h.index]? with
    | none => .error (.outOfBounds objects.size h.index)
    | some x =>
      if _ : x.flags.visited then trace objects rest
      else trace (objects.setIfInBounds h.index x.marked) (x.edges.reverse ++ rest)
termination_by pendingWork objects stack
decreasing_by
  · simp [pendingWork]
  · simpa using pendingWork_mark rest ‹_› (Bool.eq_false_iff.2 ‹_›)

def drain (g : HostHeap) : Except Fault HostHeap := do
  let objects ← trace g.objects g.worklist
  return { g with objects, worklist := [] }

/-! ## The ends of the search -/

@[simp] theorem trace_nil (objects : Array HostObject) : trace objects [] = .ok objects := by
  simp [trace]

theorem worklist_of_drain {g g' : HostHeap} (h : g.drain = .ok g') : g'.worklist = [] := by
  simp only [drain, bind_eq_ok, pure_eq_ok] at h
  obtain ⟨_, -, rfl⟩ := h
  rfl

end CycleCollector.HostHeap
