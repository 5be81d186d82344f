import CycleCollector.Snapshot.Basic
/-!
# Collecting roots

A reference that is an edge comes from inside the snapshot, so it is taken off the external count of
its target. What is left over tells which records are held from outside. A count that would become
negative shows that the foreign heap counts fewer references than it stores.

## Main definitions

* `Snapshot.collectRoots`: takes every edge off its target.
* `Snapshot.unbalanced?`: the first record whose accounts do not add up.
-/

namespace CycleCollector.Snapshot

def discount (records : Array Record) (j : Nat) : Except Fault (Array Record) :=
  match records[j]? with
  | none => .ok records
  | some r =>
    if r.external = 0 then .error (.negativeExternal r.object)
    else .ok (records.setIfInBounds j { r with external := r.external - 1 })

/-- Takes every edge off its target, in the order of the edge table. -/
def collectRoots (s : Snapshot) : Except Fault Snapshot := do
  return ⟨← s.edgeTable.foldlM discount s.records⟩

theorem size_discount {records records' : Array Record} {j : Nat}
    (h : discount records j = .ok records') : records'.size = records.size := by
  unfold discount at h
  split at h
  · simp_all
  · split at h
    · simp at h
    · obtain rfl := Except.ok.inj h
      simp

theorem size_collectRoots {s s' : Snapshot} (h : s.collectRoots = .ok s') :
    s'.size = s.size := by
  simp only [collectRoots, bind_eq_ok, pure_eq_ok] at h
  obtain ⟨records, folded, rfl⟩ := h
  exact foldlM_induction (P := fun rs => rs.size = s.size) folded rfl
    fun _ _ _ _ same step => (size_discount step).trans same

/-- The first record whose references are not its external count and its incoming edges. After
`collectRoots` there is none. -/
def unbalanced? (s : Snapshot) : Option ObjectId :=
  ((s.records.toList.zip s.incomingCounts).find? fun (r, incoming) =>
    r.intrinsic ≠ r.external + incoming).map fun (r, _) => r.object

end CycleCollector.Snapshot
