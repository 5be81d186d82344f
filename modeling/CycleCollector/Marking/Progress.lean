import CycleCollector.Marking.Basic
/-!
# Marking makes progress

Every record that a scan finds alive is one fewer that is unprocessed, and a scan that finds nothing
leaves everything as it was. Hence a run of scans either lowers the number of unprocessed records or
changes neither the snapshot nor the host heap.

## Main statements

* `Marking.unprocessed_scan`: what a scan finds, it processes.
* `Marking.eq_of_scan_found_zero`: a scan without a finding changes nothing.
* `Marking.run_progress`: the two ways in which a run can go.
-/

namespace CycleCollector

namespace Snapshot

theorem countP_modify {α : Type} (p : α → Bool) (f : α → α) (hf : ∀ a, p (f a) = p a)
    (l : List α) (j : Nat) : (l.modify j f).countP p = l.countP p := by
  induction l generalizing j with
  | nil => simp
  | cons a l ih => cases j <;> simp [List.countP_cons, hf, ih]

@[simp] theorem unprocessed_raise (s : Snapshot) (positions : List Nat) :
    (s.raise positions).unprocessed = s.unprocessed := by
  induction positions generalizing s with
  | nil => rfl
  | cons j js ih =>
    have step := ih (s.raise [j])
    refine step.trans ?_
    simp only [raise, unprocessed, List.foldl_cons, List.foldl_nil, Array.toList_modify]
    exact countP_modify _ _ (by simp) _ _

@[simp] theorem size_raise (s : Snapshot) (positions : List Nat) :
    (s.raise positions).size = s.size := by
  induction positions generalizing s with
  | nil => rfl
  | cons j js ih =>
    refine (ih (s.raise [j])).trans ?_
    simp [raise, size]

@[simp] theorem size_settle (s : Snapshot) (i : Nat) (r : Record) (external : Nat) :
    (s.settle i r external).size = s.size :=
  (size_raise _ _).trans (by simp [size])

theorem unprocessed_settle {s : Snapshot} {i : Nat} {r : Record} (external : Nat)
    (hr : s.records[i]? = some r) (hp : r.processed = false) :
    (s.settle i r external).unprocessed + 1 = s.unprocessed := by
  obtain ⟨hi, rfl⟩ := Array.getElem?_eq_some_iff.1 hr
  have pos : 0 < s.records.toList.countP fun r => !r.processed :=
    List.countP_pos_iff.2 ⟨s.records[i], by simp, by simp [hp]⟩
  rw [settle, unprocessed_raise]
  simp only [unprocessed, Array.toList_setIfInBounds]
  rw [List.countP_set (by simpa using hi)]
  simp only [Array.getElem_toList, hp, Bool.not_false, Bool.not_true, if_true, if_false,
    Bool.false_eq_true]
  omega

theorem unprocessed_le_size (s : Snapshot) : s.unprocessed ≤ s.size :=
  List.countP_le_length

end Snapshot

namespace Marking

variable {eager : Bool} {m m' : Marking}

/-- A visit finds its record alive and processes it, or it changes nothing. -/
theorem visit_progress {i : Nat} (h : m.visit eager i = .ok m') :
    m' = m ∨ m'.found = m.found + 1 ∧ m'.snapshot.unprocessed + 1 = m.snapshot.unprocessed := by
  unfold visit at h
  split at h
  · simp_all
  · next r hr =>
    split at h
    · simp_all
    · next hp =>
      rw [bind_eq_ok] at h
      obtain ⟨external, -, h⟩ := h
      split at h
      · simp_all [pure_eq_ok]
      · simp only [bind_eq_ok, pure_eq_ok] at h
        obtain ⟨host, -, rfl⟩ := h
        exact .inr ⟨rfl, Snapshot.unprocessed_settle external hr (Bool.eq_false_iff.2 hp)⟩

theorem foldlM_visit_progress {positions : List Nat}
    (h : positions.foldlM (visit eager) m = .ok m') :
    m' = m ∨ m.found < m'.found ∧ m'.snapshot.unprocessed < m.snapshot.unprocessed := by
  induction positions generalizing m with
  | nil => exact .inl (pure_eq_ok.1 h).symm
  | cons i is ih =>
    rw [List.foldlM_cons, bind_eq_ok] at h
    obtain ⟨m₁, first, others⟩ := h
    rcases visit_progress first with rfl | ⟨found, less⟩
    · exact ih others
    · rcases ih others with rfl | ⟨found', less'⟩
      · exact .inr ⟨by omega, by omega⟩
      · exact .inr ⟨by omega, by omega⟩

theorem eq_of_scan_found_zero (h : m.scan eager = .ok m') (none : m'.found = 0) :
    m'.snapshot = m.snapshot ∧ m'.host = m.host := by
  rcases foldlM_visit_progress h with rfl | ⟨found, -⟩
  · exact ⟨rfl, rfl⟩
  · omega

/-- What a scan finds is processed. -/
theorem unprocessed_scan (h : m.scan eager = .ok m') (some : m'.found ≠ 0) :
    m'.snapshot.unprocessed < m.snapshot.unprocessed := by
  rcases foldlM_visit_progress h with rfl | ⟨-, less⟩
  · simp at some
  · exact less

theorem scanUpTo_progress {bound : Nat} {progress : Progress}
    (h : m.scanUpTo eager bound = .ok (progress, m')) :
    m'.snapshot = m.snapshot ∧ m'.host = m.host ∧ (progress = .pending → bound = 0) ∨
      m'.snapshot.unprocessed < m.snapshot.unprocessed := by
  induction bound generalizing m with
  | zero => simp_all [scanUpTo]
  | succ bound ih =>
    simp only [scanUpTo, bind_eq_ok] at h
    obtain ⟨m₁, scanned, h⟩ := h
    split at h
    · next none =>
      obtain ⟨rfl, rfl⟩ := Prod.mk.inj (pure_eq_ok.1 h)
      obtain ⟨hs, hh⟩ := eq_of_scan_found_zero scanned none
      exact .inl ⟨hs, hh, by simp⟩
    · next some =>
      have less := unprocessed_scan scanned some
      rcases ih h with ⟨hs, -, -⟩ | less'
      · exact .inr (hs ▸ less)
      · exact .inr (Nat.lt_trans less' less)

/-- A run either finds something, or it ends at the fixed point where it started. -/
theorem run_progress {limit : Option Nat} {progress : Progress}
    (h : m.run eager limit = .ok (progress, m')) :
    progress = .fixedPoint ∧ m'.host = m.host ∧ m'.snapshot = m.snapshot ∨
      m'.snapshot.unprocessed < m.snapshot.unprocessed := by
  have bound : scanBound m.snapshot limit ≠ 0 := by
    cases limit with
    | none => exact Nat.succ_ne_zero _
    | some k => exact Nat.ne_of_gt (Nat.le_max_right k 1)
  rcases scanUpTo_progress h with ⟨hs, hh, hp⟩ | less
  · refine .inl ⟨?_, hh, hs⟩
    cases progress with
    | fixedPoint => rfl
    | pending => exact absurd (hp rfl) bound
  · exact .inr less

end Marking

end CycleCollector
