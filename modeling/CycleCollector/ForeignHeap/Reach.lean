import CycleCollector.ForeignHeap.Basic
/-!
# Reach within a set of candidates

Which candidates some objects reach through references, in the order of their discovery. The search
keeps a stack; an object that comes off it claims those of its references that are still
candidates, and they go onto the stack. Each candidate is claimed once, so the candidates left and
the stack together shrink with every step.

## Main definitions

* `ForeignHeap.claim`: one object claims its references.
* `ForeignHeap.reach`: the search.
-/

namespace CycleCollector.ForeignHeap

/-- Takes the references that are candidates out of the candidates, in order: the objects taken,
and the candidates left. -/
def claim : List ObjectId → List ObjectId → List ObjectId × List ObjectId
  | [], candidates => ([], candidates)
  | o :: os, candidates =>
    if o ∈ candidates then
      let (claimed, left) := claim os (candidates.erase o)
      (o :: claimed, left)
    else claim os candidates

theorem length_claim (references candidates : List ObjectId) :
    (claim references candidates).1.length + (claim references candidates).2.length =
      candidates.length := by
  induction references generalizing candidates with
  | nil => simp [claim]
  | cons o os ih =>
    unfold claim
    split
    · next mem =>
      have := ih (candidates.erase o)
      rw [List.length_erase_of_mem mem] at this
      have := List.length_pos_of_mem mem
      simp only [List.length_cons]
      omega
    · exact ih candidates

variable {ρ : Type} [ForeignHeap ρ]

/-- The candidates that the objects of a stack reach through references to candidates, in the order
of their discovery. -/
def reach (foreign : ρ) (candidates stack : List ObjectId) : Except Fault (List ObjectId) :=
  match stack with
  | [] => .ok []
  | o :: rest =>
    match references foreign o with
    | .error fault => .error fault
    | .ok os => do
      let claimed := (claim os candidates).1
      let further ← reach foreign (claim os candidates).2 (claimed.reverse ++ rest)
      return claimed ++ further
termination_by candidates.length + stack.length
decreasing_by
  have := length_claim os candidates
  simp only [List.length_append, List.length_reverse, List.length_cons]
  omega

end CycleCollector.ForeignHeap
