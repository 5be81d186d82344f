import CycleCollector.Handle
/-!
# Faults

What makes an operation stop without a result: a broken promise of a heap or of the program that
drives the collector. A fault ends the run, so it carries no state. `Fault.message` gives the
wording.

`TrackError` is different: it is an ordinary answer to a request that makes no sense at the moment,
and it changes nothing.
-/

namespace CycleCollector

/-- Why an operation has no result. -/
inductive Fault where
  /-- More references from inside the snapshot to `object` than its count covers. -/
  | negativeExternal (object : ObjectId)
  /-- The object was handed back a second time. -/
  | releasedTwice (object : ObjectId)
  /-- An object outside the tracked sets was to change its role. -/
  | moveUntracked (object : ObjectId)
  /-- An object outside the tracked sets was to get a cyclic count. -/
  | countUntracked (object : ObjectId)
  | mergeIntoItself
  /-- A handle or slot lies outside the table that it points into. -/
  | outOfBounds (length index : Nat)
  /-- A raw count was to reach `Refcount.limit`. -/
  | countOverflow
  /-- A pass was to start while the snapshot of another one is alive. -/
  | snapshotAllocatedTwice
  /-- Marking was to go on without a snapshot. -/
  | markingWithoutSnapshot
  /-- A pass was to finish without a snapshot. -/
  | snapshotDiscardedTwice
deriving DecidableEq, Repr

def Fault.message : Fault → String
  | .negativeExternal object =>
    "negative external refcount for " ++ toString object ++ ": more internal edges than references"
  | .releasedTwice object => "object " ++ toString object ++ " released twice"
  | .moveUntracked object => "cannot move untracked object " ++ toString object
  | .countUntracked object => "object " ++ toString object ++ " is not tracked"
  | .mergeIntoItself => "assertion failed: from != into"
  | .outOfBounds length index =>
    "index out of bounds: the len is " ++ toString length ++ " but the index is " ++ toString index
  | .countOverflow => "attempt to add with overflow"
  | .snapshotAllocatedTwice => "snapshot allocated twice"
  | .markingWithoutSnapshot => "marking without a snapshot"
  | .snapshotDiscardedTwice => "snapshot discarded twice"

/-- Two results can be compared. -/
instance {α : Type} [DecidableEq α] : DecidableEq (Except Fault α)
  | .ok a, .ok b => decidable_of_iff (a = b) (by simp)
  | .error e, .error f => decidable_of_iff (e = f) (by simp)
  | .ok _, .error _ => isFalse nofun
  | .error _, .ok _ => isFalse nofun

theorem bind_eq_ok {α β : Type} {x : Except Fault α} {f : α → Except Fault β} {b : β} :
    (x >>= f) = .ok b ↔ ∃ a, x = .ok a ∧ f a = .ok b := by
  cases x with
  | error e => simp [bind, Except.bind]
  | ok a => simp [bind, Except.bind]

theorem map_eq_ok {α β : Type} {x : Except Fault α} {f : α → β} {b : β} :
    f <$> x = .ok b ↔ ∃ a, x = .ok a ∧ f a = b := by
  cases x with
  | error e => simp [Functor.map, Except.map]
  | ok a => simp [Functor.map, Except.map]

theorem map_eq_error {α β : Type} {x : Except Fault α} {f : α → β} {fault : Fault} :
    f <$> x = .error fault ↔ x = .error fault := by
  cases x <;> simp [Functor.map, Except.map]

theorem pure_eq_ok {α : Type} {a b : α} : (pure a : Except Fault α) = .ok b ↔ a = b := by
  simp [pure, Except.pure]

@[simp] theorem throw_ne_ok {α : Type} {fault : Fault} {a : α} :
    (throw fault : Except Fault α) ≠ .ok a := nofun

/-- What holds at the start of a fold and is kept by each part holds of its result. -/
theorem foldlM_induction {α β : Type} {f : β → α → Except Fault β} {P : β → Prop} {as : List α}
    {b b' : β} (h : as.foldlM f b = .ok b') (start : P b)
    (step : ∀ a ∈ as, ∀ b b', P b → f b a = .ok b' → P b') : P b' := by
  induction as generalizing b with
  | nil => exact pure_eq_ok.1 h ▸ start
  | cons a as ih =>
    rw [List.foldlM_cons, bind_eq_ok] at h
    obtain ⟨_, first, others⟩ := h
    exact ih others (step a (by simp) _ _ start first) fun a' mem => step a' (by simp [mem])

/-- A fold fails at one element, after those before it went well. -/
theorem foldlM_eq_error {α β : Type} {f : β → α → Except Fault β} {as : List α} {b : β}
    {fault : Fault} : as.foldlM f b = .error fault ↔ ∃ (k : Nat) (a : α) (b' : β), as[k]? = some a ∧
      (as.take k).foldlM f b = .ok b' ∧ f b' a = .error fault := by
  induction as generalizing b with
  | nil => simp [pure, Except.pure]
  | cons a as ih =>
    cases first : f b a with
    | error fault' =>
      have stops : (a :: as).foldlM f b = .error fault' := by
        rw [List.foldlM_cons, first]
        rfl
      rw [stops, Except.error.injEq]
      constructor
      · rintro rfl
        exact ⟨0, a, b, rfl, rfl, first⟩
      · rintro ⟨k, a', b', at_k, before, fails⟩
        cases k with
        | zero =>
          obtain rfl := Option.some.inj at_k
          obtain rfl := pure_eq_ok.1 before
          exact Except.error.inj (first.symm.trans fails)
        | succ k => simp [first, bind, Except.bind] at before
    | ok b₁ =>
      have goes : ∀ cs, (a :: cs).foldlM f b = cs.foldlM f b₁ := fun cs => by
        rw [List.foldlM_cons, first]
        rfl
      rw [goes, ih]
      constructor
      · rintro ⟨k, a', b', at_k, before, fails⟩
        exact ⟨k + 1, a', b', at_k, (goes _).trans before, fails⟩
      · rintro ⟨k, a', b', at_k, before, fails⟩
        cases k with
        | zero =>
          obtain rfl := Option.some.inj at_k
          obtain rfl := pure_eq_ok.1 before
          cases first.symm.trans fails
        | succ k => exact ⟨k, a', b', at_k, (goes _).symm.trans before, fails⟩

/-- A request about tracking that is refused and changes nothing. -/
inductive TrackError where
  | alreadyTracked (object : ObjectId)
  | notTracked (object : ObjectId)
  /-- The object is tracked, but waits for no finalizer. -/
  | notIsolated (object : ObjectId)
deriving DecidableEq, Repr

def TrackError.message : TrackError → String
  | .alreadyTracked object => "object " ++ toString object ++ " is already tracked"
  | .notTracked object => "object " ++ toString object ++ " is not tracked"
  | .notIsolated object => "object " ++ toString object ++ " is not isolated"

end CycleCollector
