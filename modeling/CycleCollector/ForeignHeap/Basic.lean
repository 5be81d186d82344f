import CycleCollector.Fault
/-!
# The foreign heap

What the collector asks of the refcounted heap, and what it tells it. Four answers are required;
everything else has a default that suits a heap without finalizers, immutable containers or
interest in reports. Every answer may be a fault.

## Main definitions

* `ForeignHeap`: the interface.
* `ForeignHeap.select`: the objects of a list that pass a test.
-/

namespace CycleCollector

/-- How an object wants to be treated when it is found dead. -/
inductive Finalizer where
  /-- Release it right away. -/
  | none
  /-- Report it as garbage that cannot be collected, and keep it with all that it reaches. -/
  | legacy
  /-- Isolate it with the dead objects around it until its finalizer has run. -/
  | modern
deriving DecidableEq, Repr, Inhabited

/-- The refcounted heap as the collector sees it. -/
class ForeignHeap (ρ : Type) where
  /-- Raw reference count, with the host bias if there is one. -/
  refcount : ρ → ObjectId → Except Fault Nat
  bridge : ρ → ObjectId → Except Fault (Option HostRef)
  /-- The references that the object holds, in a fixed order. -/
  references : ρ → ObjectId → Except Fault (List ObjectId)
  /-- Takes back a dead object, which the collector has already forgotten. -/
  release : ρ → ObjectId → Except Fault ρ
  /-- How the object wants to be treated when it is found dead. -/
  finalizer : ρ → ObjectId → Except Fault Finalizer := fun _ _ => .ok .none
  /-- Whether the object need not be tracked while it holds no tracked object. -/
  mayUntrack : ρ → ObjectId → Except Fault Bool := fun _ _ => .ok false
  /-- Learns that such an object is no longer tracked. -/
  noteUntracked : ρ → ObjectId → ρ := fun foreign _ => foreign
  /-- Learns that a dead object with a legacy finalizer stays alive. -/
  noteLegacyGarbage : ρ → ObjectId → ρ := fun foreign _ => foreign
  /-- Learns that the finalizers of these dead objects should run. -/
  scheduleFinalizers : ρ → List ObjectId → ρ := fun foreign _ => foreign

namespace ForeignHeap

/-- The objects that pass a test which may fail. They are tested in order. -/
def select (test : ObjectId → Except Fault Bool) : List ObjectId → Except Fault (List ObjectId)
  | [] => .ok []
  | o :: os => do
    let passes ← test o
    let others ← select test os
    return if passes then o :: others else others

variable {ρ : Type} [ForeignHeap ρ]

def withFinalizer (foreign : ρ) (kind : Finalizer) (os : List ObjectId) :
    Except Fault (List ObjectId) :=
  select (fun o => do return (← finalizer foreign o) = kind) os

def releaseAll (foreign : ρ) (os : List ObjectId) : Except Fault ρ := os.foldlM release foreign

end ForeignHeap

end CycleCollector
