/-!
# Handles

The collector stands between two heaps and owns neither. It names an object of the refcounted
(*foreign*) heap by an `ObjectId` and an object of the tracing (*host*) heap by a `HostRef`. Both
are places in the order of allocation; everything else about an object is asked of its heap.
-/

namespace CycleCollector

structure ObjectId where
  /-- Place in the order of allocation, from 0. -/
  index : Nat
deriving DecidableEq, Repr, Inhabited

structure HostRef where
  /-- Place in the order of allocation, from 0. -/
  index : Nat
deriving DecidableEq, Repr, Inhabited

/-- A foreign object is written `#7`. -/
instance : ToString ObjectId := ⟨fun o => "#" ++ toString o.index⟩

/-- A host object is written `host#7`. -/
instance : ToString HostRef := ⟨fun h => "host#" ++ toString h.index⟩

def ObjectId.range (first count : Nat) : List ObjectId :=
  (List.range' first count).map ObjectId.mk

def HostRef.range (first count : Nat) : List HostRef :=
  (List.range' first count).map HostRef.mk

end CycleCollector
