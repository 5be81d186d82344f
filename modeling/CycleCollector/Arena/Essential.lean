import CycleCollector.Arena.Basic
/-!
# An arena with the required answers only

The same arena behind an interface that offers no more than the four required answers. Finalizers,
immutable containers and reports take their defaults, whatever the arena knows of them.
-/

namespace CycleCollector

/-- An arena that tells the collector only what it must. -/
structure Essential where
  arena : Arena
deriving DecidableEq, Repr

namespace Essential

instance : ForeignHeap Essential where
  refcount foreign := foreign.arena.refcount
  bridge foreign := foreign.arena.bridge
  references foreign := foreign.arena.references
  release foreign o := Essential.mk <$> foreign.arena.release o

end Essential

end CycleCollector
