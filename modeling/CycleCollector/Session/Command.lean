import CycleCollector.Arena.Basic
import CycleCollector.World.Collect
/-!
# Commands

What can happen in a world: the program changes the foreign heap or the host heap, or it turns to
the collector. A run of a world is a list of commands, so a statement about all runs is a statement
about all lists.

## Main definitions

* `Mutation`, `HostAction`, `CollectorAction`: the three kinds of command.
* `Reply`: what a command answers.
* `Mutation.apply`, `HostAction.apply`, `CollectorAction.apply`: what it does.
-/

namespace CycleCollector

inductive Mutation where
  | alloc (count : Nat)
  | allocRing (count : Nat)
  | addRef (source target : ObjectId)
  | addUncounted (source target : ObjectId)
  | removeRef (source target : ObjectId)
  | forgetRef (source target : ObjectId)
  | retarget (o : ObjectId) (slot : Nat) (target : ObjectId)
  | incref (o : ObjectId)
  | decref (o : ObjectId)
  | setRefcount (o : ObjectId) (raw : Nat)
  | link (o : ObjectId) (h : HostRef)
  | setFinalizer (o : ObjectId) (kind : Finalizer)
  | setAtomic (o : ObjectId)
  | release (o : ObjectId)
deriving DecidableEq, Repr

inductive HostAction where
  | alloc (count : Nat)
  | addRoot (h : HostRef)
  | addEdge (source target : HostRef)
  | setNoHeapPtrs (h : HostRef)
  | beginCollection
  | writeBarrier (h : HostRef)
  | promote (h : HostRef)
  | drain
deriving DecidableEq, Repr

inductive CollectorAction where
  | track (o : ObjectId)
  | trackAll (os : List ObjectId)
  | untrack (o : ObjectId)
  | finalizersDone (o : ObjectId)
  | setCycleDetection (on : Bool)
  | requestSweep
  | step
  | collect
  /-- Steps, each with a drain after it, until the phase is reached, `limit` times at most. -/
  | advance (target : Phase) (limit : Nat)
deriving DecidableEq, Repr

inductive Reply where
  | done
  | allocated (os : List ObjectId)
  | hostAllocated (hs : List HostRef)
  | dropped (found : Bool)
  /-- Whether each object was refused, and why. -/
  | tracking (refusals : List (Option TrackError))
  /-- Whether each of the steps ended a pass. -/
  | stepped (finished : List Bool)
  /-- How many steps the pass took. -/
  | collected (steps : Nat)
deriving DecidableEq, Repr

def Mutation.apply (a : Arena) : Mutation → Except Fault (Reply × Arena)
  | .alloc count =>
    let (os, a) := a.alloc count
    .ok (.allocated os, a)
  | .allocRing count => do
    let (os, a) ← a.allocRing count
    return (.allocated os, a)
  | .addRef source target => (.done, ·) <$> a.addRef source target
  | .addUncounted source target => (.done, ·) <$> a.addUncounted source target
  | .removeRef source target => do
    let (found, a) ← a.removeRef source target
    return (.dropped found, a)
  | .forgetRef source target => do
    let (found, a) ← a.forgetRef source target
    return (.dropped found, a)
  | .retarget o slot target => (.done, ·) <$> a.retarget o slot target
  | .incref o => (.done, ·) <$> a.incref o
  | .decref o => (.done, ·) <$> a.decref o
  | .setRefcount o raw => (.done, ·) <$> a.setRefcount o raw
  | .link o h => (.done, ·) <$> a.link o h
  | .setFinalizer o kind => (.done, ·) <$> a.setFinalizer o kind
  | .setAtomic o => (.done, ·) <$> a.setAtomic o
  | .release o => (.done, ·) <$> a.release o

def HostAction.apply (g : HostHeap) : HostAction → Except Fault (Reply × HostHeap)
  | .alloc count =>
    let (hs, g) := g.alloc count
    .ok (.hostAllocated hs, g)
  | .addRoot h => .ok (.done, g.addRoot h)
  | .addEdge source target => (.done, ·) <$> g.addEdge source target
  | .setNoHeapPtrs h => (.done, ·) <$> g.setNoHeapPtrs h
  | .beginCollection => .ok (.done, g.beginCollection)
  | .writeBarrier h => .ok (.done, g.writeBarrier h)
  | .promote h => .ok (.done, g.promote h)
  | .drain => (.done, ·) <$> g.drain

namespace Collector

/-- The collector after a request about tracking, which leaves it alone if it is refused. -/
def resolve (c : Collector) : Except TrackError Collector → Option TrackError × Collector
  | .ok c => (none, c)
  | .error refusal => (some refusal, c)

def trackAll : Collector → List ObjectId → List (Option TrackError) × Collector
  | c, [] => ([], c)
  | c, o :: os =>
    let (refusal, c) := c.resolve (c.track o)
    let (refusals, c) := c.trackAll os
    (refusal :: refusals, c)

end Collector

namespace World

variable {ρ : Type}

def resolve (w : World ρ) (request : Except TrackError Collector) : Reply × World ρ :=
  let (refusal, collector) := w.collector.resolve request
  (.tracking [refusal], { w with collector })

/-- Steps, each with a drain after it, until the phase is reached, `limit` times at most. Says of
each step whether it ended a pass. -/
def advance [ForeignHeap ρ] (target : Phase) : Nat → World ρ →
    Except Fault (List Bool × World ρ)
  | 0, w => .ok ([], w)
  | limit + 1, w =>
    if w.collector.phase = target then .ok ([], w)
    else do
      let (finished, w) ← w.step
      let w ← w.drain
      let (others, w) ← advance target limit w
      return (finished :: others, w)

end World

def CollectorAction.apply {ρ : Type} [ForeignHeap ρ] (w : World ρ) :
    CollectorAction → Except Fault (Reply × World ρ)
  | .track o => .ok (w.resolve (w.collector.track o))
  | .trackAll os =>
    let (refusals, collector) := w.collector.trackAll os
    .ok (.tracking refusals, { w with collector })
  | .untrack o => .ok (w.resolve (w.collector.untrack o))
  | .finalizersDone o => .ok (w.resolve (w.collector.finalizersDone o))
  | .setCycleDetection on => .ok (.done, { w with collector := w.collector.setCycleDetection on })
  | .requestSweep => .ok (.done, { w with collector := w.collector.requestSweep })
  | .step => do
    let (finished, w) ← w.step
    return (.stepped [finished], w)
  | .collect => do
    let (steps, w) ← w.collect
    return (.collected steps, w)
  | .advance target limit => do
    let (finished, w) ← w.advance target limit
    return (.stepped finished, w)

end CycleCollector
