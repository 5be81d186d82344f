import CycleCollector.Demo.Arguments
import CycleCollector.Demo.Report
import CycleCollector.Session.Command
/-!
# The demonstration

Builds rings of foreign objects, some of them tied to the host heap or held from outside, and lets
the collector run through a number of collections of the host heap.

## Main definitions

* `Demo.Scene`: the world with its rings.
* `Demo.Scene.build`, `Demo.Scene.round`: sets it up, and runs one collection.
* `Demo.run`: the whole demonstration.
-/

namespace CycleCollector.Demo

inductive Failure where
  /-- Rings without objects were asked for. -/
  | emptyRings
  | fault (cause : Fault)
deriving DecidableEq, Repr

def Failure.message : Failure → String
  | .emptyRings => "ring size must be at least 1"
  | .fault cause => cause.message

structure Scene where
  world : World Arena := { foreign := {} }
  /-- The objects of each ring, in order. -/
  rings : List (List ObjectId) := []
deriving DecidableEq, Repr

def Arguments.options (args : Arguments) : Options where
  cycleDetection := !args.disableCycles
  scansPerStep := args.scansPerStep
  eagerHostTrace := !args.lazyHostTrace

namespace Scene

/-- Links the first object of ring number `i` to a new host object, a root if the arguments say
so. -/
def bridge (args : Arguments) (w : World Arena) (i : Nat) (ring : List ObjectId) :
    Except Fault (World Arena) :=
  match args.bridged, ring with
  | true, o :: _ => do
    let h := w.host.fresh
    let (_, host) := w.host.alloc 1
    let foreign ← w.foreign.link o h
    return { w with foreign, host := if i < args.rooted then host.addRoot h else host }
  | _, _ => .ok w

/-- Holds the last object of ring number `i` from outside if the arguments say so. -/
def hold (args : Arguments) (w : World Arena) (i : Nat) (ring : List ObjectId) :
    Except Fault (World Arena) :=
  match decide (i < args.held), ring.getLast? with
  | true, some o => do
    return { w with foreign := ← w.foreign.incref o }
  | _, _ => .ok w

def addRing (args : Arguments) (s : Scene) (i : Nat) : Except Fault Scene := do
  let (ring, foreign) ← s.world.foreign.allocRing args.ringSize
  let w ← bridge args { s.world with foreign } i ring
  let w ← hold args w i ring
  return {
    world := { w with collector := (w.collector.trackAll ring).2 }
    rings := s.rings ++ [ring] }

def build (args : Arguments) : Except Fault Scene :=
  (List.range args.rings).foldlM (addRing args)
    { world := { collector := { options := args.options }, foreign := {} } }

/-- What the program does before a step of round number `i`: before the verdict of the first round
it may point the first ring into the second one. -/
def interfere (args : Arguments) (rings : List (List ObjectId)) (i : Nat) (phase : Phase)
    (a : Arena) : Except Fault Arena :=
  if i = 0 ∧ args.mutate ∧ phase = .marked then
    match rings with
    | (o :: _) :: (target :: _) :: _ => a.retarget o 0 target
    | _ => .ok a
  else .ok a

def round (args : Arguments) (s : Scene) (i : Nat) : Except Fault (Round × Scene) := do
  let w := { s.world with host := s.world.host.beginCollection }
  let (steps, w) ← w.collectWith (interfere args s.rings i)
  return ({ number := i, steps, outcome := w.collector.lastOutcome }, { s with world := w })

def runRounds (args : Arguments) : Scene → List Nat → Except Fault (List Round × Scene)
  | s, [] => .ok ([], s)
  | s, i :: is => do
    let (first, s) ← s.round args i
    let (others, s) ← s.runRounds args is
    return (first :: others, s)

def report (s : Scene) (rounds : List Round) : Report where
  rounds
  live := s.world.foreign.liveObjects.length
  total := s.world.foreign.size
  stats := s.world.collector.stats

end Scene

def perform (args : Arguments) : Except Fault Report := do
  let scene ← Scene.build args
  let (rounds, scene) ← scene.runRounds args (List.range args.rounds)
  return scene.report rounds

def run (args : Arguments) : Except Failure Report :=
  if args.ringSize = 0 then .error .emptyRings
  else (perform args).mapError .fault

end CycleCollector.Demo
