import CycleCollector.Arena.Essential
import CycleCollector.Session.Command
/-!
# Sessions

A session is a world over an arena in which commands are carried out one after the other. It starts
empty. The collector sees the arena through its full interface, or through the required part of it
only; the program always sees all of it.

## Main definitions

* `Session`, `Session.start`: the state and how it begins.
* `Session.exec`, `Session.run`: one command, and a list of them.
-/

namespace CycleCollector

inductive Interface where
  /-- All of it. -/
  | full
  /-- What a foreign heap must offer, and no more. -/
  | essential
deriving DecidableEq, Repr

inductive Command where
  | foreign (mutation : Mutation)
  | host (action : HostAction)
  | collector (action : CollectorAction)
deriving DecidableEq, Repr

structure Session where
  interface : Interface := .full
  world : World Arena := { foreign := {} }
deriving DecidableEq, Repr

namespace Session

def start (interface : Interface) (options : Options) : Session where
  interface
  world := { collector := { options }, foreign := {} }

def exec (s : Session) : Command → Except Fault (Reply × Session)
  | .foreign mutation => do
    let (reply, foreign) ← mutation.apply s.world.foreign
    return (reply, { s with world := { s.world with foreign } })
  | .host action => do
    let (reply, host) ← action.apply s.world.host
    return (reply, { s with world := { s.world with host } })
  | .collector action =>
    match s.interface with
    | .full => do
      let (reply, world) ← action.apply s.world
      return (reply, { s with world })
    | .essential => do
      let (reply, world) ← action.apply (s.world.mapForeign Essential.mk)
      return (reply, { s with world := world.mapForeign Essential.arena })

/-- Carries out commands in order, up to the first fault, and gives the answers. -/
def run : Session → List Command → Except Fault (List Reply × Session)
  | s, [] => .ok ([], s)
  | s, command :: commands => do
    let (reply, s) ← s.exec command
    let (replies, s) ← s.run commands
    return (reply :: replies, s)

end Session

end CycleCollector
