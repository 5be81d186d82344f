import CycleCollector.Collector.Basic
/-!
# The report of the demonstration

What the demonstration tells: each round with its outcome, the objects that are left, and the
statistics of the collector. `Report.lines` is the printed form.
-/

namespace CycleCollector

def Stats.fields (s : Stats) : List (String × Nat) :=
  [("passes", s.passes),
    ("sweeps", s.sweeps),
    ("snapshots_taken", s.snapshotsTaken),
    ("snapshots_discarded", s.snapshotsDiscarded),
    ("last_snapshot_objects", s.lastSnapshotObjects),
    ("last_snapshot_edges", s.lastSnapshotEdges),
    ("scans", s.scans),
    ("promotions", s.promotions),
    ("border_marked", s.borderMarked),
    ("released", s.released),
    ("isolated", s.isolated),
    ("legacy_garbage", s.legacyGarbage),
    ("resurrected_passes", s.resurrectedPasses),
    ("untracked_containers", s.untrackedContainers)]

def Stats.lines (s : Stats) : List String :=
  ["Stats \x7b"] ++ s.fields.map (fun (name, n) => "    " ++ name ++ ": " ++ toString n ++ ",") ++
    ["\x7d"]

namespace Demo

structure Round where
  number : Nat
  steps : Nat
  outcome : Option Outcome
deriving DecidableEq, Repr

structure Report where
  rounds : List Round
  /-- Foreign objects that are left. -/
  live : Nat
  /-- Foreign objects that were allocated. -/
  total : Nat
  stats : Stats
deriving DecidableEq, Repr

def Round.ending (r : Round) : String :=
  match r.outcome with
  | some (.collected released _ _) => toString released ++ " objects released"
  | some .swept => "Some(Swept)"
  | some .resurrected => "Some(Resurrected)"
  | none => "None"

def Round.line (r : Round) : String :=
  "round " ++ toString r.number ++ ": " ++ toString r.steps ++ " steps, " ++ r.ending

def Report.census (r : Report) : String :=
  toString r.live ++ " of " ++ toString r.total ++ " foreign objects alive"

def Report.lines (r : Report) : List String :=
  r.rounds.map Round.line ++ [r.census] ++ r.stats.lines

end Demo

end CycleCollector
