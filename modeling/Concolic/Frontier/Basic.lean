import Concolic.Frontier.Strategy
import Concolic.Solver.Basic
import Std.Data.TreeMap
import Std.Data.TreeSet

namespace Concolic

structure FrontierStats where
  pending : Nat := 0
  deferred : Nat := 0
  covered : Nat := 0
  sat : Nat := 0
  unsat : Nat := 0
  unknown : Nat := 0
  abandoned : Nat := 0
  skipped : Nat := 0
  deriving DecidableEq

def FrontierStats.fields (s : FrontierStats) : List (String × Nat) :=
  [("pending", s.pending), ("deferred", s.deferred), ("covered", s.covered), ("sat", s.sat),
    ("unsat", s.unsat), ("unknown", s.unknown), ("abandoned", s.abandoned), ("skipped", s.skipped)]

structure Frontier where
  maxRetries : Int
  pending : List BranchPoint := []
  deferred : List BranchPoint := []
  covered : Std.TreeSet UInt64 := {}
  seen : Std.TreeSet UInt64 := {}
  retries : Std.TreeMap UInt64 Nat := {}
  turn : Nat := 0
  counters : FrontierStats := {}

namespace Frontier

def cover (f : Frontier) (keys : List UInt64) : Frontier :=
  { f with covered := keys.foldl (fun s k => s.insert k) f.covered }

def offer (f : Frontier) (p : BranchPoint) : Frontier :=
  if f.covered.contains p.key || f.seen.contains p.key then f
  else { f with seen := f.seen.insert p.key, pending := f.pending ++ [p] }

def expand (f : Frontier) (run : Run) : Nat × Frontier :=
  let g := run.points.foldl offer (f.cover run.takenKeys)
  (g.pending.length - f.pending.length, g)

def refill (f : Frontier) : Frontier :=
  if f.pending.isEmpty then { f with pending := f.deferred, deferred := [] } else f

def select (strategy : Strategy) (f : Frontier) : Except Defect (BranchPoint × Frontier) := do
  let i ← strategy f.turn f.pending
  if i < 0 then throw .indexOutOfRange
  match f.pending[i.toNat]? with
  | none => throw .indexOutOfRange
  | some p => return (p, { f with turn := f.turn + 1, pending := f.pending.eraseIdx i.toNat })

def skip (f : Frontier) : Frontier :=
  { f with counters := { f.counters with skipped := f.counters.skipped + 1 } }

/-- The next point whose direction is still not covered; others are dropped. The fuel bounds how many
are looked at. -/
def nextFrom (strategy : Strategy) :
    (fuel : Nat) → Frontier → Except Defect (Option BranchPoint × Frontier)
  | 0, f => return (none, f)
  | fuel + 1, f => do
    let f := f.refill
    if f.pending.isEmpty then return (none, f)
    let (p, f) ← select strategy f
    if f.covered.contains p.key then nextFrom strategy fuel f.skip else return (some p, f)

def size (f : Frontier) : Nat := f.pending.length + f.deferred.length

def next (strategy : Strategy) (f : Frontier) : Except Defect (Option BranchPoint × Frontier) :=
  nextFrom strategy (f.size + 1) f

def retriesOf (f : Frontier) (p : BranchPoint) : Nat := f.retries.getD p.key 0

/-- Takes note of the answer for a point. One that is not known is asked for again later, as often as
retries are allowed. -/
def resolve (f : Frontier) (p : BranchPoint) (status : Satisfiability) : Frontier :=
  match status with
  | .sat => { f with counters := { f.counters with sat := f.counters.sat + 1 } }
  | .unsat => { f with counters := { f.counters with unsat := f.counters.unsat + 1 } }
  | .unknown | .other _ _ =>
    let counters := { f.counters with unknown := f.counters.unknown + 1 }
    if (f.retriesOf p : Int) < f.maxRetries then
      { f with
        counters
        retries := f.retries.insert p.key (f.retriesOf p + 1)
        deferred := f.deferred ++ [p] }
    else { f with counters := { counters with abandoned := counters.abandoned + 1 } }

def isCovered (f : Frontier) (path : List Branch) (index : Nat) (taken : Bool) :
    Except Defect Bool := do
  return f.covered.contains (← branchKey path index taken)

def stats (f : Frontier) : FrontierStats :=
  { f.counters with
    pending := f.pending.length
    deferred := f.deferred.length
    covered := f.covered.size }

end Frontier

end Concolic
