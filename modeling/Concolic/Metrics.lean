import Concolic.Bus.Broker
import Concolic.Bus.Record
import Concolic.Ieee.Arithmetic

namespace Concolic

/-- Observed durations in seconds: how many there were and their sum, and how many were at most each
bound. -/
structure Histogram where
  count : Nat := 0
  sum : Nat := 0
  buckets : List (Nat × Nat)
  deriving DecidableEq

namespace Histogram

def geometric (start factor : Nat) : Nat → List (Nat × Nat)
  | 0 => []
  | n + 1 => (start, 0) :: geometric (Ieee.double.mul start factor) factor n

def durations : Histogram :=
  { buckets := geometric (Ieee.double.nearest false 1 10000) (Ieee.double.ofInt 4) 10 }

def observe (h : Histogram) (x : Nat) : Histogram :=
  { count := h.count + 1
    sum := Ieee.double.add h.sum x
    buckets := h.buckets.map fun (bound, n) =>
      (bound, if (Ieee.double.decode x).le (Ieee.double.decode bound) then n + 1 else n) }

end Histogram

def secondsOf (nanoseconds : Int) : Nat :=
  Ieee.double.add (Ieee.double.ofInt (nanoseconds.tdiv 1000000000))
    (Ieee.double.div (Ieee.double.ofInt (nanoseconds.tmod 1000000000))
      (Ieee.double.ofInt 1000000000))

abbrev Tally := List (String × Nat)

namespace Tally

def increment (label : String) (t : Tally) : Tally := Entries.alter label (·.getD 0 + 1) t

end Tally

structure Metrics where
  runs : Tally := []
  faults : Nat := 0
  solves : Tally := []
  solveDuration : Histogram := .durations
  pending : Int := 0
  deferred : Int := 0
  covered : Int := 0
  stops : Nat := 0

namespace Metrics

def countStatus (tally : Tally) (r : Bus.Record) : Tally :=
  match r.get? "status" with
  | some (.text status) => tally.increment status
  | _ => tally

def gauge (old : Int) (r : Bus.Record) (name : String) : Int :=
  match r.get? name with
  | some (.int i) => i
  | _ => old

def onSolve (m : Metrics) (r : Bus.Record) : Metrics :=
  { m with
    solves := countStatus m.solves r
    solveDuration :=
      match r.get? "duration" with
      | some (.duration ns) => m.solveDuration.observe (secondsOf ns)
      | _ => m.solveDuration }

def receive (m : Metrics) (topic : String) (r : Bus.Record) : Metrics :=
  if topic = Bus.runTopic then { m with runs := countStatus m.runs r }
  else if topic = Bus.faultTopic then { m with faults := m.faults + 1 }
  else if topic = Bus.solveTopic then m.onSolve r
  else if topic = Bus.frontierTopic then
    { m with
      pending := gauge m.pending r "pending"
      deferred := gauge m.deferred r "deferred"
      covered := gauge m.covered r "covered" }
  else if topic = Bus.stopTopic then { m with stops := m.stops + 1 }
  else m

def topics : List String :=
  [Bus.runTopic, Bus.faultTopic, Bus.solveTopic, Bus.frontierTopic, Bus.stopTopic]

def scalars (m : Metrics) : List (String × Option String × Int) :=
  [("diver_faults_total", none, (m.faults : Int)), ("diver_frontier_pending", none, m.pending),
    ("diver_frontier_deferred", none, m.deferred), ("diver_frontier_covered", none, m.covered),
    ("diver_stop_requests_total", none, (m.stops : Int))]
    ++ m.runs.map (fun (l, n) => ("diver_runs_total", some l, (n : Int)))
    ++ m.solves.map (fun (l, n) => ("diver_solves_total", some l, (n : Int)))

def durationName : String := "diver_solve_duration_seconds"

end Metrics

structure Monitor where
  metrics : Metrics := {}
  broker : Bus.Broker Unit := {}
  subscriptions : List (Bus.Subscription Unit) := []

namespace Monitor

def subscribe (m : Monitor) : Monitor :=
  Metrics.topics.foldl (fun m topic =>
    let (s, broker) := m.broker.subscribe topic ()
    { m with broker, subscriptions := m.subscriptions ++ [s] }) m

def publish (m : Monitor) (topic : String) (r : Bus.Record) : Monitor :=
  (m.broker.recipients topic).foldl (fun m _ => { m with metrics := m.metrics.receive topic r }) m

def close (m : Monitor) : Monitor :=
  { m with
    broker := m.subscriptions.foldl (fun b s => b.unsubscribe s) m.broker
    subscriptions := [] }

end Monitor

end Concolic
