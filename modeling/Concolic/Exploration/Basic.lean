import Concolic.Bus.Broker
import Concolic.Exploration.Derivation
import Concolic.Exploration.Report
import Concolic.Exploration.Subject
import Concolic.Log

/-!
Explorations. A coordinator hands branch points out to workers and takes their outcomes back; each of
these steps is a function of the exploration, so that any order of them can be looked at.
-/

namespace Concolic

structure Explorer where
  subject : Subject
  settings : Settings := {}
  generator : Generator := .standard
  strategy : Strategy := settings.plan.select (g := generator) settings.seed

def Explorer.initial (e : Explorer) (id : String) (input : Input) : RunState :=
  { id, given := input, defaults := e.settings.policy.value (g := e.generator) e.settings.seed }

structure StopRule where
  topic : String
  count : Nat
  records : List Bus.Record

inductive Listener
  | recorder
  | rule (r : StopRule)
  | controller

structure Exploration where
  frontier : Frontier
  inFlight : List BranchPoint := []
  history : Array Run := #[]
  completed : Nat := 0
  faulted : Nat := 0
  aborted : Nat := 0
  divergences : Nat := 0
  faults : Array FaultReport := #[]
  begun : Nat := 0
  stop : Option StopCause := none
  cancelled : Bool := false
  remaining : Option Nat := none
  broker : Bus.Broker Listener := {}
  events : Array (String × Bus.Record) := #[]
  heard : Nat := 0
  log : Array LogEntry := #[]

namespace Exploration

def subscribe (x : Exploration) (topic : String) (l : Listener) : Exploration :=
  { x with broker := (x.broker.subscribe topic l).2 }

def note (x : Exploration) (level : LogLevel) (message : String)
    (fields : List (String × String) := []) : Exploration :=
  { x with log := x.log.push { level, message, fields } }

/-- Handles a request to stop. Only the first one counts. -/
def requestStop (x : Exploration) (r : Bus.Record) : Exploration :=
  match x.stop with
  | some _ => x
  | none =>
    let cause := StopCause.ofRecord r
    { x with stop := some cause }.note .info cause.banner

def deliver (ask : Bus.Record → Exploration → Exploration) (topic : String) (r : Bus.Record)
    (x : Exploration) (s : Bus.Subscription Listener) : Exploration :=
  match s.listener with
  | .recorder => { x with events := x.events.push (topic, r) }
  | .controller => x.requestStop r
  | .rule rule =>
    let x := { x with heard := x.heard + 1 }
    if x.heard = rule.count then rule.records.foldl (fun x r => ask r x) x else x

/-- Delivers a record to the listeners. The requests of rules that hear it are delivered first, down
to a depth. -/
def publishWithin : (depth : Nat) → (topic : String) → Bus.Record → Exploration → Exploration
  | 0, _, _, x => x
  | depth + 1, topic, r, x =>
    (x.broker.recipients topic).foldl (deliver (publishWithin depth Bus.stopTopic) topic r) x

/-- A rule fires once, so that this depth is enough. -/
def publish (x : Exploration) (topic : String) (r : Bus.Record) : Exploration :=
  publishWithin 3 topic r x

def publishStop (x : Exploration) : Option Bus.Record → Exploration
  | some r => x.publish Bus.stopTopic r
  | none => x

def isExpired (x : Exploration) : Bool := x.remaining.any (· < Allowance.shortest)

def isOver (x : Exploration) : Bool := x.cancelled || x.stop.isSome || x.isExpired

def allowance (e : Explorer) (x : Exploration) : Allowance :=
  let timeout : Option Nat :=
    if 0 < e.settings.solverTimeout then some e.settings.solverTimeout.toNat else none
  { cancelled := x.cancelled || x.stop.isSome
    timeout := match timeout, x.remaining with
      | some t, some r => some (min t r)
      | some t, none => some t
      | none, r => r }

def nextId (x : Exploration) : String := "r" ++ toString (x.begun + 1)

def noteConclusion (x : Exploration) (id : String) (c : Conclusion) : Exploration :=
  match c.earlyEnd with
  | some early =>
    if early.status = RunStatus.aborted then
      x.note .warning ("[run] aborted:\n" ++ c.final.text) [("error", early.message), ("run", id)]
    else x
  | none => x

def conclusion (e : Explorer) (input : Input) (x : Exploration) : Conclusion :=
  e.subject x.cancelled (e.initial x.nextId input)

def announce (x : Exploration) (input : Input) (c : Conclusion) : Exploration :=
  let y := { x with begun := x.begun + 1, cancelled := x.cancelled || c.cancelled }.note .debug
    ("[run] begin: " ++ input.text) [("run", x.nextId)]
  y.publishStop c.stop

def execute (e : Explorer) (input : Input) (origin : Option BranchPoint) (x : Exploration) :
    Option Run × Exploration :=
  let id := x.nextId
  let c := x.conclusion e input
  let x := x.announce input c
  if x.cancelled && c.isCalledOff then (none, x.note .debug "[run] canceled" [("run", id)])
  else
    let run := c.record id ((origin.map (·.run.id)).getD "")
    (some run, (x.noteConclusion id c).note .debug ("[run] end: " ++ run.input.text)
      [("branches", toString run.path.length), ("run", id), ("status", run.status.name)])

def count (x : Exploration) : RunStatus → Exploration
  | .completed => { x with completed := x.completed + 1 }
  | .faulted => { x with faulted := x.faulted + 1 }
  | .aborted => { x with aborted := x.aborted + 1 }
  | .running | .other _ => x

def checkDivergence (x : Exploration) (run : Run) : Option BranchPoint → Exploration
  | none => x
  | some origin =>
    if x.frontier.covered.contains origin.key then x
    else
      { x with divergences := x.divergences + 1 }.note .warning
        ("[run] diverged from " ++ origin.text) [("run", run.id)]

def reportFault (x : Exploration) (run : Run) : Exploration :=
  if run.status = .faulted then
    ({ x with faults := x.faults.push run.faultReport }.note .info
      ("[fault] " ++ run.reason ++ ": " ++ run.input.text) [("run", run.id)]).publish
      Bus.faultTopic run.faultRecord
  else x

def record (x : Exploration) (run : Run) (origin : Option BranchPoint) : Exploration :=
  let run := { run with seq := x.history.size + 1 }
  let x := { x with history := x.history.push run }.count run.status
  let (added, frontier) := x.frontier.expand run
  let x := { x with frontier }.checkDivergence run origin
  let x := (x.publish Bus.runTopic run.record).reportFault run
  x.publish Bus.frontierTopic (x.frontier.stats.record added)

def mayDispatch (e : Explorer) (x : Exploration) : Bool :=
  x.inFlight.length < e.settings.workerCount && !x.isOver
    && (e.settings.maxRuns ≤ 0
      || ((x.history.size + x.inFlight.length : Nat) : Int) < e.settings.maxRuns)

def dispatch (e : Explorer) (x : Exploration) : Bool × Exploration :=
  if x.mayDispatch e then
    match x.frontier.next e.strategy with
    | .ok (some p, frontier) => (true, { x with frontier, inFlight := x.inFlight ++ [p] })
    | .ok (none, frontier) => (false, { x with frontier })
    | .error _ => (false, x)
  else (false, x)

def derive (e : Explorer) (p : BranchPoint) (answer : Except SolverFailure Solution)
    (duration : Int) (x : Exploration) : Except Defect (Solution × Option Input) × Exploration :=
  match Solution.ofAnswer answer with
  | .error d => (.error d, x)
  | .ok s => (p.derive e.settings.policy s, x.publish Bus.solveTopic (s.record p duration))

def unsolved (x : Exploration) (p : BranchPoint) (s : Solution) : Exploration :=
  x.note .debug ("[solve] " ++ s.status.name ++ ": " ++ s.reason) [("branch", p.text)]

def work (e : Explorer) (p : BranchPoint) (answer : Except SolverFailure Solution) (duration : Int)
    (x : Exploration) : (Satisfiability × Option Run) × Exploration :=
  let (derived, x) := x.derive e p answer duration
  match derived with
  | .ok (s, some input) =>
    let (run, x) := x.execute e input (some p)
    ((s.status, run), x)
  | .ok (s, none) => ((s.status, none), x.unsolved p s)
  | .error d => ((.unknown, none), x.unsolved p (.unknown d.message))

def receive (x : Exploration) (p : BranchPoint) (status : Satisfiability) (run : Option Run) :
    Exploration :=
  let x :=
    { x with
      inFlight := x.inFlight.eraseP (·.key == p.key)
      frontier := x.frontier.resolve p status }
  match run with
  | some run => x.record run (some p)
  | none => x

def settle (e : Explorer) (p : BranchPoint) (answer : Except SolverFailure Solution)
    (duration : Int) (x : Exploration) : Exploration :=
  let ((status, run), x) := x.work e p answer duration
  x.receive p status run

def begin (e : Explorer) (input : Input) (x : Exploration) : Exploration :=
  let x := x.note .info ("[explore] begin: workers=" ++ toString e.settings.workerCount)
  match x.execute e input none with
  | (some run, x) => x.record run none
  | (none, x) => x

def reason (x : Exploration) : StopReason :=
  if x.cancelled then .cancelled
  else if x.stop.isSome then .stopped
  else if x.isExpired then .maxTime
  else if x.frontier.size = 0 then .exhausted
  else .maxRuns

def report (x : Exploration) (elapsed : Int) : Report :=
  { runs := x.history.size
    completed := x.completed
    faulted := x.faulted
    aborted := x.aborted
    divergences := x.divergences
    faults := x.faults.toList
    frontier := x.frontier.stats
    reason := x.reason
    stop := x.stop.getD {}
    elapsed
    history := x.history.toList }

def finish (x : Exploration) (elapsed : Int) : Report × Exploration :=
  let r := x.report elapsed
  let x := x.note .info ("[explore] end: " ++ Duration.text elapsed)
    [("faulted", toString r.faulted), ("reason", r.reason.name), ("runs", toString r.runs)]
  (r, x.publish Bus.reportTopic r.record)

def dismiss (x : Exploration) : Exploration :=
  let controllers := x.broker.live.filter fun s =>
    match s.listener with
    | .controller => true
    | _ => false
  { x with broker := controllers.foldl (fun b s => b.unsubscribe s) x.broker }

end Exploration

end Concolic
