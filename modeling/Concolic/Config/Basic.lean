import Concolic.Exploration.Settings
import Concolic.Log
import Concolic.Text.Duration

namespace Concolic

inductive SolverName
  | sat | z3
  deriving DecidableEq

def SolverName.ofName? : String → Option SolverName
  | "sat" => some sat
  | "z3" => some z3
  | _ => none

/-- A configuration. Times are texts such as `1m30s`; empty texts and a missing number are not
set. -/
structure Config where
  strategy : String := ""
  workers : Int := 0
  maxRuns : Int := 0
  maxTime : String := ""
  solver : String := ""
  solverTimeout : String := ""
  maxRetries : Option Int := none
  defaultPolicy : String := ""
  seed : Int := 0
  logLevel : String := ""
  metricsAddress : String := ""
  deriving DecidableEq

namespace Config

inductive Entry
  | text (s : String)
  | number (n : Int)
  | long (n : Int)
  | optional (n : Option Int)
  deriving DecidableEq

def entries (c : Config) : List (String × Entry) :=
  [("strategy", .text c.strategy), ("workers", .number c.workers), ("max_runs", .number c.maxRuns),
   ("max_time", .text c.maxTime), ("solver", .text c.solver),
   ("solver_timeout", .text c.solverTimeout), ("max_retries", .optional c.maxRetries),
   ("default_policy", .text c.defaultPolicy), ("seed", .long c.seed),
   ("log_level", .text c.logLevel), ("metrics_addr", .text c.metricsAddress)]

def set (c : Config) (name : String) (e : Entry) : Config :=
  match name, e with
  | "strategy", .text s => { c with strategy := s }
  | "workers", .number n => { c with workers := n }
  | "max_runs", .number n => { c with maxRuns := n }
  | "max_time", .text s => { c with maxTime := s }
  | "solver", .text s => { c with solver := s }
  | "solver_timeout", .text s => { c with solverTimeout := s }
  | "max_retries", .optional n => { c with maxRetries := n }
  | "default_policy", .text s => { c with defaultPolicy := s }
  | "seed", .long n => { c with seed := n }
  | "log_level", .text s => { c with logLevel := s }
  | "metrics_addr", .text s => { c with metricsAddress := s }
  | _, _ => c

inductive Error
  | unknownStrategy (name : String)
  | unknownPolicy (name : String)
  | unknownLevel (name : String)
  | unknownSolver (name : String)
  | negativeNumber (setting : String) (n : Int)
  | invalidTime (setting text : String)
  | negativeTime (setting text : String)
  deriving DecidableEq

def Error.message : Error → String
  | unknownStrategy name => SearchPlan.unknownMessage name
  | unknownPolicy name => DefaultPolicy.unknownMessage name
  | unknownLevel name => "not a valid logrus Level: " ++ Text.quote name
  | unknownSolver name => "config: unknown solver: " ++ Text.quote name
  | negativeNumber setting n => "config: " ++ setting ++ " must not be negative: " ++ toString n
  | invalidTime setting text => "config: invalid " ++ setting ++ ": " ++ Text.quote text
  | negativeTime setting text => "config: " ++ setting ++ " must not be negative: " ++ text

protected def default : Config where
  strategy := "dfs"
  workers := 1
  solver := "sat"
  solverTimeout := "5s"
  maxRetries := some 1
  defaultPolicy := "zero"
  logLevel := "info"

def textOr (s other : String) : String := if s = "" then other else s

def withDefaults (c : Config) : Config :=
  let d := Config.default
  { c with
    strategy := textOr c.strategy d.strategy
    workers := if c.workers = 0 then d.workers else c.workers
    solver := textOr c.solver d.solver
    solverTimeout := textOr c.solverTimeout d.solverTimeout
    maxRetries := c.maxRetries.or d.maxRetries
    defaultPolicy := textOr c.defaultPolicy d.defaultPolicy
    logLevel := textOr c.logLevel d.logLevel }

def maxTimeLimit (c : Config) : Int := (Duration.parse c.maxTime).toOption.getD 0

def solverTimeLimit (c : Config) : Int :=
  (Duration.parse c.solverTimeout).toOption.getD 5000000000

def level (c : Config) : LogLevel := (LogLevel.ofName? c.logLevel).getD .info

def checkTime (setting text : String) : Except Error Unit :=
  if text = "" then .ok ()
  else
    match Duration.parse text with
    | .error _ => .error (.invalidTime setting text)
    | .ok n => if n < 0 then .error (.negativeTime setting text) else .ok ()

def plan (c : Config) : Except Error SearchPlan :=
  (SearchPlan.parse c.strategy).mapError .unknownStrategy

def policy (c : Config) : Except Error DefaultPolicy :=
  (DefaultPolicy.ofName? c.defaultPolicy).elim (.error (.unknownPolicy c.defaultPolicy)) .ok

def check (c : Config) : Except Error Unit := do
  let _ ← c.plan
  let _ ← c.policy
  if (LogLevel.ofName? c.logLevel).isNone then throw (.unknownLevel c.logLevel)
  if (SolverName.ofName? c.solver).isNone then throw (.unknownSolver c.solver)
  if c.workers < 0 then throw (.negativeNumber "workers" c.workers)
  if c.maxRuns < 0 then throw (.negativeNumber "max_runs" c.maxRuns)
  checkTime "max_time" c.maxTime
  checkTime "solver_timeout" c.solverTimeout

def error? (c : Config) : Option Error :=
  match c.check with
  | .ok _ => none
  | .error e => some e

def settings (c : Config) : Except Error Settings := do
  c.check
  return {
    plan := ← c.plan
    workers := c.workers
    maxRuns := c.maxRuns
    maxTime := c.maxTimeLimit
    solverTimeout := c.solverTimeLimit
    maxRetries := max 0 (c.maxRetries.getD 0)
    policy := ← c.policy
    seed := Int64.ofInt c.seed }

end Config

end Concolic
