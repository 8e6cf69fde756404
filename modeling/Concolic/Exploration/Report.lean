import Concolic.Bus.Record
import Concolic.Frontier.Basic

namespace Concolic

structure FaultReport where
  run : String
  input : List (String × String)
  pos : String
  message : String
  deriving DecidableEq

inductive StopReason
  | exhausted
  | maxRuns
  | maxTime
  | stopped
  | cancelled
  deriving DecidableEq

def StopReason.name : StopReason → String
  | exhausted => "exhausted"
  | maxRuns => "max-runs"
  | maxTime => "max-time"
  | stopped => "stopped"
  | cancelled => "canceled"

@[ext] structure StopCause where
  message : String := ""
  trigger : String := ""
  deriving DecidableEq

namespace StopCause

def ofRecord (r : Bus.Record) : StopCause :=
  let field (name : String) : String := ((r.get? name).map Bus.Datum.render).getD ""
  { message := field "message", trigger := field "trigger" }

def banner (c : StopCause) : String :=
  "[explore] PROGRAM TERMINATION POINT REACHED"
    ++ (if c.message = "" then "" else "\n" ++ c.message)
    ++ (if c.trigger = "" then "" else "\nTRIGGER: " ++ c.trigger)

end StopCause

structure Report where
  runs : Nat := 0
  completed : Nat := 0
  faulted : Nat := 0
  aborted : Nat := 0
  divergences : Nat := 0
  faults : List FaultReport := []
  frontier : FrontierStats := {}
  reason : StopReason := .exhausted
  stop : StopCause := {}
  /-- In nanoseconds. -/
  elapsed : Int := 0
  history : List Run := []
  deriving DecidableEq

namespace Report

def counts (r : Report) : List (String × Nat) :=
  [("runs", r.runs), ("completed", r.completed), ("faulted", r.faulted), ("aborted", r.aborted),
    ("divergences", r.divergences)]

def isStopped (r : Report) : Bool := r.reason = .stopped

def inputs (r : Report) : List Input := r.history.map (·.input)

def record (r : Report) : Bus.Record :=
  .ofList [("runs", .int r.runs), ("completed", .int r.completed), ("faulted", .int r.faulted),
    ("aborted", .int r.aborted), ("reason", .text r.reason.name), ("elapsed", .duration r.elapsed),
    ("StopController.was-stopped", .bool r.isStopped),
    ("StopController.message", .text r.stop.message),
    ("StopController.trigger", .text (if r.stop.trigger = "" then "?" else r.stop.trigger))]

end Report

namespace Run

def record (r : Run) : Bus.Record :=
  .ofList [("id", .text r.id), ("seq", .int r.seq), ("parent", .text r.parent),
    ("status", .text r.status.name), ("reason", .text r.reason), ("input", .text r.input.text),
    ("branches", .int r.path.length)]

def faultReport (r : Run) : FaultReport :=
  { run := r.id, input := r.input.strings, pos := (r.path.getLast?.map (·.pos)).getD "",
    message := r.reason }

def faultRecord (r : Run) : Bus.Record :=
  .ofList [("id", .text r.id), ("input", .text r.input.text), ("pos", .text r.faultReport.pos),
    ("message", .text r.reason)]

end Run

def FrontierStats.record (s : FrontierStats) (added : Nat) : Bus.Record :=
  .ofList [("added", .int added), ("pending", .int s.pending), ("deferred", .int s.deferred),
    ("covered", .int s.covered), ("sat", .int s.sat), ("unsat", .int s.unsat),
    ("unknown", .int s.unknown), ("abandoned", .int s.abandoned)]

end Concolic
