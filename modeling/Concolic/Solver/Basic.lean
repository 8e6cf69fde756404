import Concolic.Input

namespace Concolic

inductive Satisfiability
  | unknown | sat | unsat
  | other (code : Int64) (outside : 2 < code ∨ code < 0)
  deriving DecidableEq

namespace Satisfiability

def ofCode (c : Int64) : Satisfiability :=
  if h : 2 < c ∨ c < 0 then .other c h
  else if c = 0 then unknown else if c = 1 then sat else unsat

def ofName? : String → Option Satisfiability
  | "unknown" => some unknown
  | "sat" => some sat
  | "unsat" => some unsat
  | _ => none

def name : Satisfiability → String
  | unknown => "unknown"
  | sat => "sat"
  | unsat => "unsat"
  | other c _ => "Satisfiability<" ++ toString c.toInt ++ ">"

end Satisfiability

structure Solution where
  status : Satisfiability
  bindings : Input := ∅
  reason : String := ""
  deriving DecidableEq

namespace Solution

def unknown (reason : String) : Solution := { status := .unknown, reason }

def unsat : Solution := { status := .unsat }

def sat (bindings : Input) : Solution := { status := .sat, bindings }

end Solution

structure SolverStats where
  solves : Nat := 0
  sat : Nat := 0
  unsat : Nat := 0
  unknown : Nat := 0
  deriving DecidableEq

namespace SolverStats

def add (s : SolverStats) (status : Satisfiability) : SolverStats :=
  let s := { s with solves := s.solves + 1 }
  match status with
  | .sat => { s with sat := s.sat + 1 }
  | .unsat => { s with unsat := s.unsat + 1 }
  | .unknown | .other _ _ => { s with unknown := s.unknown + 1 }

end SolverStats

/-- The limits of a query: whether it was called off, and the nanoseconds it may take. -/
structure Allowance where
  cancelled : Bool := false
  timeout : Option Nat := none
  deriving DecidableEq

namespace Allowance

def shortest : Nat := 1000

def refusal? (a : Allowance) : Option String :=
  if a.cancelled then some "context canceled"
  else if a.timeout.any (· < shortest) then some "context deadline exceeded"
  else none

end Allowance

abbrev SolverFailure := Failure String

abbrev Solver (σ : Type) := Allowance → List Term → σ → Except SolverFailure Solution × σ

def Solver.absent : Solver Unit := fun _ _ s =>
  (.ok (.unknown "z3: not compiled in, rebuild with -tags z3"), s)

end Concolic
