import Concolic.Bus.Record
import Concolic.Exploration.Settings
import Concolic.Solver.Basic
import Concolic.Term.Eval

namespace Concolic

namespace Solution

def ofAnswer : Except SolverFailure Solution → Except Defect Solution
  | .ok s => .ok s
  | .error (.error message) => .ok (.unknown message)
  | .error (.defect d) => .error d

def record (s : Solution) (p : BranchPoint) (duration : Int) : Bus.Record :=
  .ofList [("branch", .text p.text), ("status", .text s.status.name), ("reason", .text s.reason),
    ("duration", .duration duration)]

end Solution

def objection? (i : Input) : List Term → Except Defect (Option String)
  | [] => .ok none
  | t :: rest =>
    match t.evalBool i with
    | .ok true => objection? i rest
    | .ok false => .ok (some ("model does not satisfy " ++ t.text))
    | .error (.error e) => .ok (some ("model verification: " ++ e.message))
    | .error (.defect d) => .error d

namespace BranchPoint

def ask {σ : Type} (p : BranchPoint) (solver : Solver σ) (allowance : Allowance) (s : σ) :
    Except SolverFailure Solution × σ :=
  match p.constraints with
  | .ok constraints => solver allowance constraints s
  | .error d => (.error (.defect d), s)

def inputOf (p : BranchPoint) (policy : DefaultPolicy) (model : Input) : Input :=
  if policy = .seed then p.run.input.merge model else model

/-- The next input that an answer gives. A model is checked first, and one that fails the check
counts as no answer. -/
def derive (p : BranchPoint) (policy : DefaultPolicy) (answer : Solution) :
    Except Defect (Solution × Option Input) := do
  if answer.status = .sat then
    let input := p.inputOf policy answer.bindings
    match ← objection? input (← p.constraints) with
    | some reason => return (.unknown reason, none)
    | none => return (answer, some input)
  else return (answer, none)

end BranchPoint

end Concolic
