import Concolic.Run.State

namespace Concolic

structure Run where
  id : String
  seq : Nat := 0
  parent : String := ""
  input : Input := ∅
  path : List Branch := []
  status : RunStatus := .completed
  reason : String := ""
  ending : Option EarlyEnd := none
  deriving DecidableEq

namespace Run

def constraints (r : Run) : List Term := pathCondition r.path

def summary (r : Run) : String :=
  String.intercalate " "
    ((r.path.map fun b => b.pos ++ ":" ++ (if b.taken then "true" else "false"))
      ++ [r.status.name, r.reason])

end Run

namespace EarlyEnd

/-- A defect ends a run like a misuse. -/
def ofFailure : Failure EarlyEnd → EarlyEnd
  | .error e => e
  | .defect d => { cause := .misuse (.crash d.message) }

def status (e : EarlyEnd) : RunStatus :=
  if e.cause = .stopped then .completed
  else if e.cause.isFault then .faulted
  else .aborted

end EarlyEnd

namespace RunState

def conclude (s : RunState) : Option EarlyEnd → RunState
  | none => s.finish .completed ""
  | some e => s.finish e.status (if e.status = .completed then "" else e.message)

end RunState

end Concolic
