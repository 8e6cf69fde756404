import Concolic.Operation.Apply

namespace Concolic

inductive Misuse
  | noCaller
  | pushUnset
  | storeUnset
  | underflow (frame : String)
  | emptyStack (frame : String)
  | loadRange (slot : Int) (frame : String)
  | loadUnset (slot : Int) (frame : String)
  | storeRange (slot : Int) (frame : String)
  | redeclared (name : String) (kind was : Kind)
  | condition (pos : String) (kind : Kind)
  | noEntry (name : String)
  | missingReturn (function : String)
  | opcode (name : String)
  | crash (text : String)
  deriving DecidableEq

namespace Misuse

def action : Misuse → String
  | noCaller => "leave"
  | pushUnset => "push"
  | storeUnset | storeRange _ _ => "store"
  | underflow _ => "pop"
  | emptyStack _ => "peek"
  | loadRange _ _ | loadUnset _ _ => "load"
  | redeclared _ _ _ => "input"
  | condition _ _ => "branch"
  | noEntry _ | missingReturn _ | crash _ => "run"
  | opcode _ => "exec"

def detail : Misuse → String
  | noCaller => "no caller frame"
  | pushUnset | storeUnset => "invalid value"
  | underflow f => "operand stack underflow in " ++ f
  | emptyStack f => "operand stack empty in " ++ f
  | loadRange i f | storeRange i f => "slot " ++ toString i ++ " out of range in " ++ f
  | loadUnset i f => "slot " ++ toString i ++ " unset in " ++ f
  | redeclared n k was => n ++ " redeclared as " ++ k.name ++ ", was " ++ was.name
  | condition pos k => "condition at " ++ pos ++ " is " ++ k.name ++ ", not bool"
  | noEntry n => "entry function " ++ Text.quote n ++ " not found"
  | missingReturn f => "missing return in " ++ f
  | opcode n => "invalid opcode: " ++ n
  | crash t => "panic: " ++ t

def message (m : Misuse) : String := "diver: " ++ m.action ++ ": " ++ m.detail

end Misuse

inductive RunError
  | operation (e : OperationError)
  | misuse (m : Misuse)
  | unsupported (message : String)
  | fault (message : String)
  | frozen
  | stopped
  | stepLimit
  | cancelled
  deriving DecidableEq

namespace RunError

def message : RunError → String
  | operation e => e.message
  | misuse m => m.message
  | unsupported m => "unsupported: " ++ m
  | fault m => "fault: " ++ m
  | frozen => "diver: state frozen"
  | stopped => "diver: exploration stopped"
  | stepLimit => "vm: step limit exceeded"
  | cancelled => "context canceled"

/-- Faults of the program under test. They end a run normally. -/
def isFault : RunError → Bool
  | operation (.zeroDivisor _) | unsupported _ | fault _ => true
  | _ => false

def isStructural : RunError → Bool
  | operation (.operands _ _ _) | misuse _ => true
  | _ => false

end RunError

structure EarlyEnd where
  site : Option (String × Nat) := none
  cause : RunError
  deriving DecidableEq

namespace EarlyEnd

def message (e : EarlyEnd) : String :=
  match e.site with
  | some (function, line) => function ++ ":" ++ toString line ++ ": " ++ e.cause.message
  | none => e.cause.message

end EarlyEnd

end Concolic
