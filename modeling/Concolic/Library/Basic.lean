import Concolic.Entries
import Concolic.Run.State

namespace Concolic

inductive ModelStatus
  | ok | unsupported | faulted
  | unknown (code : Int64) (outside : code < 0 ∨ 2 < code)
  deriving DecidableEq

namespace ModelStatus

def ofCode (c : Int64) : ModelStatus :=
  if h : c < 0 ∨ 2 < c then .unknown c h
  else if c = 0 then ok else if c = 1 then unsupported else faulted

def name : ModelStatus → String
  | ok => "ok"
  | unsupported => "unsupported"
  | faulted => "faulted"
  | unknown c _ => "ResultStatus<" ++ toString c.toInt ++ ">"

end ModelStatus

structure ModelResult where
  status : ModelStatus
  value : Value := .unset
  reason : String := ""
  deriving DecidableEq

namespace ModelResult

def ok (v : Value) : ModelResult := { status := .ok, value := v }

def void : ModelResult := { status := .ok }

def unsupported (reason : String) : ModelResult := { status := .unsupported, reason }

def faulted (reason : String) : ModelResult := { status := .faulted, reason }

def error? (r : ModelResult) : Option RunError :=
  match r.status with
  | .ok => none
  | .unsupported => some (.unsupported r.reason)
  | .faulted | .unknown _ _ => some (.fault r.reason)

end ModelResult

structure ModelEffect where
  result : Except Defect ModelResult
  state : RunState
  cancels : Bool := false

abbrev Model := List Value → RunState → ModelEffect

def Model.ofFunction (f : List Value → Except Defect ModelResult) : Model := fun args s =>
  { result := f args, state := s }

def Model.ofInput (name : String) (kind : Kind) : Model := fun _ s =>
  match RunState.input name kind s with
  | (.ok v, state) => { result := .ok (.ok v), state }
  | (.error (.error e), state) => { result := .ok (.faulted e.message), state }
  | (.error (.defect d), state) => { result := .error d, state }

structure Library where
  entries : List (String × Model) := []

namespace Library

def empty : Library := {}

def lookup (l : Library) (name : String) : Option Model := l.entries.lookup name

def register (l : Library) (name : String) (m : Model) : Library := ⟨Entries.place name m l.entries⟩

def names (l : Library) : List String := l.entries.map (·.1)

def invoke (l : Library) (name : String) (args : List Value) (s : RunState) : ModelEffect :=
  match l.lookup name with
  | some m => m args s
  | none => { result := .ok (.unsupported (name ++ " is not modelled")), state := s }

end Library

end Concolic
