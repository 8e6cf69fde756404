import Concolic.Branch
import Concolic.Input
import Concolic.Run.Error
import Concolic.Run.Frame

namespace Concolic

inductive RunStatus
  | running | completed | faulted | aborted
  | other (name : String)
  deriving DecidableEq

namespace RunStatus

def name : RunStatus → String
  | running => "running"
  | completed => "completed"
  | faulted => "faulted"
  | aborted => "aborted"
  | other n => n

def ofName : String → RunStatus
  | "running" => running
  | "completed" => completed
  | "faulted" => faulted
  | "aborted" => aborted
  | n => other n

end RunStatus

structure RunState where
  id : String
  given : Input := ∅
  defaults : String → Kind → Except Defect Value := fun _ kind => Value.zero kind
  declared : Input := ∅
  frame : Frame := { name := "main", limit := 0 }
  callers : List Frame := []
  path : Array Branch := #[]
  status : RunStatus := .running
  reason : String := ""
  frozen : Bool := false

/-- Actions on the state of a run. A failed action still has a state. -/
abbrev RunM := ExceptT (Failure RunError) (StateM RunState)

namespace RunM

def fail {α : Type} (e : RunError) : RunM α := fun s => (.error (.error e), s)

def misuse {α : Type} (m : Misuse) : RunM α := fail (.misuse m)

def ofOperation {α : Type} (r : Except (Failure OperationError) α) : RunM α := fun s =>
  match r with
  | .ok a => (.ok a, s)
  | .error (.error e) => fail (.operation e) s
  | .error (.defect d) => (.error (.defect d), s)

end RunM

namespace RunState

/-- The most values for which a list of a given length can be set aside. -/
def maxValues : Nat := twoPow 43

def depth (s : RunState) : Nat := s.callers.length + 1

def enter (name : String) (limit : Int) : RunM Unit := fun s =>
  if s.frozen then RunM.fail .frozen s
  else (.ok (), { s with frame := { name, limit }, callers := s.frame :: s.callers })

def leave : RunM Unit := fun s =>
  if s.frozen then RunM.fail .frozen s
  else
    match s.callers with
    | [] => RunM.misuse .noCaller s
    | f :: rest => (.ok (), { s with frame := f, callers := rest })

def push (v : Value) : RunM Unit := fun s =>
  if s.frozen then RunM.fail .frozen s
  else if !v.isValid then RunM.misuse .pushUnset s
  else (.ok (), { s with frame := { s.frame with stack := v :: s.frame.stack } })

def pop : RunM Value := fun s =>
  if s.frozen then RunM.fail .frozen s
  else
    match s.frame.stack with
    | [] => RunM.misuse (.underflow s.frame.name) s
    | v :: rest => (.ok v, { s with frame := { s.frame with stack := rest } })

def popOnto : Nat → List Value → RunM (List Value)
  | 0, acc => return acc
  | n + 1, acc => do popOnto n ((← pop) :: acc)

def popN (n : Int) : RunM (List Value) :=
  if 0 ≤ n ∧ n ≤ maxValues then popOnto n.toNat []
  else throw (.defect .sizeOutOfRange)

def peek : RunM Value := fun s =>
  match s.frame.stack with
  | [] => RunM.misuse (.emptyStack s.frame.name) s
  | v :: _ => (.ok v, s)

def load (slot : Int) : RunM Value := fun s =>
  if slot < 0 ∨ (s.frame.slots.count : Int) ≤ slot then
    RunM.misuse (.loadRange slot s.frame.name) s
  else
    match s.frame.slots.get? slot.toNat with
    | some v => (.ok v, s)
    | none => RunM.misuse (.loadUnset slot s.frame.name) s

def store (slot : Int) (v : Value) : RunM Unit := fun s =>
  if s.frozen then RunM.fail .frozen s
  else if slot < 0 ∨ (0 < s.frame.limit ∧ s.frame.limit ≤ slot) then
    RunM.misuse (.storeRange slot s.frame.name) s
  else if !v.isValid then RunM.misuse .storeUnset s
  else if (s.frame.slots.count : Int) ≤ slot ∧ (maxValues : Int) ≤ slot then
    (.error (.defect .sizeOutOfRange), s)
  else (.ok (), { s with frame := { s.frame with slots := s.frame.slots.set slot.toNat v } })

def initial (s : RunState) (name : String) (kind : Kind) : Except Defect Value :=
  match s.given.get? name with
  | some v => if v.kind = kind then .ok v else s.defaults name kind
  | none => s.defaults name kind

/-- Declares an input and gives its value as a variable. A second declaration changes nothing. -/
def input (name : String) (kind : Kind) : RunM Value := fun s =>
  if s.frozen then RunM.fail .frozen s
  else
    match s.declared.get? name with
    | some v =>
      if v.kind = kind then (.ok (v.withTerm (some (.var name kind))), s)
      else RunM.misuse (.redeclared name kind v.kind) s
    | none =>
      match s.initial name kind with
      | .error d => (.error (.defect d), s)
      | .ok v =>
        (.ok (v.withTerm (some (.var name kind))),
          { s with declared := s.declared.insert name v.concrete })

def recordBranch (pos : String) (cond : Value) : RunM Bool := fun s =>
  if s.frozen then RunM.fail .frozen s
  else if cond.kind ≠ .bool then RunM.misuse (.condition pos cond.kind) s
  else
    match cond.term with
    | .error d => (.error (.defect d), s)
    | .ok t => (.ok cond.toBool, { s with path := s.path.push ⟨pos, t, cond.toBool⟩ })

def pushing (act : RunM Value) : RunM Value := do
  let v ← act
  push v
  return v

def apply (op : Operation) : RunM Value :=
  pushing (do RunM.ofOperation (op.apply (← popN op.arity)))

def finish (s : RunState) (status : RunStatus) (reason : String) : RunState :=
  if s.frozen then s else { s with status, reason, frozen := true }

def constraints (s : RunState) : List Term := pathCondition s.path.toList

def frameLines (s : RunState) : List String :=
  (s.frame :: s.callers).zipIdx.flatMap fun (f, i) =>
    ["== FRAME #" ++ toString (s.callers.length - i), f.text]

def pathLines (s : RunState) : List String :=
  s.path.toList.zipIdx.map fun (b, i) => toString i ++ ". " ++ b.text

def text (s : RunState) : String :=
  String.join (([ "RUN STATE", "=========", "id=" ++ s.id, "status=" ++ s.status.name,
      "reason=" ++ s.reason, "inputs=" ++ s.declared.text, "" ]
    ++ s.frameLines ++ ["== PATH"] ++ s.pathLines).map (· ++ "\n"))

end RunState

end Concolic
