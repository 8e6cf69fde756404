import Concolic.Library.Basic
import Concolic.Machine.Instruction

namespace Concolic.Machine

structure Activation where
  function : Function
  pc : Nat := 0

structure StopRequest where
  message : String
  trigger : String
  run : String
  deriving DecidableEq

structure Configuration where
  calls : List Activation
  state : RunState
  cancelled : Bool := false
  stop : Option StopRequest := none

abbrev ExecM := ExceptT (Failure RunError) (StateM Configuration)

structure Setup where
  program : Program
  library : Library := .empty
  maxSteps : Nat := twoPow 20

def position (f : Function) (pc : Nat) : String := f.name ++ ":" ++ toString pc

namespace ExecM

def onState {α : Type} (act : RunM α) : ExecM α := fun
  | ⟨calls, state, cancelled, stop⟩ =>
    match act state with
    | (r, state) => (r, ⟨calls, state, cancelled, stop⟩)

def fail {α : Type} (e : RunError) : ExecM α := fun c => (.error (.error e), c)

def ofOperation (r : Except (Failure OperationError) Value) : ExecM Value := fun c =>
  match r with
  | .ok v => (.ok v, c)
  | .error (.error e) => (.error (.error (.operation e)), c)
  | .error (.defect d) => (.error (.defect d), c)

def ofDefect {α : Type} (r : Except Defect α) : ExecM α := fun c =>
  match r with
  | .ok v => (.ok v, c)
  | .error d => (.error (.defect d), c)

end ExecM

open ExecM

def jumpTo (target : Nat) : ExecM Unit := fun
  | ⟨calls, state, cancelled, stop⟩ =>
    match calls with
    | a :: rest => (.ok (), ⟨{ a with pc := target } :: rest, state, cancelled, stop⟩)
    | [] => (.ok (), ⟨[], state, cancelled, stop⟩)

def guardDivision (pos : String) (op : Operation) (divisor : Value) : ExecM Unit :=
  if op.isDivision && divisor.kind.isIntegral then do
    let zero ← ofDefect (Value.zero divisor.kind)
    let nonzero ← ofOperation (Operation.ne.apply [divisor, zero])
    discard (onState (RunState.recordBranch (pos ++ "/div") nonzero))
  else return ()

def applyOperation (pos : String) (op : Operation) : ExecM Unit := do
  let args ← onState (RunState.popN op.arity)
  guardDivision pos op (args.getD 1 .unset)
  let v ← ofOperation (op.apply args)
  onState (RunState.push v)

def storeFrom : Nat → List Value → RunM Unit
  | _, [] => return ()
  | slot, v :: rest => do
    RunState.store slot v
    storeFrom (slot + 1) rest

def callFunction (p : Program) (name : String) : ExecM Unit := do
  match p.function? name with
  | none => throw (.defect .missingReference)
  | some f =>
    onState do
      let args ← RunState.popN f.params
      RunState.enter f.name f.slotLimit
      storeFrom 0 args
    modify fun c => { c with calls := { function := f } :: c.calls }

def leaveFrame : RunM Unit := do
  let s ← get
  if s.frame.stack.isEmpty then RunState.leave
  else
    let v ← RunState.pop
    RunState.leave
    if v.isValid then RunState.push v

def returnFromCall : ExecM Unit := do
  modify fun c => { c with calls := c.calls.tail }
  let c ← get
  if c.calls.isEmpty then return () else onState leaveFrame

def askModel (library : Library) (name : String) (args : List Value) : ExecM ModelResult := fun
  | ⟨calls, state, cancelled, stop⟩ =>
    match library.invoke name args state with
    | ⟨result, state, cancels⟩ =>
      ((match result with
        | .ok r => .ok r
        | .error d => .error (.defect d)),
        ⟨calls, state, cancelled || cancels, stop⟩)

def acceptResult (result : ModelResult) : ExecM Unit :=
  match result.error? with
  | some e => fail e
  | none => if result.value.isValid then onState (RunState.push result.value) else return ()

def invokeModel (library : Library) (name : String) (count : Nat) : ExecM Unit := do
  acceptResult (← askModel library name (← onState (RunState.popN count)))

def requestStop (message trigger : String) : ExecM Unit := do
  modify fun c => { c with calls := [], stop := some { message, trigger, run := c.state.id } }
  fail .stopped

/-- Executes the instruction `i` at index `pc` of the function `f`. The current call already goes on
with the next one. -/
def exec (setup : Setup) (f : Function) (pc : Nat) (i : Instruction) : ExecM Unit :=
  match i.opcode with
  | .nop => return ()
  | .const => onState (RunState.push i.value)
  | .input => onState do RunState.push (← RunState.input i.name i.kind)
  | .load => onState do RunState.push (← RunState.load i.count)
  | .store => onState do RunState.store i.count (← RunState.pop)
  | .dup => onState do RunState.push (← RunState.peek)
  | .pop => onState do discard RunState.pop
  | .swap => onState do
    let args ← RunState.popN 2
    RunState.push (args.getD 1 .unset)
    RunState.push (args.getD 0 .unset)
  | .apply => applyOperation (position f pc) i.operation
  | .jump => jumpTo i.target
  | .jumpif => do
    let taken ← onState do RunState.recordBranch (position f pc) (← RunState.pop)
    if taken then jumpTo i.target
  | .call => callFunction setup.program i.name
  | .ret => returnFromCall
  | .invoke => invokeModel setup.library i.name i.count
  | .fault => fail (.fault i.name)
  | .halt => requestStop i.name (position f pc)
  | .unknown _ _ => fail (.misuse (.opcode i.opcode.name))

abbrev Ending := Option (Failure EarlyEnd)

def locate (f : Function) (line : Nat) : Failure RunError → Failure EarlyEnd
  | .error e => .error { site := some (f.name, line), cause := e }
  | .defect d => .defect d

/-- Executes the next instruction, or says how the run ended. `number` counts instructions from one;
every 1024th looks whether the run was cancelled. -/
def step (setup : Setup) (number : Nat) (c : Configuration) :
    Configuration ⊕ (Configuration × Ending) :=
  match c with
  | ⟨[], state, cancelled, stop⟩ => .inr (⟨[], state, cancelled, stop⟩, none)
  | ⟨a :: rest, state, cancelled, stop⟩ =>
    if setup.maxSteps < number then
      .inr (⟨a :: rest, state, cancelled, stop⟩, some (.error { cause := .stepLimit }))
    else if number % 1024 = 0 && cancelled then
      .inr (⟨a :: rest, state, cancelled, stop⟩, some (.error { cause := .cancelled }))
    else
      match a.function.code[a.pc]? with
      | none =>
        .inr (⟨a :: rest, state, cancelled, stop⟩,
          some (.error { cause := .misuse (.missingReturn a.function.name) }))
      | some i =>
        match exec setup a.function a.pc i
            ⟨{ a with pc := a.pc + 1 } :: rest, state, cancelled, stop⟩ with
        | (.ok (), c) => .inl c
        | (.error e, c) => .inr (c, some (locate a.function i.line e))

def runFrom (setup : Setup) : (fuel number : Nat) → Configuration → Configuration × Ending
  | 0, _, c => (c, some (.error { cause := .stepLimit }))
  | fuel + 1, number, c =>
    match step setup number c with
    | .inl c => runFrom setup fuel (number + 1) c
    | .inr ended => ended

def run (setup : Setup) (cancelled : Bool) (s : RunState) : Configuration × Ending :=
  match setup.program.function? setup.program.entry with
  | none =>
    ({ calls := [], state := s, cancelled },
      some (.error { cause := .misuse (.noEntry setup.program.entry) }))
  | some f =>
    runFrom setup (setup.maxSteps + 1) 1 { calls := [{ function := f }], state := s, cancelled }

end Concolic.Machine
