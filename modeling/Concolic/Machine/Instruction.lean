import Concolic.Operation
import Concolic.Value.Text

namespace Concolic.Machine

inductive Opcode
  | nop | const | input | load | store | dup | pop | swap
  | apply | jump | jumpif | call | ret | invoke | fault | halt
  | unknown (code : Int64) (outside : code < 0 ∨ 15 < code)
  deriving DecidableEq

namespace Opcode

def all : List Opcode :=
  [nop, const, input, load, store, dup, pop, swap,
    apply, jump, jumpif, call, ret, invoke, fault, halt]

def ofCode (c : Int64) : Opcode :=
  if h : c < 0 ∨ 15 < c then .unknown c h else all.getD c.toInt.toNat halt

def name : Opcode → String
  | nop => "nop" | const => "const" | input => "input" | load => "load" | store => "store"
  | dup => "dup" | pop => "pop" | swap => "swap" | apply => "apply" | jump => "jump"
  | jumpif => "jumpif" | call => "call" | ret => "return" | invoke => "invoke"
  | fault => "fault" | halt => "halt"
  | unknown c _ => "Opcode<" ++ toString c.toInt ++ ">"

end Opcode

/-- An instruction. Which of the operands count depends on the opcode. -/
structure Instruction where
  opcode : Opcode
  line : Nat := 0
  name : String := ""
  kind : Kind := .invalid
  value : Value := .unset
  count : Nat := 0
  operation : Operation := .ofCode 0
  target : Nat := 0
  deriving DecidableEq

namespace Instruction

def text (i : Instruction) : String :=
  match i.opcode with
  | .const => "const " ++ i.value.kind.name ++ " " ++ i.value.format
  | .input => "input " ++ i.name ++ " " ++ i.kind.name
  | .load | .store => i.opcode.name ++ " " ++ toString i.count
  | .apply => i.operation.name
  | .jump | .jumpif | .call | .fault | .halt => i.opcode.name ++ " " ++ i.name
  | .invoke => "invoke " ++ i.name ++ " " ++ toString i.count
  | _ => i.opcode.name

end Instruction

structure Function where
  name : String
  params : Nat := 0
  locals : Nat := 0
  code : Array Instruction := #[]
  labels : List (String × Nat) := []
  deriving DecidableEq

namespace Function

def label? (f : Function) (name : String) : Option Nat := f.labels.lookup name

def slotLimit (f : Function) : Nat := max f.locals f.params

def patch (f : Function) (index : Nat) (opcode : Opcode) : Function :=
  { f with code := f.code.modify index fun i => { i with opcode } }

end Function

structure Program where
  functions : List Function
  entry : String
  deriving DecidableEq

namespace Program

def function? (p : Program) (name : String) : Option Function :=
  p.functions.find? (·.name == name)

def patch (p : Program) (name : String) (index : Nat) (opcode : Opcode) : Program :=
  { p with functions := p.functions.map fun f => if f.name = name then f.patch index opcode else f }

end Program

end Concolic.Machine
