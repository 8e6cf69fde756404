import Concolic.Term.Build

namespace Concolic

structure Value where
  kind : Kind
  bits : Nat
  expr : Option Term := none
  deriving DecidableEq

namespace Value

def unset : Value := { kind := .invalid, bits := 0 }

instance : Inhabited Value := ⟨unset⟩

def ofBits (kind : Kind) (bits : Nat) : Except Defect Value := do
  return { kind, bits := wrap (← kind.width) bits }

def zero (kind : Kind) : Except Defect Value := ofBits kind 0

def ofBool (b : Bool) : Value := { kind := .bool, bits := if b then 1 else 0 }

def ofInt (kind : Kind) (n : Int) : Except Defect Value :=
  match kind with
  | .bool => return ofBool (n ≠ 0)
  | .float => ofBits kind (Ieee.single.ofInt n)
  | .double => ofBits kind (Ieee.double.ofInt n)
  | k => do ofBits k (wrapInt (← k.width) n)

/-- The same concrete value with another term. A constant term makes it concrete. -/
def withTerm (v : Value) (t : Option Term) : Value :=
  { v with expr := t.filter fun t => !t.isConstant }

def isValid (v : Value) : Bool := v.kind != .invalid

def isConcrete (v : Value) : Bool := v.expr.isNone

def concrete (v : Value) : Value := { v with expr := none }

def toBool (v : Value) : Bool := v.bits != 0

/-- The value as an integer: `char` and `bool` unsigned, the rest in two's complement. -/
def toInt (v : Value) : Except Defect Int :=
  match v.kind with
  | .char | .bool => return (v.bits : Int)
  | k => do return signed (← k.width) v.bits

def toDouble (v : Value) : Nat :=
  if v.kind = .float then FloatLiteral.widen (v.bits % twoPow 32) else v.bits

def literal (v : Value) : Except Defect Term := do
  let w ← v.kind.width
  if v.kind.isFloat then return .fconst (.store v.toDouble w) else return .const (.ofNat v.bits w)

def term (v : Value) : Except Defect Term :=
  match v.expr with
  | some t => .ok t
  | none => v.literal

def agrees (v w : Value) : Bool := v.kind == w.kind && v.bits == w.bits

end Value

inductive ValueError
  | literal (kind : Kind) (text : String)
  | unreadable (kind : Kind)
  | otherKind (t : Term) (kind : Kind)
  | notConstant (t : Term)
  deriving DecidableEq

namespace Value

def ofTerm (kind : Kind) (t : Term) : Except (Failure ValueError) Value :=
  match t with
  | .const c => do
    if kind.isFloat then throw (.error (.otherKind t kind))
    if c.width ≠ (← kind.width) then throw (.error (.otherKind t kind))
    ofBits kind c.value
  | .fconst c => do
    if !kind.isFloat then throw (.error (.otherKind t kind))
    if c.width ≠ (← kind.width) then throw (.error (.otherKind t kind))
    ofBits kind c.bits
  | _ => throw (.error (.notConstant t))

end Value

end Concolic
