import Concolic.Bits
import Concolic.Ieee.Decimal
import Concolic.Kind
import Concolic.Term.Operator
import Concolic.Text.Hash

namespace Concolic

structure Literal where
  value : Nat
  width : Nat
  deriving DecidableEq

namespace Literal

def ofNat (value width : Nat) : Literal := ⟨wrap width value, width⟩

def ofInt (i : Int) (width : Nat) : Literal := ⟨wrapInt width i, width⟩

def ofBool (b : Bool) : Literal := ⟨if b then 1 else 0, 1⟩

def isTrue (c : Literal) : Bool := c.width == 1 && c.value != 0

def isFalse (c : Literal) : Bool := c.width == 1 && c.value == 0

def isAllOnes (c : Literal) : Bool := c.value == patterns c.width - 1

def toInt (c : Literal) : Int := signed c.width c.value

def text (c : Literal) : String := "(const " ++ toString c.value ++ " " ++ toString c.width ++ ")"

end Literal

/-- A floating-point literal. Its pattern is that of a double, whatever its width. -/
structure FloatLiteral where
  pattern : Nat
  width : Nat
  deriving DecidableEq

namespace FloatLiteral

def text (c : FloatLiteral) : String :=
  "(fconst " ++ Ieee.double.text c.pattern ++ " " ++ toString c.width ++ ")"

end FloatLiteral

/-- A symbolic term. A `hole` stands where no operand was given; it is the right operand of a unary
floating-point operation. -/
inductive Term
  | hole
  | const (c : Literal)
  | fconst (c : FloatLiteral)
  | var (name : String) (kind : Kind)
  | extract (src : Term) (offset width : Nat)
  | not (src : Term)
  | cast (src : Term) (width : Nat) (signed : Bool)
  | convert (op : ConvertOp) (src : Term) (width : Nat)
  | binary (op : BinaryOp) (lhs rhs : Term)
  | float (op : FloatOp) (lhs rhs : Term)
  | ite (cond yes no : Term)
  deriving DecidableEq

namespace Term

instance : Inhabited Term := ⟨hole⟩

def ofBool (b : Bool) : Term := const (Literal.ofBool b)

def isConstant : Term → Bool
  | const _ | fconst _ => true
  | _ => false

def isHole : Term → Bool
  | hole => true
  | _ => false

def isTrue : Term → Bool
  | const c => c.isTrue
  | _ => false

def isFalse : Term → Bool
  | const c => c.isFalse
  | _ => false

def text : Term → String
  | hole => "%!s(<nil>)"
  | const c => c.text
  | fconst c => c.text
  | var name kind => "(var " ++ name ++ " " ++ kind.name ++ ")"
  | extract src offset width =>
    "(extract " ++ src.text ++ " " ++ toString offset ++ " " ++ toString width ++ ")"
  | not src => "(not " ++ src.text ++ ")"
  | cast src width signed =>
    (if signed then "(sext " else "(zext ") ++ src.text ++ " " ++ toString width ++ ")"
  | convert op src width => "(" ++ op.name ++ " " ++ src.text ++ " " ++ toString width ++ ")"
  | binary op lhs rhs => "(" ++ op.name ++ " " ++ lhs.text ++ " " ++ rhs.text ++ ")"
  | float op lhs rhs =>
    "(" ++ op.name ++ " " ++ lhs.text ++ (if rhs.isHole then "" else " " ++ rhs.text) ++ ")"
  | ite cond yes no => "(ite " ++ cond.text ++ " " ++ yes.text ++ " " ++ no.text ++ ")"

def textHash : Term → UInt64
  | hole => 0
  | t => Text.hashText t.text

end Term

end Concolic
