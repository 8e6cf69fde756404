import Concolic.Defect

/-!
Arithmetic on bit-vector literals of one width. Division by zero gives all ones, or one for a
negative dividend of a signed division; a remainder by zero gives the dividend; shifts by the width
or more shift every bit out.
-/

namespace Concolic.Literal

def add (a b : Literal) : Literal := ofNat (a.value + b.value) a.width

def sub (a b : Literal) : Literal := ofInt ((a.value : Int) - b.value) a.width

def mul (a b : Literal) : Literal := ofNat (a.value * b.value) a.width

def udiv (a b : Literal) : Literal :=
  if b.value = 0 then ofNat (patterns a.width - 1) a.width else ofNat (a.value / b.value) a.width

def urem (a b : Literal) : Literal :=
  if b.value = 0 then a else ofNat (a.value % b.value) a.width

def sdiv (a b : Literal) : Except Defect Literal :=
  if b.value = 0 then
    .ok (if a.toInt < 0 then ofNat 1 a.width else ofNat (patterns a.width - 1) a.width)
  else if b.toInt = 0 then .error .divisionByZero
  else .ok (ofInt (a.toInt.tdiv b.toInt) a.width)

def srem (a b : Literal) : Except Defect Literal :=
  if b.value = 0 then .ok a
  else if b.toInt = 0 then .error .divisionByZero
  else .ok (ofInt (a.toInt.tmod b.toInt) a.width)

def and (a b : Literal) : Literal := ofNat (a.value &&& b.value) a.width

def or (a b : Literal) : Literal := ofNat (a.value ||| b.value) a.width

def xor (a b : Literal) : Literal := ofNat (a.value ^^^ b.value) a.width

def not (a : Literal) : Literal := ofInt (-1 - (a.value : Int)) a.width

def shl (a b : Literal) : Literal :=
  if min a.width 64 ≤ b.value then ofNat 0 a.width else ofNat (a.value <<< b.value) a.width

def lshr (a b : Literal) : Literal :=
  if a.width ≤ b.value then ofNat 0 a.width else ofNat (shiftDown a.value b.value) a.width

def ashr (a b : Literal) : Literal :=
  ofInt (a.toInt >>> min b.value (min a.width 64 - 1)) a.width

def eq (a b : Literal) : Literal := ofBool (a.value == b.value)

def ult (a b : Literal) : Literal := ofBool (decide (a.value < b.value))

def ule (a b : Literal) : Literal := ofBool (decide (a.value ≤ b.value))

def slt (a b : Literal) : Literal := ofBool (decide (a.toInt < b.toInt))

def sle (a b : Literal) : Literal := ofBool (decide (a.toInt ≤ b.toInt))

def zext (a : Literal) (width : Nat) : Literal :=
  if a.width = width then a else ofNat a.value width

def sext (a : Literal) (width : Nat) : Literal :=
  if a.width = width then a else ofInt a.toInt width

def extract (a : Literal) (offset width : Nat) : Literal := ofNat (shiftDown a.value offset) width

/-- Operands of different widths are refused, except as shift amounts and in orderings. -/
def sameWidth (op : BinaryOp) (a b : Literal) : Except Defect Unit :=
  if a.width = b.width then .ok () else .error (.literalWidths op a.width b.width)

def apply (op : BinaryOp) (a b : Literal) : Except Defect Literal := do
  match op with
  | .shl => return a.shl b
  | .lshr => return a.lshr b
  | .ashr => return a.ashr b
  | .ult => return a.ult b
  | .ule => return a.ule b
  | .slt => return a.slt b
  | .sle => return a.sle b
  | _ =>
    sameWidth op a b
    match op with
    | .add => return a.add b
    | .sub => return a.sub b
    | .mul => return a.mul b
    | .udiv => return a.udiv b
    | .sdiv => a.sdiv b
    | .urem => return a.urem b
    | .srem => a.srem b
    | .and => return a.and b
    | .or => return a.or b
    | .xor => return a.xor b
    | .eq => return a.eq b
    | _ => throw .unreachable

end Concolic.Literal
