import Concolic.Defect
import Concolic.Ieee.Arithmetic
import Concolic.Term.Literal

namespace Concolic.FloatLiteral

open Ieee

def narrow (pattern : Nat) : Nat := double.convert single pattern

def widen (pattern : Nat) : Nat := single.convert double pattern

def store (pattern width : Nat) : FloatLiteral :=
  ⟨if width = 32 then widen (narrow pattern) else pattern, width⟩

def ofDouble (pattern width : Nat) : Except Defect FloatLiteral :=
  if width = 32 ∨ width = 64 then .ok (store pattern width) else .error (.floatWidth width)

def bits (a : FloatLiteral) : Nat := if a.width = 32 then narrow a.pattern else a.pattern

def datum (a : FloatLiteral) : Datum := double.decode a.pattern

def compute (op : Format → Nat → Nat → Nat) (a b : FloatLiteral) : FloatLiteral :=
  if a.width = 32 then store (widen (op single (narrow a.pattern) (narrow b.pattern))) 32
  else store (op double a.pattern b.pattern) a.width

def add : FloatLiteral → FloatLiteral → FloatLiteral := compute Format.add
def sub : FloatLiteral → FloatLiteral → FloatLiteral := compute Format.sub
def mul : FloatLiteral → FloatLiteral → FloatLiteral := compute Format.mul
def div : FloatLiteral → FloatLiteral → FloatLiteral := compute Format.div

def rem (a b : FloatLiteral) : FloatLiteral := store (double.rem a.pattern b.pattern) a.width

def neg (a : FloatLiteral) : FloatLiteral := store (double.neg a.pattern) a.width

def toSigned (a : FloatLiteral) (width : Nat) : Except Defect Literal :=
  if width = 32 ∨ width = 64 then .ok (Literal.ofInt (double.toInt width a.pattern) width)
  else .error (.integerWidth width)

def ofSigned (a : Literal) (width : Nat) : Except Defect FloatLiteral :=
  if width = 32 then .ok (store (widen (single.ofInt a.toInt)) 32)
  else ofDouble (double.ofInt a.toInt) width

def apply (op : FloatOp) (a b : FloatLiteral) : Except Defect Term :=
  match op with
  | .add => .ok (.fconst (a.add b))
  | .sub => .ok (.fconst (a.sub b))
  | .mul => .ok (.fconst (a.mul b))
  | .div => .ok (.fconst (a.div b))
  | .rem => .ok (.fconst (a.rem b))
  | .eq => .ok (.ofBool (a.datum.eq b.datum))
  | .lt => .ok (.ofBool (a.datum.lt b.datum))
  | .le => .ok (.ofBool (a.datum.le b.datum))
  | .neg | .unknown _ _ => .error .unreachable

end Concolic.FloatLiteral
