import Concolic.Kind

namespace Concolic

/-- A machine operation. Comparison has the codes 1 to 6, three-way comparison 9 to 11, arithmetic 14
to 25 and conversion 28 to 46; any other code is `unknown`. -/
inductive Operation
  | eq | ne | lt | le | gt | ge
  | cmp | cmpl | cmpg
  | add | sub | mul | div | rem | neg | shl | shr | ushr | and | or | xor
  | i2l | i2f | i2d | l2i | l2f | l2d | f2i | f2l | f2d | d2i | d2l | d2f
  | i2b | i2c | i2s | b2i | c2i | s2i | z2i
  | unknown (code : Int64)
      (outside : code < 1 ∨ (6 < code ∧ code < 9) ∨ (11 < code ∧ code < 14)
        ∨ (25 < code ∧ code < 28) ∨ 46 < code)
  deriving DecidableEq

namespace Operation

def comparisons : List Operation := [eq, ne, lt, le, gt, ge]
def threeWay : List Operation := [cmp, cmpl, cmpg]
def arithmetic : List Operation := [add, sub, mul, div, rem, neg, shl, shr, ushr, and, or, xor]
def conversions : List Operation :=
  [i2l, i2f, i2d, l2i, l2f, l2d, f2i, f2l, f2d, d2i, d2l, d2f, i2b, i2c, i2s, b2i, c2i, s2i, z2i]

def all : List Operation := comparisons ++ threeWay ++ arithmetic ++ conversions

def code : Operation → Int64
  | eq => 1 | ne => 2 | lt => 3 | le => 4 | gt => 5 | ge => 6
  | cmp => 9 | cmpl => 10 | cmpg => 11
  | add => 14 | sub => 15 | mul => 16 | div => 17 | rem => 18 | neg => 19
  | shl => 20 | shr => 21 | ushr => 22 | and => 23 | or => 24 | xor => 25
  | i2l => 28 | i2f => 29 | i2d => 30 | l2i => 31 | l2f => 32 | l2d => 33
  | f2i => 34 | f2l => 35 | f2d => 36 | d2i => 37 | d2l => 38 | d2f => 39
  | i2b => 40 | i2c => 41 | i2s => 42 | b2i => 43 | c2i => 44 | s2i => 45 | z2i => 46
  | unknown c _ => c

def ofCode (c : Int64) : Operation :=
  if h : c < 1 ∨ (6 < c ∧ c < 9) ∨ (11 < c ∧ c < 14) ∨ (25 < c ∧ c < 28) ∨ 46 < c then .unknown c h
  else if c < 9 then comparisons.getD (c.toInt.toNat - 1) ge
  else if c < 14 then threeWay.getD (c.toInt.toNat - 9) cmpg
  else if c < 28 then arithmetic.getD (c.toInt.toNat - 14) xor
  else conversions.getD (c.toInt.toNat - 28) z2i

def name : Operation → String
  | eq => "eq" | ne => "ne" | lt => "lt" | le => "le" | gt => "gt" | ge => "ge"
  | cmp => "cmp" | cmpl => "cmpl" | cmpg => "cmpg"
  | add => "add" | sub => "sub" | mul => "mul" | div => "div" | rem => "rem" | neg => "neg"
  | shl => "shl" | shr => "shr" | ushr => "ushr" | and => "and" | or => "or" | xor => "xor"
  | i2l => "i2l" | i2f => "i2f" | i2d => "i2d" | l2i => "l2i" | l2f => "l2f" | l2d => "l2d"
  | f2i => "f2i" | f2l => "f2l" | f2d => "f2d" | d2i => "d2i" | d2l => "d2l" | d2f => "d2f"
  | i2b => "i2b" | i2c => "i2c" | i2s => "i2s" | b2i => "b2i" | c2i => "c2i" | s2i => "s2i"
  | z2i => "z2i"
  | unknown c _ => "Op<" ++ toString c.toInt ++ ">"

def ofName? (s : String) : Option Operation := all.find? (·.name == s)

def isCompare : Operation → Bool
  | eq | ne | lt | le | gt | ge => true
  | _ => false

def isThreeWay : Operation → Bool
  | cmp | cmpl | cmpg => true
  | _ => false

def isArithmetic : Operation → Bool
  | add | sub | mul | div | rem | neg | shl | shr | ushr | and | or | xor => true
  | _ => false

def conversion? : Operation → Option (Kind × Kind)
  | i2l => some (.int, .long) | i2f => some (.int, .float) | i2d => some (.int, .double)
  | l2i => some (.long, .int) | l2f => some (.long, .float) | l2d => some (.long, .double)
  | f2i => some (.float, .int) | f2l => some (.float, .long) | f2d => some (.float, .double)
  | d2i => some (.double, .int) | d2l => some (.double, .long) | d2f => some (.double, .float)
  | i2b => some (.int, .byte) | i2c => some (.int, .char) | i2s => some (.int, .short)
  | b2i => some (.byte, .int) | c2i => some (.char, .int) | s2i => some (.short, .int)
  | z2i => some (.bool, .int)
  | _ => none

def isConvert (op : Operation) : Bool := op.conversion?.isSome

def isDivision : Operation → Bool
  | div | rem => true
  | _ => false

def arity (op : Operation) : Nat := if op = neg ∨ op.isConvert then 1 else 2

@[simp] theorem ofCode_code (op : Operation) : ofCode op.code = op := by
  cases op with
  | unknown c h => simp [ofCode, code, h]
  | _ => rfl

end Operation

end Concolic
