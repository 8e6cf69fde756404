namespace Concolic

/-- Operators on two bit vectors: arithmetic has the codes 1 to 13, comparison 16 to 25. -/
inductive BinaryOp
  | add | sub | mul | udiv | sdiv | urem | srem | and | or | xor | shl | lshr | ashr
  | eq | ne | ult | ule | ugt | uge | slt | sle | sgt | sge
  | unknown (code : Int64) (outside : code < 1 ∨ (13 < code ∧ code < 16) ∨ 25 < code)
  deriving DecidableEq

namespace BinaryOp

def arithmetic : List BinaryOp :=
  [add, sub, mul, udiv, sdiv, urem, srem, and, or, xor, shl, lshr, ashr]

def comparisons : List BinaryOp := [eq, ne, ult, ule, ugt, uge, slt, sle, sgt, sge]

def code : BinaryOp → Int64
  | add => 1 | sub => 2 | mul => 3 | udiv => 4 | sdiv => 5 | urem => 6 | srem => 7
  | and => 8 | or => 9 | xor => 10 | shl => 11 | lshr => 12 | ashr => 13
  | eq => 16 | ne => 17 | ult => 18 | ule => 19 | ugt => 20 | uge => 21
  | slt => 22 | sle => 23 | sgt => 24 | sge => 25
  | unknown c _ => c

def ofCode (c : Int64) : BinaryOp :=
  if h : c < 1 ∨ (13 < c ∧ c < 16) ∨ 25 < c then .unknown c h
  else if c < 16 then arithmetic.getD (c.toInt.toNat - 1) ashr
  else comparisons.getD (c.toInt.toNat - 16) sge

def name : BinaryOp → String
  | add => "add" | sub => "sub" | mul => "mul" | udiv => "udiv" | sdiv => "sdiv"
  | urem => "urem" | srem => "srem" | and => "and" | or => "or" | xor => "xor"
  | shl => "shl" | lshr => "lshr" | ashr => "ashr"
  | eq => "eq" | ne => "ne" | ult => "ult" | ule => "ule" | ugt => "ugt" | uge => "uge"
  | slt => "slt" | sle => "sle" | sgt => "sgt" | sge => "sge"
  | unknown c _ => "BinaryOp<" ++ toString c.toInt ++ ">"

def ofName? (s : String) : Option BinaryOp := (arithmetic ++ comparisons).find? (·.name == s)

def isCompare : BinaryOp → Bool
  | eq | ne | ult | ule | ugt | uge | slt | sle | sgt | sge => true
  | _ => false

def isArithmetic : BinaryOp → Bool
  | add | sub | mul | udiv | sdiv | urem | srem | and | or | xor | shl | lshr | ashr => true
  | _ => false

def isShift : BinaryOp → Bool
  | shl | lshr | ashr => true
  | _ => false

@[simp] theorem ofCode_code (op : BinaryOp) : ofCode op.code = op := by
  cases op with
  | unknown c h => simp [ofCode, code, h]
  | _ => rfl

end BinaryOp

inductive FloatOp
  | add | sub | mul | div | rem | neg | eq | lt | le
  | unknown (code : Int64) (outside : code < 1 ∨ (6 < code ∧ code < 9) ∨ 11 < code)
  deriving DecidableEq

namespace FloatOp

def arithmetic : List FloatOp := [add, sub, mul, div, rem, neg]

def comparisons : List FloatOp := [eq, lt, le]

def code : FloatOp → Int64
  | add => 1 | sub => 2 | mul => 3 | div => 4 | rem => 5 | neg => 6
  | eq => 9 | lt => 10 | le => 11
  | unknown c _ => c

def ofCode (c : Int64) : FloatOp :=
  if h : c < 1 ∨ (6 < c ∧ c < 9) ∨ 11 < c then .unknown c h
  else if c < 9 then arithmetic.getD (c.toInt.toNat - 1) neg
  else comparisons.getD (c.toInt.toNat - 9) le

def name : FloatOp → String
  | add => "fadd" | sub => "fsub" | mul => "fmul" | div => "fdiv" | rem => "frem" | neg => "fneg"
  | eq => "feq" | lt => "flt" | le => "fle"
  | unknown c _ => "FloatOp<" ++ toString c.toInt ++ ">"

def ofName? (s : String) : Option FloatOp := (arithmetic ++ comparisons).find? (·.name == s)

def isCompare : FloatOp → Bool
  | eq | lt | le => true
  | _ => false

def isUnary : FloatOp → Bool
  | neg => true
  | _ => false

@[simp] theorem ofCode_code (op : FloatOp) : ofCode op.code = op := by
  cases op with
  | unknown c h => simp [ofCode, code, h]
  | _ => rfl

end FloatOp

inductive ConvertOp
  | ofSigned | toSigned | resize
  | unknown (code : Int64) (outside : code < 1 ∨ 3 < code)
  deriving DecidableEq

namespace ConvertOp

def all : List ConvertOp := [ofSigned, toSigned, resize]

def code : ConvertOp → Int64
  | ofSigned => 1 | toSigned => 2 | resize => 3
  | unknown c _ => c

def ofCode (c : Int64) : ConvertOp :=
  if h : c < 1 ∨ 3 < c then .unknown c h else all.getD (c.toInt.toNat - 1) resize

def name : ConvertOp → String
  | ofSigned => "sitofp" | toSigned => "fptosi" | resize => "fpconv"
  | unknown c _ => "ConvertOp<" ++ toString c.toInt ++ ">"

def ofName? (s : String) : Option ConvertOp := all.find? (·.name == s)

@[simp] theorem ofCode_code (op : ConvertOp) : ofCode op.code = op := by
  cases op with
  | unknown c h => simp [ofCode, code, h]
  | _ => rfl

end ConvertOp

end Concolic
