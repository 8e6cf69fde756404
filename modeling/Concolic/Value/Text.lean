import Concolic.Ieee.Literal
import Concolic.Text.Printable
import Concolic.Value.Basic

namespace Concolic

def ValueError.message : ValueError → String
  | literal k s => "diver: invalid " ++ k.name ++ " literal: " ++ Text.quote s
  | unreadable k => "diver: cannot parse " ++ k.name ++ " value"
  | otherKind t k => "constant " ++ t.text ++ " is not a " ++ k.name
  | notConstant t => "expression is not constant: " ++ t.text

namespace Value

def format (v : Value) : String :=
  match v.kind with
  | .bool => if v.toBool then "true" else "false"
  | .char => toString v.bits
  | .float => Ieee.single.text v.bits
  | .double => Ieee.double.text v.bits
  | .byte => toString (signed 8 v.bits)
  | .short => toString (signed 16 v.bits)
  | .int => toString (signed 32 v.bits)
  | .long => toString (signed 64 v.bits)
  | .unknown _ _ => "<invalid>"

def text (v : Value) : String :=
  v.kind.name ++ ":" ++ v.format ++ (v.expr.map fun t => "=" ++ t.text).getD ""

def readBool? (s : String) : Option Bool :=
  if s ∈ ["1", "t", "T", "TRUE", "true", "True"] then some true
  else if s ∈ ["0", "f", "F", "FALSE", "false", "False"] then some false
  else none

def readSigned? (width : Nat) (s : String) : Option Nat :=
  (Text.integer? s.toList).bind fun i =>
    if -(twoPow (width - 1) : Int) ≤ i ∧ i < twoPow (width - 1) then some (wrapInt width i) else none

def readUnsigned? (width : Nat) (s : String) : Option Nat :=
  (Text.natural? s.toList).bind fun n => if n < twoPow width then some n else none

def readBits? (kind : Kind) (s : String) : Option Nat :=
  match kind with
  | .bool => (readBool? s).map fun b => if b then 1 else 0
  | .byte => readSigned? 8 s
  | .char => readUnsigned? 16 s
  | .short => readSigned? 16 s
  | .int => readSigned? 32 s
  | .long => readSigned? 64 s
  | .float => Ieee.single.ofText? s
  | .double => Ieee.double.ofText? s
  | .unknown _ _ => none

def read (kind : Kind) (s : String) : Except ValueError Value :=
  match kind, readBits? kind s with
  | .unknown _ _, _ => .error (.unreadable kind)
  | _, some bits => .ok { kind, bits }
  | _, none => .error (.literal kind s)

end Value

end Concolic
