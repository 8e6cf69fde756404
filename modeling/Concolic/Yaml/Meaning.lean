import Concolic.Ieee.Arithmetic
import Concolic.Ieee.Literal
import Concolic.Bits
import Concolic.Yaml.Date
import Concolic.Yaml.Mark

namespace Concolic.Yaml

inductive Meaning
  | null
  | bool (b : Bool)
  | int (n : Int)
  | float (pattern : Nat)
  | date
  | text
  deriving DecidableEq, Repr

namespace Meaning

def tag : Meaning → String
  | null => "!!null"
  | bool _ => "!!bool"
  | int _ => "!!int"
  | float _ => "!!float"
  | date => "!!timestamp"
  | text => "!!str"

def negativeInfinity : Nat := Ieee.double.withSign true Ieee.double.infinity

def ofWord? : String → Option Meaning
  | "" | "~" | "null" | "Null" | "NULL" => some null
  | "true" | "True" | "TRUE" => some (bool true)
  | "false" | "False" | "FALSE" => some (bool false)
  | ".nan" | ".NaN" | ".NAN" => (Ieee.double.ofText? "NaN").map float
  | ".inf" | ".Inf" | ".INF" | "+.inf" | "+.Inf" | "+.INF" => some (float Ieee.double.infinity)
  | "-.inf" | "-.Inf" | "-.INF" => some (float negativeInfinity)
  | _ => none

def fits (n : Int) : Bool := -(twoPow 63 : Int) ≤ n && n < twoPow 64

/-- Digits of a base after an optional sign. A plus sign is for numbers of 63 bits. -/
def signedDigits? (base : Nat) (s : List Char) : Option Int :=
  let digits (ds : List Char) : Option Nat := if ds.isEmpty then none else Text.digits? base 0 ds
  match s with
  | '-' :: r => (digits r).map fun n => -(n : Int)
  | '+' :: r => ((digits r).filter (· < twoPow 63)).map fun n => (n : Int)
  | r => (digits r).map fun n => (n : Int)

def ofInteger? (s : List Char) : Option Meaning :=
  let forms := [
    Text.integer? s,
    match s with
    | '0' :: 'b' :: r => signedDigits? 2 r
    | '-' :: '0' :: 'b' :: r => signedDigits? 2 ('-' :: r)
    | '0' :: 'o' :: r => signedDigits? 8 r
    | '-' :: '0' :: 'o' :: r => signedDigits? 8 ('-' :: r)
    | _ => none]
  -- A plus sign is for numbers of 63 bits.
  let fits (n : Int) : Bool := fits n && (n < twoPow 63 || s.head? ≠ some '+')
  (forms.findSome? fun n => n.filter fits).map int

def isExponent : List Char → Bool
  | [] => true
  | e :: r =>
    let ds := match r with
      | '-' :: r | '+' :: r => r
      | r => r
    (e = 'e' || e = 'E') && !ds.isEmpty && ds.all Char.isDigit

def isDecimalFloat (s : List Char) : Bool :=
  let s := match s with
    | '-' :: r | '+' :: r => r
    | r => r
  let whole := s.takeWhile Char.isDigit
  match s.dropWhile Char.isDigit with
  | '.' :: r =>
    (!whole.isEmpty || r.head?.any Char.isDigit) && isExponent (r.dropWhile Char.isDigit)
  | r => !whole.isEmpty && isExponent r

def ofNumber? (s : List Char) : Option Meaning :=
  let plain := s.filter (· ≠ '_')
  (ofInteger? plain).orElse fun _ =>
    if isDecimalFloat plain then (Ieee.double.ofText? (String.ofList plain)).map float else none

def ofPlain (dates : Bool) (s : String) : Meaning :=
  let found : Option Meaning :=
    (ofWord? s).orElse fun _ =>
      match s.toList with
      | '.' :: _ => (Ieee.double.ofText? s).map float
      | c :: _ =>
        if c.isDigit || c = '+' || c = '-' then
          if dates && isDate s.toList then some date else ofNumber? s.toList
        else none
      | [] => none
  found.getD text

def isStandardTag (tag : String) : Bool :=
  ["!!str", "!!bool", "!!int", "!!float", "!!null", "!!timestamp"].contains tag

/-- The meaning of a scalar with a tag, which is empty if there is none. What has a tag of its own is
text. Integers of 63 bits will do as floating-point numbers. -/
def ofTagged (tag s : String) : Except Problem Meaning :=
  if tag ≠ "" && !isStandardTag tag then .ok text
  else if tag = "!!str" then .ok text
  else
    let m := ofPlain (tag = "" || tag = "!!timestamp") s
    let refusal : Problem :=
      { text := "cannot decode " ++ m.tag ++ " `" ++ s ++ "` as a " ++ tag }
    if tag = "" || tag = m.tag then .ok m
    else
      match tag, m with
      | "!!float", int n =>
        if n < twoPow 63 then .ok (float (Ieee.double.ofInt n)) else .error refusal
      | _, _ => .error refusal

end Meaning

end Concolic.Yaml
