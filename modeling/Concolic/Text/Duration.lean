import Concolic.Ieee.Arithmetic
import Concolic.Text.Integer
import Concolic.Text.Printable

namespace Concolic.Duration

inductive Error
  | invalid (s : String)
  | missingUnit (s : String)
  | unknownUnit (unit s : String)
  deriving DecidableEq

def quoteBytes (s : String) : String :=
  "\"" ++ String.join (s.toList.map fun c =>
    if c.toNat < 0x20 || 0x80 ≤ c.toNat then
      String.join ((String.singleton c).toUTF8.toList.map fun b => "\\x" ++ Text.hexText 2 b.toNat)
    else if c = '"' || c = '\\' then "\\" ++ String.singleton c
    else String.singleton c) ++ "\""

namespace Error

def message : Error → String
  | invalid s => "time: invalid duration " ++ quoteBytes s
  | missingUnit s => "time: missing unit in duration " ++ quoteBytes s
  | unknownUnit u s => "time: unknown unit " ++ quoteBytes u ++ " in duration " ++ quoteBytes s

end Error

def unit? : String → Option Nat
  | "ns" => some 1
  | "us" | "µs" | "μs" => some 1000
  | "ms" => some 1000000
  | "s" => some 1000000000
  | "m" => some 60000000000
  | "h" => some 3600000000000
  | _ => none

def digitsValue (ds : List Char) : Nat :=
  ds.foldl (fun n c => 10 * n + (c.toNat - '0'.toNat)) 0

def fraction (ds : List Char) : Nat × Nat :=
  let rec go (x k : Nat) : List Char → Nat × Nat
    | [] => (x, k)
    | c :: cs =>
      if (twoPow 63 - 1) / 10 < x then (x, k)
      else
        let y := 10 * x + (c.toNat - '0'.toNat)
        if twoPow 63 < y then (x, k) else go y (k + 1) cs
  go 0 0 ds

/-- A fraction of a unit in whole nanoseconds, computed in double precision. -/
def fractionOf (unit numerator places : Nat) : Nat :=
  let double (n : Nat) : Nat := Ieee.double.ofInt n
  let x := Ieee.double.mul (double numerator) (Ieee.double.div (double unit) (double (tenPow places)))
  ((Ieee.double.decode x).truncate?.getD 0).toNat

def endsUnit (c : Char) : Bool := c = '.' || Text.isDecimal c

def sum (whole : String) : (fuel : Nat) → (total : Nat) → List Char → Except Error Nat
  | _, total, [] => .ok total
  | 0, _, _ => .error (.invalid whole)
  | fuel + 1, total, cs => do
    let before := cs.takeWhile Text.isDecimal
    let rest := cs.dropWhile Text.isDecimal
    let (after, rest) := match rest with
      | '.' :: r => (r.takeWhile Text.isDecimal, r.dropWhile Text.isDecimal)
      | r => ([], r)
    let v := digitsValue before
    if twoPow 63 < v || (before.isEmpty && after.isEmpty) then throw (.invalid whole)
    let u := String.ofList (rest.takeWhile fun c => !endsUnit c)
    if u = "" then throw (.missingUnit whole)
    match unit? u with
    | none => throw (.unknownUnit u whole)
    | some unit =>
      if twoPow 63 / unit < v then throw (.invalid whole)
      let (numerator, places) := fraction after
      let v := v * unit + (if numerator = 0 then 0 else fractionOf unit numerator places)
      if twoPow 63 < v || twoPow 63 < total + v then throw (.invalid whole)
      sum whole fuel (total + v) (rest.dropWhile fun c => !endsUnit c)

def parse (s : String) : Except Error Int :=
  let (negative, cs) := match s.toList with
    | '-' :: r => (true, r)
    | '+' :: r => (false, r)
    | r => (false, r)
  if cs = ['0'] then .ok 0
  else if cs.isEmpty then .error (.invalid s)
  else do
    let n ← sum s cs.length 0 cs
    if negative then return -(n : Int)
    else if n < twoPow 63 then return n
    else throw (.invalid s)

def decimalText (n places : Nat) : String :=
  let low := toString (n % tenPow places)
  let padded := List.replicate (places - low.length) '0' ++ low.toList
  let digits := (padded.reverse.dropWhile (· = '0')).reverse
  toString (n / tenPow places)
    ++ (if places = 0 || digits.isEmpty then "" else "." ++ String.ofList digits)

def magnitudeText (n : Nat) : String :=
  if n = 0 then "0s"
  else if n < 1000 then decimalText n 0 ++ "ns"
  else if n < 1000000 then decimalText n 3 ++ "µs"
  else if n < 1000000000 then decimalText n 6 ++ "ms"
  else
    let minutes := n / 60000000000
    let seconds := decimalText (n % 60000000000) 9 ++ "s"
    if minutes = 0 then seconds
    else if minutes < 60 then toString minutes ++ "m" ++ seconds
    else toString (minutes / 60) ++ "h" ++ toString (minutes % 60) ++ "m" ++ seconds

def text (nanoseconds : Int) : String :=
  (if nanoseconds < 0 then "-" else "") ++ magnitudeText nanoseconds.natAbs

end Concolic.Duration
