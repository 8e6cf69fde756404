import Concolic.Ieee.Format
import Concolic.Text.Integer

namespace Concolic.Ieee

open Text

/-- A literal taken apart: `mantissa · base ^ -places · radix ^ exponent`. -/
structure Numeral where
  hex : Bool
  mantissa : Nat
  places : Nat
  exponent : Int

namespace Numeral

/-- An exponent's digits. From 10000 on further ones do not count, since every number with such an
exponent is out of range. -/
def exponentDigits (acc : Nat) : List Char → Option Nat
  | [] => some acc
  | c :: cs =>
    if c = '_' then exponentDigits acc cs
    else if isDecimal c then
      exponentDigits (if acc < 10000 then acc * 10 + (c.toNat - '0'.toNat) else acc) cs
    else none

def exponent? (s : List Char) : Option Int :=
  let (negative, ds) := match s with
    | '-' :: r => (true, r)
    | '+' :: r => (false, r)
    | r => (false, r)
  match ds with
  | c :: _ =>
    if isDecimal c then (exponentDigits 0 ds).map fun n => if negative then -(n : Int) else n
    else none
  | [] => none

def ofChars? (s : List Char) : Option Numeral :=
  let (hex, body) := match s with
    | '0' :: x :: c :: r => if x.toLower = 'x' then (true, c :: r) else (false, s)
    | _ => (false, s)
  let inMantissa (c : Char) : Bool :=
    c = '_' || c = '.' || isDecimal c || (hex && isHex c)
  let front := body.takeWhile inMantissa
  let rest := body.dropWhile inMantissa
  let figures := front.filter fun c => c != '_' && c != '.'
  if 1 < front.count '.' || figures.isEmpty then none
  else
    let places := ((front.dropWhile (· != '.')).filter fun c => c != '_' && c != '.').length
    let mark := if hex then 'p' else 'e'
    let exponent := match rest with
      | [] => if hex then none else some 0
      | c :: r => if c.toLower = mark then exponent? r else none
    match digits? (if hex then 16 else 10) 0 figures, exponent with
    | some mantissa, some exponent => some { hex, mantissa, places, exponent }
    | _, _ => none

end Numeral

namespace Format

def ofNumeral? (f : Format) (negative : Bool) (n : Numeral) : Option Nat :=
  let pattern :=
    if n.mantissa = 0 then f.withSign negative 0
    else if n.hex then
      let scale := n.exponent - 4 * n.places
      let top := (n.mantissa.log2 : Int) + scale
      if 2000 < top then f.withSign negative f.infinity
      else if top < -2000 then f.withSign negative 0
      else f.nearestScaled negative n.mantissa scale
    else
      let scale := n.exponent - n.places
      let top := ((Nat.toDigits 10 n.mantissa).length : Int) + scale
      if 400 < top then f.withSign negative f.infinity
      else if top < -400 then f.withSign negative 0
      else match scale with
        | .ofNat k => f.nearest negative (n.mantissa * tenPow k) 1
        | .negSucc k => f.nearest negative n.mantissa (tenPow (k + 1))
  if pattern % f.signBit = f.infinity then none else some pattern

def ofText? (f : Format) (text : String) : Option Nat :=
  let s := text.toList
  let (sign, body) := match s with
    | '-' :: r => (some true, r)
    | '+' :: r => (some false, r)
    | r => (none, r)
  let word := String.ofList (body.map Char.toLower)
  let negative := sign.getD false
  if word = "inf" ∨ word = "infinity" then some (f.withSign negative f.infinity)
  else if word = "nan" then
    if sign.isSome then none else some (f.quietNan false (if f = double then 1 else 0))
  else if s.contains '_' && !underscoresOk s then none
  else (Numeral.ofChars? body).bind (f.ofNumeral? negative)

end Format

end Concolic.Ieee
