import Concolic.Text.Integer

namespace Concolic.Yaml

def isLeapYear (year : Nat) : Bool := year % 4 = 0 && (year % 100 ≠ 0 || year % 400 = 0)

def daysIn (year month : Nat) : Nat :=
  if month = 2 then if isLeapYear year then 29 else 28
  else if month = 4 || month = 6 || month = 9 || month = 11 then 30
  else 31

def shortNumber? : List Char → Option (Nat × List Char)
  | a :: b :: r =>
    if !a.isDigit then none
    else if b.isDigit then some (10 * (a.toNat - '0'.toNat) + (b.toNat - '0'.toNat), r)
    else some (a.toNat - '0'.toNat, b :: r)
  | [a] => if a.isDigit then some (a.toNat - '0'.toNat, []) else none
  | [] => none

def after? (c : Char) : List Char → Option (List Char)
  | d :: r => if c = d then some r else none
  | [] => none

def skipDate? (s : List Char) : Option (List Char) := do
  let year := s.takeWhile Char.isDigit
  guard (year.length = 4)
  let (month, r) ← shortNumber? (← after? '-' (s.drop 4))
  let (day, r) ← shortNumber? (← after? '-' r)
  let year ← Text.digits? 10 0 year
  guard (1 ≤ month && month ≤ 12 && 1 ≤ day && day ≤ daysIn year month)
  return r

def skipFraction (s : List Char) : List Char :=
  match s with
  | p :: d :: r => if (p = '.' || p = ',') && d.isDigit then r.dropWhile Char.isDigit else s
  | _ => s

def skipTime? (s : List Char) : Option (List Char) := do
  let (hour, r) ← shortNumber? s
  let (minute, r) ← shortNumber? (← after? ':' r)
  let (second, r) ← shortNumber? (← after? ':' r)
  guard (hour < 24 && minute < 60 && second < 60)
  return skipFraction r

def isZone : List Char → Bool
  | ['Z'] => true
  | [sign, h, i, ':', m, n] =>
    (sign = '+' || sign = '-') && [h, i, m, n].all Char.isDigit
      && (Text.digits? 10 0 [h, i]).any (· ≤ 24) && (Text.digits? 10 0 [m, n]).any (· ≤ 60)
  | _ => false

def isDate (s : List Char) : Bool :=
  match skipDate? s with
  | none => false
  | some [] => true
  | some (mark :: r) =>
    if mark = 'T' || mark = 't' then (skipTime? r).any isZone
    else mark = ' ' && (skipTime? (r.dropWhile (· = ' '))).any List.isEmpty

end Concolic.Yaml
