import Concolic.Ieee.Format

namespace Concolic.Ieee

namespace Datum

def units (negative : Bool) (mantissa : Nat) (scale common : Int) : Int :=
  let n : Int := (mantissa <<< (scale - common).toNat : Nat)
  if negative then -n else n

def lt : Datum → Datum → Bool
  | nan _ _, _ | _, nan _ _ => false
  | infinite n, infinite m => n && !m
  | infinite n, finite _ _ _ => n
  | finite _ _ _, infinite m => !m
  | finite n a e, finite m b k =>
    let common := min e k
    decide (units n a e common < units m b k common)

def eq : Datum → Datum → Bool
  | nan _ _, _ | _, nan _ _ => false
  | infinite n, infinite m => n == m
  | infinite _, finite _ _ _ | finite _ _ _, infinite _ => false
  | finite n a e, finite m b k =>
    let common := min e k
    decide (units n a e common = units m b k common)

def le (a b : Datum) : Bool := a.lt b || a.eq b

def truncate? : Datum → Option Int
  | finite n m (.ofNat k) => some (if n then -((m <<< k : Nat) : Int) else (m <<< k : Nat))
  | finite n m (.negSucc k) =>
    some (if n then -((m >>> (k + 1) : Nat) : Int) else (m >>> (k + 1) : Nat))
  | _ => none

end Datum

namespace Format

def neg (f : Format) (a : Nat) : Nat :=
  if a / f.signBit % 2 = 1 then a - f.signBit else a + f.signBit

def add (f : Format) (a b : Nat) : Nat :=
  match f.decode a, f.decode b with
  | .nan n p, _ => f.quietNan n p
  | _, .nan n p => f.quietNan n p
  | .infinite n, .infinite m => if n = m then a else f.defaultNan
  | .infinite _, .finite _ _ _ => a
  | .finite _ _ _, .infinite _ => b
  | .finite n x e, .finite m y k =>
    let common := min e k
    let sum := Datum.units n x e common + Datum.units m y k common
    -- An exact zero is positive unless both operands are negative.
    let negative := if sum = 0 then n && m else decide (sum < 0)
    f.nearestScaled negative sum.natAbs common

def sub (f : Format) (a b : Nat) : Nat :=
  match f.decode a, f.decode b with
  | .nan n p, _ => f.quietNan n p
  | _, .nan n p => f.quietNan n p
  | _, _ => f.add a (f.neg b)

def mul (f : Format) (a b : Nat) : Nat :=
  match f.decode a, f.decode b with
  | .nan n p, _ => f.quietNan n p
  | _, .nan n p => f.quietNan n p
  | .infinite n, .infinite m => f.withSign (n != m) f.infinity
  | .infinite n, .finite m y _ =>
    if y = 0 then f.defaultNan else f.withSign (n != m) f.infinity
  | .finite n x _, .infinite m =>
    if x = 0 then f.defaultNan else f.withSign (n != m) f.infinity
  | .finite n x e, .finite m y k => f.nearestScaled (n != m) (x * y) (e + k)

def div (f : Format) (a b : Nat) : Nat :=
  match f.decode a, f.decode b with
  | .nan n p, _ => f.quietNan n p
  | _, .nan n p => f.quietNan n p
  | .infinite _, .infinite _ => f.defaultNan
  | .infinite n, .finite m _ _ => f.withSign (n != m) f.infinity
  | .finite n _ _, .infinite m => f.withSign (n != m) 0
  | .finite n x e, .finite m y k =>
    if y = 0 then
      if x = 0 then f.defaultNan else f.withSign (n != m) f.infinity
    else
      match e - k with
      | .ofNat s => f.nearest (n != m) (x <<< s) y
      | .negSucc s => f.nearest (n != m) x (y <<< (s + 1))

def remainderNan (f : Format) : Nat := f.infinity + f.quiet + 1

/-- The remainder of the quotient truncated toward zero; it has the sign of the dividend. -/
def rem (f : Format) (a b : Nat) : Nat :=
  match f.decode a, f.decode b with
  | .nan _ _, _ | _, .nan _ _ | .infinite _, _ => f.remainderNan
  | .finite _ _ _, .infinite _ => a
  | .finite n x e, .finite _ y k =>
    if y = 0 then f.remainderNan
    else
      let common := min e k
      let r := (x <<< (e - common).toNat) % (y <<< (k - common).toNat)
      f.nearestScaled n r common

def ofInt (f : Format) (i : Int) : Nat := f.nearest (decide (i < 0)) i.natAbs 1

def toInt (f : Format) (width : Nat) (a : Nat) : Int :=
  let bound : Int := twoPow (width - 1)
  match f.decode a with
  | .nan _ _ => 0
  | .infinite n => if n then -bound else bound - 1
  | d => max (-bound) (min (bound - 1) (d.truncate?.getD 0))

end Format

end Concolic.Ieee
