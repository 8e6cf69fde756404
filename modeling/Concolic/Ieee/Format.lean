import Concolic.Bits

/-!
Binary floating-point formats: what a bit pattern stands for, and the pattern nearest to a number.
All arithmetic on finite numbers is exact and rounds once.
-/

namespace Concolic.Ieee

structure Format where
  fraction : Nat
  exponent : Nat
  deriving DecidableEq

def single : Format := ⟨23, 8⟩
def double : Format := ⟨52, 11⟩

/-- What a pattern stands for; `finite` is the number `± mantissa · 2 ^ scale`. -/
inductive Datum
  | nan (negative : Bool) (payload : Nat)
  | infinite (negative : Bool)
  | finite (negative : Bool) (mantissa : Nat) (scale : Int)
  deriving DecidableEq

namespace Datum

def isNegative : Datum → Bool
  | nan n _ | infinite n | finite n _ _ => n

def isZero : Datum → Bool
  | finite _ 0 _ => true
  | _ => false

def isNan : Datum → Bool
  | nan _ _ => true
  | _ => false

end Datum

namespace Format

def minScale (f : Format) : Int := 2 - twoPow (f.exponent - 1) - f.fraction

def signBit (f : Format) : Nat := twoPow (f.fraction + f.exponent)

def infinity (f : Format) : Nat := (twoPow f.exponent - 1) * twoPow f.fraction

def quiet (f : Format) : Nat := twoPow (f.fraction - 1)

def defaultNan (f : Format) : Nat := f.signBit + f.infinity + f.quiet

def withSign (f : Format) (negative : Bool) (magnitude : Nat) : Nat :=
  if negative then f.signBit + magnitude else magnitude

def decode (f : Format) (pattern : Nat) : Datum :=
  let negative := pattern / f.signBit % 2 == 1
  let biased := pattern / twoPow f.fraction % twoPow f.exponent
  let low := pattern % twoPow f.fraction
  if biased = twoPow f.exponent - 1 then
    if low = 0 then .infinite negative else .nan negative low
  else if biased = 0 then .finite negative low f.minScale
  else .finite negative (twoPow f.fraction + low) (f.minScale + (biased - 1))

def log2Ratio (num den : Nat) : Int :=
  let estimate : Int := (num.log2 : Int) - den.log2
  let reached := match estimate with
    | .ofNat k => decide (den <<< k ≤ num)
    | .negSucc k => decide (den ≤ num <<< (k + 1))
  if reached then estimate else estimate - 1

/-- The pattern nearest to `± num / den`; a tie goes to the even one, and what is too large becomes
infinite. -/
def nearest (f : Format) (negative : Bool) (num den : Nat) : Nat :=
  if num = 0 ∨ den = 0 then f.withSign negative 0
  else
    let scale := max f.minScale (log2Ratio num den - f.fraction)
    let (n, d) := match scale with
      | .ofNat k => (num, den <<< k)
      | .negSucc k => (num <<< (k + 1), den)
    let q := n / d
    let r := n % d
    let q := if d < 2 * r ∨ (2 * r = d ∧ q % 2 = 1) then q + 1 else q
    let magnitude := (scale - f.minScale).toNat * twoPow f.fraction + q
    f.withSign negative (min magnitude f.infinity)

def nearestScaled (f : Format) (negative : Bool) (mantissa : Nat) : Int → Nat
  | .ofNat k => f.nearest negative (mantissa <<< k) 1
  | .negSucc k => f.nearest negative mantissa (1 <<< (k + 1))

/-- A NaN keeps its sign and the leading bits of its payload, and becomes quiet. -/
def quietNan (f : Format) (negative : Bool) (payload : Nat) : Nat :=
  f.withSign negative (f.infinity + (payload ||| f.quiet))

def convert (source target : Format) (pattern : Nat) : Nat :=
  match source.decode pattern with
  | .nan negative payload =>
    let aligned :=
      if source.fraction ≤ target.fraction then payload <<< (target.fraction - source.fraction)
      else payload >>> (source.fraction - target.fraction)
    target.quietNan negative aligned
  | .infinite negative => target.withSign negative target.infinity
  | .finite negative m e => target.nearestScaled negative m e

end Format

end Concolic.Ieee
