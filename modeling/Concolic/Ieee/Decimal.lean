import Concolic.Ieee.Format

namespace Concolic.Ieee

/-- The number `0.d₁d₂… · 10 ^ point`, with its digits `d₁ d₂ …` written as one natural number. -/
structure Decimal where
  digits : Nat
  point : Int
  deriving DecidableEq

namespace Decimal

def reaches (num den : Nat) : Int → Bool
  | .ofNat k => decide (den * tenPow k ≤ num)
  | .negSucc k => decide (den ≤ num * tenPow (k + 1))

def magnitude (num den : Nat) : Int :=
  let k := Format.log2Ratio num den * 30103 / 100000 + 1
  if !reaches num den (k - 1) then k - 1 else if reaches num den k then k + 1 else k

/-- The numbers that round to a given one: those between `low` and `high` over `den`, with the ends
if `closed`. -/
structure Interval where
  low : Nat
  value : Nat
  high : Nat
  den : Nat
  closed : Bool

def Interval.contains (i : Interval) (c : Nat) (k : Int) : Bool :=
  let (low, high, point) := match k with
    | .ofNat k => (i.low, i.high, c * tenPow k * i.den)
    | .negSucc k => (i.low * tenPow (k + 1), i.high * tenPow (k + 1), c * i.den)
  if i.closed then decide (low ≤ point) && decide (point ≤ high)
  else decide (low < point) && decide (point < high)

/-- The best of the two neighbours of the value on the grid of multiples of `10 ^ k` that the
interval holds; of two, the nearer, and of two equally near the even one. -/
def Interval.onGrid? (i : Interval) (k : Int) : Option Nat :=
  let (n, d) := match k with
    | .ofNat k => (i.value, i.den * tenPow k)
    | .negSucc k => (i.value * tenPow (k + 1), i.den)
  let c := n / d
  let r := n % d
  match i.contains c k, i.contains (c + 1) k with
  | true, false => some c
  | false, true => some (c + 1)
  | true, true => some (if 2 * r < d ∨ (2 * r = d ∧ c % 2 = 0) then c else c + 1)
  | false, false => none

def Interval.search (i : Interval) : Nat → Int → Nat × Int
  | 0, k => ((i.onGrid? k).getD 0, k)
  | n + 1, k =>
    match i.onGrid? k with
    | some c => (c, k)
    | none => i.search n (k - 1)

def Interval.around (f : Format) (mantissa : Nat) (scale : Int) : Interval :=
  let low :=
    if mantissa = twoPow f.fraction ∧ f.minScale < scale then 4 * mantissa - 1 else 4 * mantissa - 2
  let (s, den) := match scale - 2 with
    | .ofNat k => (k, 1)
    | .negSucc k => (0, 1 <<< (k + 1))
  { low := low <<< s, value := (4 * mantissa) <<< s, high := (4 * mantissa + 2) <<< s
    den, closed := mantissa % 2 == 0 }

def digitCount (n : Nat) : Nat := if n = 0 then 0 else (Nat.toDigits 10 n).length

def trimZeros : Nat → Nat → Nat
  | 0, n => n
  | fuel + 1, n => if n ≠ 0 ∧ n % 10 = 0 then trimZeros fuel (n / 10) else n

def shortest (f : Format) (mantissa : Nat) (scale : Int) : Decimal :=
  if mantissa = 0 then ⟨0, 0⟩
  else
    let i := Interval.around f mantissa scale
    let (c, k) := i.search 17 (magnitude i.value i.den - 1)
    ⟨trimZeros 20 c, k + digitCount c⟩

structure Layout where
  least : Int
  bound : Int

def exponentText (e : Int) : String :=
  let n := toString e.natAbs
  (if e < 0 then "-" else "+") ++ (if n.length < 2 then "0" ++ n else n)

def Layout.render (l : Layout) (d : Decimal) : String :=
  let ds := if d.digits = 0 then [] else Nat.toDigits 10 d.digits
  let e := d.point - 1
  if e < l.least ∨ l.bound ≤ e then
    let (first, rest) := match ds with
      | [] => ('0', [])
      | c :: cs => (c, cs)
    String.singleton first ++ (if rest.isEmpty then "" else "." ++ String.ofList rest)
      ++ "e" ++ exponentText e
  else
    let n := d.point.toNat
    let whole := if n = 0 then ['0'] else ds.take n ++ List.replicate (n - ds.length) '0'
    let part := List.replicate (-d.point).toNat '0' ++ ds.drop n
    String.ofList whole ++ (if part.isEmpty then "" else "." ++ String.ofList part)

end Decimal

def generalLayout : Decimal.Layout := ⟨-4, 6⟩

def Format.text (f : Format) (pattern : Nat) : String :=
  match f.decode pattern with
  | .nan _ _ => "NaN"
  | .infinite n => if n then "-Inf" else "+Inf"
  | .finite n m e =>
    (if n then "-" else "") ++ generalLayout.render (Decimal.shortest f m e)

end Concolic.Ieee
