import Concolic.Bits
import Concolic.Circuit.Basic

/-!
Circuits for bit-vector arithmetic. Bits are listed from the least significant one.
-/

namespace Concolic

abbrev Bits := List Lit

namespace Bits

def not (x : Bits) : Bits := x.map Lit.not

def resize (x : Bits) (width : Nat) (fill : Lit) : Bits :=
  x.take width ++ List.replicate (width - x.length) fill

def flipAt (i : Nat) (x : Bits) : Bits := x.modify i Lit.not

def toNat (value : Lit → Bool) : Bits → Nat
  | [] => 0
  | l :: rest => (if value l then 1 else 0) + 2 * toNat value rest

inductive Shift
  | left | logical | arithmetic
  deriving DecidableEq

def Shift.move (kind : Shift) (fill : Lit) (n : Nat) (x : Bits) : Bits :=
  match kind with
  | .left => List.replicate n fill ++ x.take (x.length - n)
  | .logical | .arithmetic => x.drop n ++ List.replicate n fill

end Bits

namespace Builder

open Bits

variable (B : Builder)

def ofNat (value : Nat) : (width : Nat) → Bits
  | 0 => []
  | width + 1 => B.ofBool (value % 2 == 1) :: ofNat (value / 2) width

def zeros (width : Nat) : Bits := List.replicate width B.bottom

def sign (x : Bits) : Lit := x.getLastD B.bottom

def mux (cond : Lit) : Bits → Bits → B.Gates Bits
  | a :: x, b :: y => do
    let l ← B.choose cond a b
    let rest ← mux cond x y
    return l :: rest
  | _, _ => return []

def bitwise (op : Lit → Lit → B.Gates Lit) : Bits → Bits → B.Gates Bits
  | a :: x, b :: y => do
    let l ← op a b
    let rest ← bitwise op x y
    return l :: rest
  | _, _ => return []

def add (carry : Lit) : Bits → Bits → B.Gates Bits
  | a :: x, b :: y => do
    let t ← B.xor a b
    let s ← B.xor t carry
    let both ← B.and a b
    let through ← B.and t carry
    let next ← B.or both through
    let rest ← add next x y
    return s :: rest
  | _, _ => return []

def sub (x y : Bits) : B.Gates Bits := B.add B.top x y.not

def neg (x : Bits) : B.Gates Bits := B.sub (B.zeros x.length) x

def mulFrom (x : Bits) (i : Nat) (acc : Bits) : Bits → B.Gates Bits
  | [] => return acc
  | b :: y => do
    let row ← (x.take (x.length - i)).mapM fun a => B.and a b
    let acc ← B.add B.bottom acc (B.zeros i ++ row)
    mulFrom x (i + 1) acc y

def mul (x y : Bits) : B.Gates Bits := B.mulFrom x 0 (B.zeros x.length) (y.take x.length)

def eq (x y : Bits) : B.Gates Lit := do
  let differ ← B.bitwise B.xor x y
  B.all differ.not

def ultFrom (lt : Lit) : Bits → Bits → B.Gates Lit
  | a :: x, b :: y => do
    let differ ← B.xor a b
    let lt ← B.choose differ b lt
    ultFrom lt x y
  | _, _ => return lt

def ult (x y : Bits) : B.Gates Lit := B.ultFrom B.bottom x y

def slt (x y : Bits) : B.Gates Lit :=
  B.ult (flipAt (x.length - 1) x) (flipAt (x.length - 1) y)

def divideFrom (divisor : Bits) (q r : Bits) : Bits → B.Gates (Bits × Bits)
  | [] => return (q, r)
  | b :: rest => do
    let shifted := b :: r.take (divisor.length - 1)
    let less ← B.ult shifted divisor
    let fits := Lit.not less
    let reduced ← B.sub shifted divisor
    let r ← B.mux fits reduced shifted
    divideFrom divisor (fits :: q) r rest

/-- Unsigned quotient and remainder. Divided by zero, the quotient is all ones and the remainder the
dividend. -/
def udivrem (x y : Bits) : B.Gates (Bits × Bits) := do
  let w := x.length
  let (q, r) ← B.divideFrom (resize y (w + 1) B.bottom) [] (B.zeros (w + 1)) x.reverse
  return (q, r.take w)

def abs (x : Bits) : B.Gates Bits := do
  let n ← B.neg x
  B.mux (B.sign x) n x

def sdivrem (x y : Bits) : B.Gates (Bits × Bits) := do
  let ux ← B.abs x
  let uy ← B.abs y
  let (uq, ur) ← B.udivrem ux uy
  let signs ← B.xor (B.sign x) (B.sign y)
  let nq ← B.neg uq
  let q ← B.mux signs nq uq
  let nr ← B.neg ur
  let r ← B.mux (B.sign x) nr ur
  return (q, r)

/-- Moves `x` by the bits of an amount, whose first one has weight `2 ^ k`, and collects whether a
bit of it exceeds the width. -/
def shiftFrom (kind : Shift) (fill : Lit) (k : Nat) (x : Bits) (beyond : Lit) :
    Bits → B.Gates (Bits × Lit)
  | [] => return (x, beyond)
  | b :: rest =>
    if 63 ≤ k ∨ x.length ≤ twoPow k then do
      let beyond ← B.or beyond b
      shiftFrom kind fill (k + 1) x beyond rest
    else do
      let x ← B.mux b (kind.move fill (twoPow k) x) x
      shiftFrom kind fill (k + 1) x beyond rest

def shift (kind : Shift) (x amount : Bits) : B.Gates Bits := do
  let fill := if kind = .arithmetic then B.sign x else B.bottom
  let (v, beyond) ← B.shiftFrom kind fill 0 x B.bottom amount
  B.mux beyond (List.replicate x.length fill) v

end Builder

end Concolic
