/-!
Machine words. A pattern is a natural number of which a width says how many low bits count; no
word has more than 64.
-/

namespace Concolic

def twoPow (n : Nat) : Nat := Nat.pow 2 n

def tenPow (n : Nat) : Nat := Nat.pow 10 n

@[simp] theorem twoPow_zero : twoPow 0 = 1 := rfl

theorem twoPow_succ (n : Nat) : twoPow (n + 1) = twoPow n * 2 := rfl

theorem twoPow_pos (n : Nat) : 0 < twoPow n := Nat.pow_pos (Nat.zero_lt_succ 1)

def patterns (w : Nat) : Nat := twoPow (min w 64)

def wrap (w n : Nat) : Nat := n % patterns w

def wrapInt (w : Nat) (i : Int) : Nat := (i % (patterns w : Int)).toNat

/-- The two's complement reading of the low `w` bits. A width outside 1 to 64 has no sign bit and
reads as zero. -/
def signed (w n : Nat) : Int :=
  if w = 0 ∨ 64 < w then 0
  else
    let m := n % twoPow w
    if m < twoPow (w - 1) then m else (m : Int) - twoPow w

def shiftDown (n amount : Nat) : Nat := if 64 ≤ amount then 0 else n >>> amount

/-- The sum of two offsets. Offsets and widths are 64-bit words, so it wraps. -/
def offsetSum (a b : Nat) : Nat := (a + b) % twoPow 64

theorem patterns_pos (w : Nat) : 0 < patterns w := twoPow_pos _

theorem patterns_of_le {w : Nat} (h : w ≤ 64) : patterns w = twoPow w := by
  rw [patterns, Nat.min_eq_left h]

theorem wrap_lt (w n : Nat) : wrap w n < patterns w := Nat.mod_lt _ (patterns_pos w)

@[simp] theorem wrap_wrap (w n : Nat) : wrap w (wrap w n) = wrap w n := Nat.mod_mod _ _

theorem wrap_of_lt {w n : Nat} (h : n < patterns w) : wrap w n = n := Nat.mod_eq_of_lt h

end Concolic
