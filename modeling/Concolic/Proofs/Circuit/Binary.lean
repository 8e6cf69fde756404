import Mathlib
import Concolic.Circuit.Arithmetic

namespace Concolic.Binary

def num : List Bool → Nat
  | [] => 0
  | b :: bs => b.toNat + 2 * num bs

def toBits {w : Nat} (x : BitVec w) : List Bool := List.ofFn fun i : Fin w => x.getLsbD i

variable {w : Nat} {as bs : List Bool} {n i : Nat}

@[simp] theorem length_toBits (x : BitVec w) : (toBits x).length = w := by
  simp [toBits]

@[simp] theorem getElem_toBits (x : BitVec w) (h : i < (toBits x).length) :
    (toBits x)[i] = x.getLsbD i :=
  List.getElem_ofFn h

theorem num_cons (b : Bool) (bs : List Bool) : num (b :: bs) = Nat.bit b (num bs) := by
  cases b <;> simp [num, Nat.bit_val, Nat.add_comm]

theorem testBit_num (bs : List Bool) (i : Nat) : (num bs).testBit i = bs.getD i false := by
  induction bs generalizing i with
  | nil => simp [num]
  | cons b bs ih =>
    rw [num_cons]
    cases i with
    | zero => simp
    | succ i => rw [Nat.testBit_bit_succ, ih, List.getD_cons_succ]

theorem num_toBits (x : BitVec w) : num (toBits x) = x.toNat := by
  apply Nat.eq_of_testBit_eq
  intro i
  rw [testBit_num, BitVec.testBit_toNat]
  by_cases h : i < w
  · rw [List.getD_eq_getElem _ _ (by simpa using h), getElem_toBits]
  · rw [List.getD_eq_default _ _ (by simpa using h), BitVec.getLsbD_of_ge x i (by omega)]

theorem num_lt (bs : List Bool) : num bs < 2 ^ bs.length := by
  induction bs with
  | nil => decide
  | cons b bs ih =>
    rw [num, List.length_cons, Nat.pow_succ]
    cases b <;> simp <;> omega

theorem eq_of_num (h : as.length = bs.length) (hn : num as = num bs) : as = bs := by
  apply List.ext_getElem h
  intro i ha hb
  have := congrArg (·.testBit i) hn
  simpa [testBit_num, List.getD_eq_getElem, ha, hb] using this

theorem eq_toBits {x : BitVec w} (h : bs.length = w) (hn : num bs = x.toNat) : bs = toBits x :=
  eq_of_num (by simpa using h) (hn.trans (num_toBits x).symm)

theorem num_append (as bs : List Bool) : num (as ++ bs) = num as + 2 ^ as.length * num bs := by
  induction as with
  | nil => simp [num]
  | cons a as ih =>
    rw [List.cons_append, num, num, ih, List.length_cons, Nat.pow_succ]
    ring

theorem toNat_add_two_mul_mod (b : Bool) (k n : Nat) :
    (b.toNat + 2 * k) % 2 ^ (n + 1) = b.toNat + 2 * (k % 2 ^ n) := by
  have hb := b.toNat_lt
  have half : (b.toNat + 2 * k) / 2 = k := by omega
  rw [Nat.pow_succ, Nat.mul_comm (2 ^ n), Nat.mod_mul, half]
  omega

theorem toBits_zero (n : Nat) : toBits 0#n = List.replicate n false := by
  apply List.ext_getElem <;> simp

theorem getLastD_toBits (x : BitVec w) : (toBits x).getLastD false = x.msb := by
  rw [List.getLastD_eq_getLast?, List.getLast?_eq_getElem?, length_toBits,
    BitVec.msb_eq_getLsbD_last]
  by_cases hw : 0 < w
  · rw [List.getElem?_eq_getElem (by simp; omega), getElem_toBits]
    rfl
  · obtain rfl : w = 0 := by omega
    simp

theorem toBits_inj {x y : BitVec w} : toBits x = toBits y ↔ x = y := by
  refine ⟨fun h => ?_, congrArg _⟩
  apply BitVec.eq_of_toNat_eq
  rw [← num_toBits, h, num_toBits]

theorem map_not_toBits (x : BitVec w) : (toBits x).map Bool.not = toBits (~~~x) := by
  apply List.ext_getElem (by simp)
  intro i hi _
  have hw : i < w := by simpa using hi
  simp [hw]

theorem take_drop_toBits {v : Nat} (x : BitVec v) {o : Nat} (h : o + w ≤ v) :
    ((toBits x).drop o).take w = toBits (x.extractLsb' o w) := by
  apply List.ext_getElem (by simp; omega)
  intro i _ hi
  have hw : i < w := by simpa using hi
  simp [hw]

theorem signExtend_toBits {v : Nat} (x : BitVec v) (h : v ≤ w) :
    (toBits x).take w ++ List.replicate (w - (toBits x).length) x.msb =
      toBits (x.signExtend w) := by
  apply List.ext_getElem (by simp; omega)
  intro i _ hi
  have hw : i < w := by simpa using hi
  simp [List.getElem_append, BitVec.getLsbD_signExtend, hw, -BitVec.getLsbD_eq_getElem]

theorem setWidth_toBits {v : Nat} (x : BitVec v) (h : v ≤ w) :
    (toBits x).take w ++ List.replicate (w - (toBits x).length) false = toBits (x.setWidth w) := by
  apply List.ext_getElem (by simp; omega)
  intro i _ hi
  have hw : i < w := by simpa using hi
  simpa [List.getElem_append, hw] using BitVec.lt_of_getLsbD

theorem toBits_one (x : BitVec 1) : toBits x = [decide (x = 1#1)] := by
  revert x
  decide

theorem zipWith_toBits {f : Bool → Bool → Bool} {g : BitVec w → BitVec w → BitVec w}
    (h : ∀ x y i, i < w → (g x y).getLsbD i = f (x.getLsbD i) (y.getLsbD i)) (x y : BitVec w) :
    (toBits x).zipWith f (toBits y) = toBits (g x y) := by
  apply List.ext_getElem (by simp)
  intro i hi _
  have hw : i < w := by simpa using hi
  simp [h x y i hw]

theorem modify_toBits (x : BitVec w) :
    (toBits x).modify (w - 1) Bool.not = toBits (x ^^^ BitVec.twoPow w (w - 1)) := by
  apply List.ext_getElem (by simp)
  intro i h _
  rw [List.getElem_modify, getElem_toBits, getElem_toBits, BitVec.getLsbD_xor,
    BitVec.getLsbD_twoPow]
  rw [List.length_modify, length_toBits] at h
  by_cases he : w - 1 = i
  · simp [he, h]
  · simp [he]

theorem num_take (bs : List Bool) (n : Nat) : num (bs.take n) = num bs % 2 ^ n := by
  apply Nat.eq_of_testBit_eq
  intro i
  rw [Nat.testBit_mod_two_pow, testBit_num, testBit_num]
  by_cases h : i < n <;> simp [h]

theorem num_replicate (n : Nat) (b : Bool) :
    num (List.replicate n b) = if b then 2 ^ n - 1 else 0 := by
  induction n with
  | zero => cases b <;> rfl
  | succ n ih =>
    have := Nat.two_pow_pos n
    rw [List.replicate_succ, num, ih, Nat.pow_succ]
    cases b with
    | false => rfl
    | true =>
      simp only [Bool.toNat_true, if_true]
      omega

theorem num_not (bs : List Bool) : num (bs.map Bool.not) + num bs + 1 = 2 ^ bs.length := by
  induction bs with
  | nil => rfl
  | cons b bs ih =>
    rw [List.map_cons, num, num, List.length_cons, Nat.pow_succ]
    cases b <;> simp <;> omega

theorem toNat_eq_add_msb {n : Nat} (x : BitVec (n + 1)) :
    x.toNat = (x.setWidth n).toNat + 2 ^ n * x.msb.toNat := by
  have h := x.isLt
  rw [Nat.pow_succ] at h
  rw [BitVec.toNat_setWidth, BitVec.msb_eq_decide, Nat.add_sub_cancel]
  by_cases hx : 2 ^ n ≤ x.toNat
  · rw [Nat.mod_eq_sub_mod hx, Nat.mod_eq_of_lt (by omega)]
    simp [hx]
  · rw [Nat.mod_eq_of_lt (by omega)]
    simp [hx]

theorem ult_flip {w : Nat} (x y : BitVec w) :
    (x ^^^ BitVec.twoPow w (w - 1)).ult (y ^^^ BitVec.twoPow w (w - 1)) = x.slt y := by
  cases w with
  | zero => simp [BitVec.of_length_zero]
  | succ n =>
    have low : ∀ z : BitVec (n + 1), (z ^^^ BitVec.twoPow (n + 1) n).setWidth n = z.setWidth n := by
      intro z
      ext i hi
      rw [BitVec.getElem_setWidth, BitVec.getElem_setWidth, BitVec.getLsbD_xor,
        BitVec.getLsbD_twoPow]
      simp [Nat.ne_of_gt hi]
    have high : ∀ z : BitVec (n + 1), (z ^^^ BitVec.twoPow (n + 1) n).msb = !z.msb := by
      intro z
      simp [BitVec.msb_twoPow]
    have hx := (x.setWidth n).isLt
    have hy := (y.setWidth n).isLt
    rw [Nat.add_sub_cancel, BitVec.ult, BitVec.slt, toNat_eq_add_msb, toNat_eq_add_msb (y ^^^ _),
      low, low, high, high, BitVec.toInt_eq_msb_cond, BitVec.toInt_eq_msb_cond,
      toNat_eq_add_msb x, toNat_eq_add_msb y, decide_eq_decide]
    rw [Nat.pow_succ]
    generalize (x.setWidth n).toNat = a at *
    generalize (y.setWidth n).toNat = b at *
    generalize 2 ^ n = m at *
    cases x.msb <;> cases y.msb <;> simp only [Bool.toNat_false, Bool.toNat_true, Bool.not_false,
      Bool.not_true, if_true, if_false, Bool.false_eq_true] <;> omega
/-- Quotient and remainder of the number read so far. By zero, the quotient is all ones. -/
structure Divided (d n : Nat) (q r : List Bool) : Prop where
  quotient : num q = if d = 0 then 2 ^ q.length - 1 else n / d
  remainder : num r = n % d
  small : n < 2 ^ q.length

theorem mod_step (d n b : Nat) (hb : b ≤ 1) : (b + 2 * n) % d =
    if b + 2 * (n % d) < d then b + 2 * (n % d) else b + 2 * (n % d) - d := by
  rcases Nat.eq_zero_or_pos d with rfl | hd
  · simp
  · have hn := Nat.mod_lt n hd
    have : b + 2 * n = b + 2 * (n % d) + d * (2 * (n / d)) := by
      have := Nat.div_add_mod n d
      nlinarith
    rw [this, Nat.add_mul_mod_self_left]
    split
    next h => exact Nat.mod_eq_of_lt h
    next h => rw [Nat.mod_eq_sub_mod (by omega), Nat.mod_eq_of_lt (by omega)]

theorem div_step (d n b : Nat) (hb : b ≤ 1) (hd : 0 < d) : (b + 2 * n) / d =
    (if b + 2 * (n % d) < d then 0 else 1) + 2 * (n / d) := by
  have hn := Nat.mod_lt n hd
  have : b + 2 * n = b + 2 * (n % d) + d * (2 * (n / d)) := by
    have := Nat.div_add_mod n d
    nlinarith
  rw [this, Nat.add_mul_div_left _ _ hd]
  congr 1
  split
  next h => exact Nat.div_eq_of_lt h
  next h => rw [Nat.div_eq_sub_div hd (by omega), Nat.div_eq_of_lt (by omega)]

theorem Divided.step {d n : Nat} {q r r' : List Bool} (h : Divided d n q r) (b : Bool)
    (hr : num r' = if b.toNat + 2 * num r < d then b.toNat + 2 * num r else
      b.toNat + 2 * num r - d) :
    Divided d (b.toNat + 2 * n) ((!decide (b.toNat + 2 * num r < d)) :: q) r' := by
  have hb : b.toNat ≤ 1 := Nat.le_of_lt_succ b.toNat_lt
  have hpos := Nat.two_pow_pos q.length
  rw [h.remainder] at hr ⊢
  refine ⟨?_, by rw [hr, mod_step _ _ _ hb], ?_⟩
  · rw [num, h.quotient, List.length_cons, Nat.pow_succ]
    split
    next hd =>
      subst hd
      simp
      omega
    next hd =>
      rw [div_step _ _ _ hb (Nat.pos_of_ne_zero hd)]
      by_cases hlt : b.toNat + 2 * (n % d) < d <;> simp [hlt]
  · have := h.small
    rw [List.length_cons, Nat.pow_succ]
    omega

end Concolic.Binary
