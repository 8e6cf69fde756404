import Mathlib
import Concolic.Term.Literal

namespace Concolic

theorem twoPow_eq (n : Nat) : twoPow n = 2 ^ n := rfl

theorem patterns_eq {w : Nat} (h : w ≤ 64) : patterns w = 2 ^ w := patterns_of_le h

namespace Literal

def ofBits {w : Nat} (x : BitVec w) : Literal := ⟨x.toNat, w⟩

variable {w v : Nat}

@[simp] theorem value_ofBits (x : BitVec w) : (ofBits x).value = x.toNat := rfl

@[simp] theorem width_ofBits (x : BitVec w) : (ofBits x).width = w := rfl

theorem ofBits_injective {x y : BitVec w} (h : ofBits x = ofBits y) : x = y :=
  BitVec.eq_of_toNat_eq (congrArg value h)

theorem ofNat_eq (h : w ≤ 64) (n : Nat) : ofNat n w = ofBits (BitVec.ofNat w n) := by
  simp [ofNat, ofBits, wrap, patterns_eq h]

theorem ofInt_eq (h : w ≤ 64) (z : Int) : ofInt z w = ofBits (BitVec.ofInt w z) := by
  simp [ofInt, ofBits, wrapInt, patterns_eq h]

theorem ofBool_eq (b : Bool) : ofBool b = ofBits (BitVec.ofBool b) := by
  cases b <;> rfl

theorem toInt_ofBits (hw : 0 < w) (h : w ≤ 64) (x : BitVec w) : (ofBits x).toInt = x.toInt := by
  have hp : 2 ^ w = 2 * 2 ^ (w - 1) := by
    rw [← Nat.pow_succ']; congr; omega
  have hx := x.isLt
  simp only [toInt, ofBits, signed, twoPow_eq, Nat.mod_eq_of_lt hx, BitVec.toInt_eq_toNat_cond]
  rw [if_neg (by omega)]
  split <;> rename_i hlt
  · rw [if_pos (by omega)]
  · rw [if_neg (by omega)]

theorem add_ofBits (h : w ≤ 64) (x y : BitVec w) : (ofBits x).add (ofBits y) = ofBits (x + y) := by
  rw [add, width_ofBits, ofNat_eq h, BitVec.ofNat_add]
  simp

theorem sub_ofBits (h : w ≤ 64) (x y : BitVec w) : (ofBits x).sub (ofBits y) = ofBits (x - y) := by
  rw [sub, width_ofBits, ofInt_eq h, Int.sub_eq_add_neg, BitVec.ofInt_add, BitVec.ofInt_neg]
  simp [BitVec.sub_eq_add_neg]

theorem mul_ofBits (h : w ≤ 64) (x y : BitVec w) : (ofBits x).mul (ofBits y) = ofBits (x * y) := by
  rw [mul, width_ofBits, ofNat_eq h, BitVec.ofNat_mul]
  simp

theorem allOnes_eq (h : w ≤ 64) :
    ofNat (patterns w - 1) w = ofBits (BitVec.allOnes w) := by
  rw [ofNat_eq h, patterns_eq h, ← BitVec.toNat_allOnes, BitVec.ofNat_toNat, BitVec.setWidth_eq]

theorem isAllOnes_ofBits (h : w ≤ 64) (x : BitVec w) :
    (ofBits x).isAllOnes = (x == BitVec.allOnes w) := by
  rw [isAllOnes, Bool.eq_iff_iff, beq_iff_eq, beq_iff_eq, value_ofBits, width_ofBits, patterns_eq h,
    ← BitVec.toNat_allOnes, BitVec.toNat_inj]

theorem toNat_eq_zero_iff (x : BitVec w) : x.toNat = 0 ↔ x = 0#w := by
  rw [BitVec.toNat_eq]
  simp

theorem udiv_ofBits (h : w ≤ 64) (x y : BitVec w) :
    (ofBits x).udiv (ofBits y) = ofBits (x.smtUDiv y) := by
  by_cases hy : y = 0#w
  · subst hy
    simp [udiv, allOnes_eq h]
  · have hn : (ofBits y).value ≠ 0 := fun e => hy ((toNat_eq_zero_iff y).mp e)
    rw [udiv, if_neg hn, width_ofBits, ofNat_eq h, BitVec.smtUDiv_eq, if_neg hy]
    congr 1
    apply BitVec.eq_of_toNat_eq
    simp [Nat.mod_eq_of_lt (Nat.lt_of_le_of_lt (Nat.div_le_self _ _) x.isLt)]

theorem urem_ofBits (h : w ≤ 64) (x y : BitVec w) :
    (ofBits x).urem (ofBits y) = ofBits (x % y) := by
  by_cases hy : y = 0#w
  · subst hy
    simp [urem]
  · have hn : (ofBits y).value ≠ 0 := fun e => hy ((toNat_eq_zero_iff y).mp e)
    rw [urem, if_neg hn, width_ofBits, ofNat_eq h]
    congr 1
    apply BitVec.eq_of_toNat_eq
    simp [Nat.mod_eq_of_lt (Nat.lt_of_le_of_lt (Nat.mod_le _ _) x.isLt)]

theorem smtSDiv_eq_sdiv {x y : BitVec w} (hy : y ≠ 0#w) : x.smtSDiv y = x.sdiv y := by
  have hn : -y ≠ 0#w := by simpa using hy
  rw [BitVec.smtSDiv_eq, BitVec.sdiv_eq]
  cases x.msb <;> cases y.msb <;> simp [BitVec.smtUDiv_eq, hy]

theorem sdiv_ofBits (hw : 0 < w) (h : w ≤ 64) (x y : BitVec w) :
    (ofBits x).sdiv (ofBits y) = .ok (ofBits (x.smtSDiv y)) := by
  by_cases hy : y = 0#w
  · subst hy
    rw [sdiv, if_pos (by simp), BitVec.smtSDiv_zero, toInt_ofBits hw h, width_ofBits, allOnes_eq h,
      ofNat_eq h, BitVec.slt]
    simp only [BitVec.toInt_zero, decide_eq_true_eq]
    split <;> rfl
  · have hn : (ofBits y).value ≠ 0 := fun e => hy ((toNat_eq_zero_iff y).mp e)
    have hz : (ofBits y).toInt ≠ 0 := by
      rw [toInt_ofBits hw h]
      exact fun e => hy (BitVec.toInt_inj.mp (by simpa using e))
    rw [sdiv, if_neg hn, if_neg hz, toInt_ofBits hw h, toInt_ofBits hw h, width_ofBits, ofInt_eq h,
      smtSDiv_eq_sdiv hy]
    congr 2
    apply BitVec.toInt_inj.mp
    rw [BitVec.toInt_ofInt, BitVec.toInt_sdiv]

theorem srem_ofBits (hw : 0 < w) (h : w ≤ 64) (x y : BitVec w) :
    (ofBits x).srem (ofBits y) = .ok (ofBits (x.srem y)) := by
  by_cases hy : y = 0#w
  · subst hy
    simp [srem]
  · have hn : (ofBits y).value ≠ 0 := fun e => hy ((toNat_eq_zero_iff y).mp e)
    have hz : (ofBits y).toInt ≠ 0 := by
      rw [toInt_ofBits hw h]
      exact fun e => hy (BitVec.toInt_inj.mp (by simpa using e))
    rw [srem, if_neg hn, if_neg hz, toInt_ofBits hw h, toInt_ofBits hw h, width_ofBits, ofInt_eq h,
      ← BitVec.toInt_srem, BitVec.ofInt_toInt]

theorem and_ofBits (h : w ≤ 64) (x y : BitVec w) :
    (ofBits x).and (ofBits y) = ofBits (x &&& y) := by
  simp [and, ofNat_eq h]

theorem or_ofBits (h : w ≤ 64) (x y : BitVec w) : (ofBits x).or (ofBits y) = ofBits (x ||| y) := by
  simp [or, ofNat_eq h]

theorem xor_ofBits (h : w ≤ 64) (x y : BitVec w) :
    (ofBits x).xor (ofBits y) = ofBits (x ^^^ y) := by
  simp [xor, ofNat_eq h]

theorem not_ofBits (h : w ≤ 64) (x : BitVec w) : (ofBits x).not = ofBits (~~~x) := by
  rw [not, width_ofBits, ofInt_eq h, Int.sub_eq_add_neg, BitVec.ofInt_add, BitVec.ofInt_neg,
    BitVec.ofInt_neg, BitVec.not_eq_neg_add, BitVec.sub_eq_add_neg, BitVec.add_comm]
  simp

/-- Of a shift amount only the number counts, whatever its width. -/
theorem shl_amount (h : w ≤ 64) (x : BitVec w) (s : Literal) :
    (ofBits x).shl s = ofBits (x <<< s.value) := by
  simp only [shl, width_ofBits, value_ofBits, Nat.min_eq_left h, ofNat_eq h]
  split <;> rename_i hs
  · rw [BitVec.shiftLeft_eq_zero hs]
  · rfl

theorem shl_ofBits (h : w ≤ 64) (x : BitVec w) (y : BitVec v) :
    (ofBits x).shl (ofBits y) = ofBits (x <<< y.toNat) := shl_amount h x (ofBits y)

theorem lshr_amount (h : w ≤ 64) (x : BitVec w) (s : Literal) :
    (ofBits x).lshr s = ofBits (x >>> s.value) := by
  simp only [lshr, width_ofBits, value_ofBits, ofNat_eq h]
  split <;> rename_i hs
  · rw [BitVec.ushiftRight_eq_zero hs]
  · congr 1
    apply BitVec.eq_of_toNat_eq
    rw [shiftDown, if_neg (by omega)]
    simp [Nat.mod_eq_of_lt (Nat.lt_of_le_of_lt (Nat.shiftRight_le _ _) x.isLt)]

theorem lshr_ofBits (h : w ≤ 64) (x : BitVec w) (y : BitVec v) :
    (ofBits x).lshr (ofBits y) = ofBits (x >>> y.toNat) := lshr_amount h x (ofBits y)

theorem sshiftRight_min (hw : 0 < w) (x : BitVec w) (n : Nat) :
    x.sshiftRight (min n (w - 1)) = x.sshiftRight n := by
  ext i hi
  simp only [BitVec.getElem_sshiftRight]
  rcases Nat.lt_or_ge n w with hn | hn
  · rw [Nat.min_eq_left (by omega)]
  · rw [Nat.min_eq_right (by omega), dif_neg (show ¬ n + i < w by omega), BitVec.msb_eq_getLsbD_last]
    split
    · obtain rfl : i = 0 := by omega
      simp [BitVec.getLsbD_eq_getElem, hw]
    · rfl

theorem ashr_amount (hw : 0 < w) (h : w ≤ 64) (x : BitVec w) (s : Literal) :
    (ofBits x).ashr s = ofBits (x.sshiftRight s.value) := by
  simp only [ashr, width_ofBits, Nat.min_eq_left h, ofInt_eq h, toInt_ofBits hw h]
  rw [← sshiftRight_min hw x s.value]
  rfl

theorem ashr_ofBits (hw : 0 < w) (h : w ≤ 64) (x : BitVec w) (y : BitVec v) :
    (ofBits x).ashr (ofBits y) = ofBits (x.sshiftRight y.toNat) := ashr_amount hw h x (ofBits y)

theorem eq_ofBits (x y : BitVec w) : (ofBits x).eq (ofBits y) = ofBits (BitVec.ofBool (x == y)) := by
  rw [eq, ofBool_eq]
  congr 2
  rw [Bool.eq_iff_iff, beq_iff_eq, beq_iff_eq]
  exact BitVec.toNat_inj

theorem ult_ofBits (x y : BitVec w) : (ofBits x).ult (ofBits y) = ofBits (BitVec.ofBool (x.ult y)) := by
  rw [ult, ofBool_eq]
  rfl

theorem ule_ofBits (x y : BitVec w) : (ofBits x).ule (ofBits y) = ofBits (BitVec.ofBool (x.ule y)) := by
  rw [ule, ofBool_eq]
  rfl

theorem slt_ofBits (hw : 0 < w) (h : w ≤ 64) (x y : BitVec w) :
    (ofBits x).slt (ofBits y) = ofBits (BitVec.ofBool (x.slt y)) := by
  rw [slt, ofBool_eq, toInt_ofBits hw h, toInt_ofBits hw h]
  rfl

theorem sle_ofBits (hw : 0 < w) (h : w ≤ 64) (x y : BitVec w) :
    (ofBits x).sle (ofBits y) = ofBits (BitVec.ofBool (x.sle y)) := by
  rw [sle, ofBool_eq, toInt_ofBits hw h, toInt_ofBits hw h]
  rfl

theorem zext_ofBits (h : v ≤ 64) (x : BitVec w) :
    (ofBits x).zext v = ofBits (x.setWidth v) := by
  simp only [zext, width_ofBits, value_ofBits, ofNat_eq h]
  split
  · subst v; simp
  · rw [BitVec.ofNat_toNat]

theorem sext_ofBits (hw : 0 < w) (hw' : w ≤ 64) (h : v ≤ 64) (x : BitVec w) :
    (ofBits x).sext v = ofBits (x.signExtend v) := by
  simp only [sext, width_ofBits, ofInt_eq h, toInt_ofBits hw hw']
  split
  · subst v; simp
  · rfl

theorem extract_ofBits (hw : w ≤ 64) (h : v ≤ 64) (x : BitVec w) (offset : Nat) :
    (ofBits x).extract offset v = ofBits (x.extractLsb' offset v) := by
  rw [extract, ofNat_eq h, BitVec.extractLsb', shiftDown, value_ofBits]
  split <;> rename_i ho
  · rw [Nat.shiftRight_eq_div_pow, Nat.div_eq_of_lt]
    exact Nat.lt_of_lt_of_le x.isLt (Nat.pow_le_pow_right (by decide) (by omega))
  · rfl

end Literal

end Concolic
