import Mathlib
import Concolic.Proofs.Literal

namespace Concolic

namespace Literal

variable {w v : Nat}

def Masked (c : Literal) : Prop := c.value < patterns c.width

theorem Masked.lt {c : Literal} (h : c.Masked) : c.value < 2 ^ 64 :=
  Nat.lt_of_lt_of_le h (Nat.pow_le_pow_right (by decide) (Nat.min_le_right _ _))

theorem masked_iff (h : w ≤ 64) {c : Literal} (hc : c.width = w) :
    c.Masked ↔ ∃ x : BitVec w, c = ofBits x := by
  constructor
  · intro hm
    obtain ⟨n, v⟩ := c
    subst hc
    simp only [Masked, patterns_eq h] at hm
    exact ⟨BitVec.ofNatLT n hm, rfl⟩
  · rintro ⟨x, rfl⟩
    rw [Masked, width_ofBits, patterns_eq h]
    exact x.isLt

end Literal

abbrev Word := BitVec 64

namespace Word

open Literal

variable {w v : Nat}

def mask (w : Nat) : Word := if 64 ≤ w then BitVec.allOnes 64 else (1#64 <<< w) - 1#64

def keep (w : Nat) (z : Word) : Literal := ⟨(z &&& mask w).toNat, w⟩

def spread (w : Nat) (z : Word) : Word := (z <<< (64 - w)).sshiftRight (64 - w)

def compute (op : BinaryOp) (w : Nat) (x y : Word) : Option Literal :=
  match op with
  | .add => some (keep w (x + y))
  | .sub => some (keep w (x - y))
  | .mul => some (keep w (x * y))
  | .udiv => some (keep w (if y = 0 then mask w else x / y))
  | .urem => some (keep w (if y = 0 then x else x % y))
  | .sdiv => some (keep w (if y = 0 then if (spread w x).slt 0 then 1 else mask w
      else (spread w x).sdiv (spread w y)))
  | .srem => some (keep w (if y = 0 then x else (spread w x).srem (spread w y)))
  | .and => some (keep w (x &&& y))
  | .or => some (keep w (x ||| y))
  | .xor => some (keep w (x ^^^ y))
  | .shl => some (keep w (if w ≤ y.toNat then 0 else x <<< y.toNat))
  | .lshr => some (keep w (if w ≤ y.toNat then 0 else x >>> y.toNat))
  | .ashr => some (keep w ((spread w x).sshiftRight (min y.toNat (w - 1))))
  | .eq => some (ofBool (x == y))
  | .ult => some (ofBool (x.ult y))
  | .ule => some (ofBool (x.ule y))
  | .slt => some (ofBool ((spread w x).slt (spread w y)))
  | .sle => some (ofBool ((spread w x).sle (spread w y)))
  | _ => none

theorem toNat_mask (h : w ≤ 64) : (mask w).toNat = 2 ^ w - 1 := by
  unfold mask
  split
  next h64 =>
    obtain rfl : w = 64 := by omega
    rfl
  next hlt =>
    have lt : 2 ^ w < 2 ^ 64 := Nat.pow_lt_pow_right (by decide) (by omega)
    have pos : 0 < 2 ^ w := Nat.two_pow_pos w
    rw [BitVec.toNat_sub, BitVec.toNat_shiftLeft]
    simp [Nat.shiftLeft_eq]
    omega

theorem mask_eq (h : w ≤ 64) : (mask w).setWidth w = BitVec.allOnes w := by
  apply BitVec.eq_of_toNat_eq
  rw [BitVec.toNat_setWidth, toNat_mask h, BitVec.toNat_allOnes, Nat.mod_eq_of_lt]
  exact Nat.sub_one_lt (Nat.two_pow_pos w).ne'

theorem keep_eq (h : w ≤ 64) (z : Word) : keep w z = ofBits (z.setWidth w) := by
  simp [keep, ofBits, toNat_mask h, Nat.and_two_pow_sub_one_eq_mod]

theorem spread_eq (hw : 0 < w) (h : w ≤ 64) (x : BitVec w) :
    spread w (x.setWidth 64) = x.signExtend 64 := by
  have top : (x.setWidth 64 <<< (64 - w)).msb = x.msb := by
    rw [BitVec.msb_eq_getLsbD_last, BitVec.msb_eq_getLsbD_last, BitVec.getLsbD_shiftLeft,
      BitVec.getLsbD_setWidth]
    grind
  apply BitVec.eq_of_getLsbD_eq
  intro i hi
  rw [spread, BitVec.getLsbD_sshiftRight, BitVec.getLsbD_signExtend, BitVec.getLsbD_shiftLeft,
    BitVec.getLsbD_setWidth, top]
  grind

theorem setWidth_setWidth_self (h : w ≤ 64) (x : BitVec w) : (x.setWidth 64).setWidth w = x := by
  rw [BitVec.setWidth_setWidth_of_le x h, BitVec.setWidth_eq]

theorem toInt_spread (hw : 0 < w) (h : w ≤ 64) (x : BitVec w) :
    (spread w (x.setWidth 64)).toInt = x.toInt := by
  rw [spread_eq hw h, BitVec.toInt_signExtend_of_le h]

theorem toInt_bmod (h : w ≤ 64) (z : Word) : z.toInt.bmod (2 ^ w) = (z.setWidth w).toInt := by
  rw [BitVec.toInt_eq_toNat_bmod, Int.bmod_bmod_of_dvd (Nat.pow_dvd_pow 2 h), BitVec.toInt_setWidth]

theorem setWidth_eq_zero_iff (h : w ≤ 64) {y : BitVec w} : y.setWidth 64 = 0 ↔ y = 0#w := by
  constructor
  · intro hy
    rw [← setWidth_setWidth_self h y, hy]
    simp
  · rintro rfl
    simp

variable (hw : 0 < w) (h : w ≤ 64) (x y : BitVec w)
include h

theorem udiv_setWidth :
    (if y.setWidth 64 = 0 then mask w else x.setWidth 64 / y.setWidth 64 : Word).setWidth w =
      x.smtUDiv y := by
  rw [BitVec.smtUDiv_eq]
  simp only [setWidth_eq_zero_iff h]
  split
  · exact mask_eq h
  · apply BitVec.eq_of_toNat_eq
    rw [BitVec.toNat_setWidth, BitVec.toNat_udiv, BitVec.toNat_udiv, BitVec.toNat_setWidth_of_le h,
      BitVec.toNat_setWidth_of_le h, Nat.mod_eq_of_lt (Nat.lt_of_le_of_lt (Nat.div_le_self ..) x.isLt)]

theorem urem_setWidth :
    (if y.setWidth 64 = 0 then x.setWidth 64 else x.setWidth 64 % y.setWidth 64 : Word).setWidth w =
      x % y := by
  split
  next hy =>
    rw [setWidth_eq_zero_iff h] at hy
    simp [hy, setWidth_setWidth_self h]
  next =>
    apply BitVec.eq_of_toNat_eq
    rw [BitVec.toNat_setWidth, BitVec.toNat_umod, BitVec.toNat_umod, BitVec.toNat_setWidth_of_le h,
      BitVec.toNat_setWidth_of_le h, Nat.mod_eq_of_lt (Nat.lt_of_le_of_lt (Nat.mod_le ..) x.isLt)]

include hw

theorem slt_spread : (spread w (x.setWidth 64)).slt (spread w (y.setWidth 64)) = x.slt y := by
  rw [BitVec.slt, BitVec.slt, toInt_spread hw h, toInt_spread hw h]

theorem sle_spread : (spread w (x.setWidth 64)).sle (spread w (y.setWidth 64)) = x.sle y := by
  rw [BitVec.sle, BitVec.sle, toInt_spread hw h, toInt_spread hw h]

theorem sdiv_spread :
    (if y.setWidth 64 = 0 then if (spread w (x.setWidth 64)).slt 0 then 1 else mask w
      else (spread w (x.setWidth 64)).sdiv (spread w (y.setWidth 64)) : Word).setWidth w =
      x.smtSDiv y := by
  split
  next hy =>
    rw [setWidth_eq_zero_iff h] at hy
    subst hy
    have neg : (spread w (x.setWidth 64)).slt 0 = x.slt 0 := by
      rw [BitVec.slt, BitVec.slt, toInt_spread hw h]
      simp
    rw [neg, BitVec.smtSDiv_zero]
    change _ = if x.slt 0 then 1#w else BitVec.allOnes w
    split
    · apply BitVec.eq_of_toNat_eq
      simp
    · exact mask_eq h
  next hy =>
    rw [setWidth_eq_zero_iff h] at hy
    apply BitVec.toInt_inj.mp
    rw [← toInt_bmod h, smtSDiv_eq_sdiv hy, BitVec.toInt_sdiv, BitVec.toInt_sdiv, toInt_spread hw h,
      toInt_spread hw h, Int.bmod_bmod_of_dvd (Nat.pow_dvd_pow 2 h)]

theorem srem_spread :
    (if y.setWidth 64 = 0 then x.setWidth 64
      else (spread w (x.setWidth 64)).srem (spread w (y.setWidth 64)) : Word).setWidth w =
      x.srem y := by
  split
  next hy =>
    rw [setWidth_eq_zero_iff h] at hy
    subst hy
    rw [setWidth_setWidth_self h, BitVec.srem_zero]
  next hy =>
    apply BitVec.toInt_inj.mp
    rw [← toInt_bmod h, BitVec.toInt_srem, toInt_spread hw h, toInt_spread hw h, ← BitVec.toInt_srem,
      BitVec.toInt_bmod_cancel]

theorem sshiftRight_spread (n : Nat) :
    ((spread w (x.setWidth 64)).sshiftRight (min n (w - 1))).setWidth w = x.sshiftRight n := by
  rw [← sshiftRight_min hw x n]
  apply BitVec.toInt_inj.mp
  rw [← toInt_bmod h, BitVec.toInt_sshiftRight, toInt_spread hw h, ← BitVec.toInt_sshiftRight,
    BitVec.toInt_bmod_cancel]

omit hw in
theorem shiftLeft_setWidth (n : Nat) :
    (if w ≤ n then 0 else x.setWidth 64 <<< n : Word).setWidth w = x <<< n := by
  split
  next hn => simp [BitVec.shiftLeft_eq_zero hn]
  next => rw [BitVec.setWidth_shiftLeft_of_le h, setWidth_setWidth_self h]

omit hw in
theorem ushiftRight_setWidth (n : Nat) :
    (if w ≤ n then 0 else x.setWidth 64 >>> n : Word).setWidth w = x >>> n := by
  split
  next hn => simp [BitVec.ushiftRight_eq_zero hn]
  next =>
    apply BitVec.eq_of_toNat_eq
    rw [BitVec.toNat_setWidth, BitVec.toNat_ushiftRight, BitVec.toNat_ushiftRight,
      BitVec.toNat_setWidth_of_le h,
      Nat.mod_eq_of_lt (Nat.lt_of_le_of_lt (Nat.shiftRight_le ..) x.isLt)]

end Word

namespace Literal

variable {w v : Nat}

def word (c : Literal) : Word := BitVec.ofNat 64 c.value

theorem word_ofBits (x : BitVec w) : (ofBits x).word = x.setWidth 64 := BitVec.ofNat_toNat 64 x

theorem Masked.toNat_word {c : Literal} (h : c.Masked) : c.word.toNat = c.value := by
  rw [word, BitVec.toNat_ofNat, Nat.mod_eq_of_lt h.lt]

@[simp] theorem sameWidth_ofBits (op : BinaryOp) (x y : BitVec w) :
    sameWidth op (ofBits x) (ofBits y) = .ok () := if_pos rfl

structure FoldsAsBits (w : Nat) : Prop where
  add (x y : BitVec w) : apply .add (ofBits x) (ofBits y) = .ok (ofBits (x + y))
  sub (x y : BitVec w) : apply .sub (ofBits x) (ofBits y) = .ok (ofBits (x - y))
  mul (x y : BitVec w) : apply .mul (ofBits x) (ofBits y) = .ok (ofBits (x * y))
  udiv (x y : BitVec w) : apply .udiv (ofBits x) (ofBits y) = .ok (ofBits (x.smtUDiv y))
  urem (x y : BitVec w) : apply .urem (ofBits x) (ofBits y) = .ok (ofBits (x % y))
  sdiv (x y : BitVec w) : apply .sdiv (ofBits x) (ofBits y) = .ok (ofBits (x.smtSDiv y))
  srem (x y : BitVec w) : apply .srem (ofBits x) (ofBits y) = .ok (ofBits (x.srem y))
  and (x y : BitVec w) : apply .and (ofBits x) (ofBits y) = .ok (ofBits (x &&& y))
  or (x y : BitVec w) : apply .or (ofBits x) (ofBits y) = .ok (ofBits (x ||| y))
  xor (x y : BitVec w) : apply .xor (ofBits x) (ofBits y) = .ok (ofBits (x ^^^ y))
  not (x : BitVec w) : (ofBits x).not = ofBits (~~~x)
  shl (x : BitVec w) (s : Literal) : apply .shl (ofBits x) s = .ok (ofBits (x <<< s.value))
  lshr (x : BitVec w) (s : Literal) : apply .lshr (ofBits x) s = .ok (ofBits (x >>> s.value))
  ashr (x : BitVec w) (s : Literal) :
    apply .ashr (ofBits x) s = .ok (ofBits (x.sshiftRight s.value))
  eq (x y : BitVec w) :
    apply .eq (ofBits x) (ofBits y) = .ok (ofBits (BitVec.ofBool (x == y)))
  ult (x y : BitVec w) :
    apply .ult (ofBits x) (ofBits y) = .ok (ofBits (BitVec.ofBool (x.ult y)))
  ule (x y : BitVec w) :
    apply .ule (ofBits x) (ofBits y) = .ok (ofBits (BitVec.ofBool (x.ule y)))
  slt (x y : BitVec w) :
    apply .slt (ofBits x) (ofBits y) = .ok (ofBits (BitVec.ofBool (x.slt y)))
  sle (x y : BitVec w) :
    apply .sle (ofBits x) (ofBits y) = .ok (ofBits (BitVec.ofBool (x.sle y)))
  zext {v : Nat} (x : BitVec w) : w ≤ v → v ≤ 64 → (ofBits x).zext v = ofBits (x.setWidth v)
  sext {v : Nat} (x : BitVec w) : w ≤ v → v ≤ 64 → (ofBits x).sext v = ofBits (x.signExtend v)
  extract {off n : Nat} (x : BitVec w) :
    off + n ≤ w → (ofBits x).extract off n = ofBits (x.extractLsb' off n)

theorem foldsAsBits (hw : 0 < w) (h : w ≤ 64) : FoldsAsBits w where
  add x y := by rw [apply, sameWidth_ofBits, ← add_ofBits h]; rfl
  sub x y := by rw [apply, sameWidth_ofBits, ← sub_ofBits h]; rfl
  mul x y := by rw [apply, sameWidth_ofBits, ← mul_ofBits h]; rfl
  udiv x y := by rw [apply, sameWidth_ofBits, ← udiv_ofBits h]; rfl
  urem x y := by rw [apply, sameWidth_ofBits, ← urem_ofBits h]; rfl
  sdiv x y := by rw [apply, sameWidth_ofBits, ← sdiv_ofBits hw h]; rfl
  srem x y := by rw [apply, sameWidth_ofBits, ← srem_ofBits hw h]; rfl
  and x y := by rw [apply, sameWidth_ofBits, ← and_ofBits h]; rfl
  or x y := by rw [apply, sameWidth_ofBits, ← or_ofBits h]; rfl
  xor x y := by rw [apply, sameWidth_ofBits, ← xor_ofBits h]; rfl
  not x := not_ofBits h x
  shl x s := congrArg Except.ok (shl_amount h x s)
  lshr x s := congrArg Except.ok (lshr_amount h x s)
  ashr x s := congrArg Except.ok (ashr_amount hw h x s)
  eq x y := by rw [apply, sameWidth_ofBits, ← eq_ofBits]; rfl
  ult x y := by rw [apply, ← ult_ofBits]; rfl
  ule x y := by rw [apply, ← ule_ofBits]; rfl
  slt x y := by rw [apply, ← slt_ofBits hw h]; rfl
  sle x y := by rw [apply, ← sle_ofBits hw h]; rfl
  zext x _ hv := zext_ofBits hv x
  sext x _ hv := sext_ofBits hw h hv x
  extract x hn := extract_ofBits h (by omega) x _

/-- Divisors of zero, the one quotient that overflows, the sign of a remainder, and shifts by the
width or more. -/
structure FoldsAtEdges (w : Nat) : Prop where
  udiv_zero (x : BitVec w) : apply .udiv (ofBits x) (ofBits 0#w) = .ok (ofBits (BitVec.allOnes w))
  urem_zero (x : BitVec w) : apply .urem (ofBits x) (ofBits 0#w) = .ok (ofBits x)
  sdiv_zero (x : BitVec w) :
    apply .sdiv (ofBits x) (ofBits 0#w) = .ok (ofBits (if x.toInt < 0 then 1#w else -1#w))
  sdiv_intMin : apply .sdiv (ofBits (BitVec.intMin w)) (ofBits (-1#w)) = .ok (ofBits (BitVec.intMin w))
  sdiv_truncates (x y : BitVec w) : y ≠ 0#w → (x ≠ BitVec.intMin w ∨ y ≠ -1#w) →
    ∃ q : BitVec w, apply .sdiv (ofBits x) (ofBits y) = .ok (ofBits q) ∧ q.toInt = x.toInt.tdiv y.toInt
  srem_zero (x : BitVec w) : apply .srem (ofBits x) (ofBits 0#w) = .ok (ofBits x)
  srem_signed (x y : BitVec w) :
    ∃ r : BitVec w, apply .srem (ofBits x) (ofBits y) = .ok (ofBits r) ∧ r.toInt = x.toInt.tmod y.toInt
  shl_saturates (x : BitVec w) (s : Literal) : w ≤ s.value → apply .shl (ofBits x) s = .ok (ofBits 0#w)
  lshr_saturates (x : BitVec w) (s : Literal) :
    w ≤ s.value → apply .lshr (ofBits x) s = .ok (ofBits 0#w)
  ashr_saturates (x : BitVec w) (s : Literal) : w ≤ s.value →
    apply .ashr (ofBits x) s = .ok (ofBits (if x.toInt < 0 then BitVec.allOnes w else 0#w))

theorem FoldsAsBits.atEdges (f : FoldsAsBits w) (hw : 0 < w) : FoldsAtEdges w where
  udiv_zero x := by rw [f.udiv, BitVec.smtUDiv_zero]
  urem_zero x := by rw [f.urem, BitVec.umod_zero]
  sdiv_zero x := by
    rw [f.sdiv, BitVec.smtSDiv_zero, BitVec.slt, BitVec.neg_one_eq_allOnes]
    simp
  sdiv_intMin := by
    have ne : -1#w ≠ 0#w := by simpa using hw.ne'
    rw [f.sdiv, smtSDiv_eq_sdiv ne, BitVec.intMin_sdiv_neg_one]
  sdiv_truncates x y hy hne := by
    refine ⟨_, f.sdiv x y, ?_⟩
    rw [smtSDiv_eq_sdiv hy, BitVec.toInt_sdiv_of_ne_or_ne _ _ hne]
  srem_zero x := by rw [f.srem, BitVec.srem_zero]
  srem_signed x y := ⟨_, f.srem x y, BitVec.toInt_srem x y⟩
  shl_saturates x s hs := by rw [f.shl, BitVec.shiftLeft_eq_zero hs]
  lshr_saturates x s hs := by rw [f.lshr, BitVec.ushiftRight_eq_zero hs]
  ashr_saturates x s hs := by
    rw [f.ashr]
    congr 2
    ext i hi
    rw [BitVec.getElem_sshiftRight, dif_neg (by omega), BitVec.msb_eq_toInt]
    split <;> simp_all

structure FoldsInWords (w : Nat) : Prop where
  binary (op : BinaryOp) (a b : Literal) : a.width = w → a.Masked → b.Masked →
    (b.width = w ∨ op.isShift = true) →
    apply op a b = (Word.compute op w a.word b.word).elim (.error .unreachable) .ok
  not (a : Literal) : a.width = w → a.Masked → a.not = Word.keep w (~~~a.word)
  zext {v : Nat} (a : Literal) : a.width = w → a.Masked → w ≤ v → v ≤ 64 →
    a.zext v = Word.keep v a.word
  sext {v : Nat} (a : Literal) : a.width = w → a.Masked → w ≤ v → v ≤ 64 →
    a.sext v = Word.keep v (Word.spread w a.word)
  extract {off n : Nat} (a : Literal) : a.width = w → a.Masked → off + n ≤ w →
    a.extract off n = Word.keep n (a.word >>> off)

open Word

theorem FoldsAsBits.inWords_shift (f : FoldsAsBits w) (hw : 0 < w) (h : w ≤ 64) {op : BinaryOp}
    (hop : op.isShift = true) (x : BitVec w) {s : Literal} (hs : s.Masked) :
    apply op (ofBits x) s = (compute op w (ofBits x).word s.word).elim (.error .unreachable) .ok := by
  rw [word_ofBits]
  cases op <;> simp [BinaryOp.isShift] at hop
  case shl => rw [f.shl, compute, hs.toNat_word, keep_eq h, shiftLeft_setWidth h]; rfl
  case lshr => rw [f.lshr, compute, hs.toNat_word, keep_eq h, ushiftRight_setWidth h]; rfl
  case ashr => rw [f.ashr, compute, hs.toNat_word, keep_eq h, sshiftRight_spread hw h]; rfl

theorem FoldsAsBits.inWords_binary (f : FoldsAsBits w) (hw : 0 < w) (h : w ≤ 64) {op : BinaryOp}
    (hop : op.isShift = false) (x y : BitVec w) :
    apply op (ofBits x) (ofBits y) =
      (compute op w (ofBits x).word (ofBits y).word).elim (.error .unreachable) .ok := by
  have back := setWidth_setWidth_self h
  have num (z : BitVec w) : (z.setWidth 64).toNat = z.toNat := BitVec.toNat_setWidth_of_le h
  rw [word_ofBits, word_ofBits]
  cases op <;> simp [BinaryOp.isShift] at hop
  case add => rw [f.add, compute, keep_eq h, BitVec.setWidth_add _ _ h, back, back]; rfl
  case sub =>
    rw [f.sub, compute, keep_eq h, BitVec.sub_eq_add_neg (x.setWidth 64), BitVec.setWidth_add _ _ h,
      BitVec.setWidth_neg_of_le h, back, back, ← BitVec.sub_eq_add_neg]; rfl
  case mul => rw [f.mul, compute, keep_eq h, BitVec.setWidth_mul _ _ h, back, back]; rfl
  case udiv => rw [f.udiv, compute, keep_eq h, udiv_setWidth h]; rfl
  case urem => rw [f.urem, compute, keep_eq h, urem_setWidth h]; rfl
  case sdiv => rw [f.sdiv, compute, keep_eq h, sdiv_spread hw h]; rfl
  case srem => rw [f.srem, compute, keep_eq h, srem_spread hw h]; rfl
  case and => rw [f.and, compute, keep_eq h, BitVec.setWidth_and, back, back]; rfl
  case or => rw [f.or, compute, keep_eq h, BitVec.setWidth_or, back, back]; rfl
  case xor => rw [f.xor, compute, keep_eq h, BitVec.setWidth_xor, back, back]; rfl
  case eq =>
    have inj : (x.setWidth 64 == y.setWidth 64) = (x == y) := by
      rw [Bool.eq_iff_iff, beq_iff_eq, beq_iff_eq]
      exact ⟨fun e => by rw [← back x, e, back], congrArg _⟩
    rw [f.eq, compute, ofBool_eq, inj]; rfl
  case ult => rw [f.ult, compute, ofBool_eq, BitVec.ult, BitVec.ult, num, num]; rfl
  case ule => rw [f.ule, compute, ofBool_eq, BitVec.ule, BitVec.ule, num, num]; rfl
  case slt => rw [f.slt, compute, ofBool_eq, slt_spread hw h]; rfl
  case sle => rw [f.sle, compute, ofBool_eq, sle_spread hw h]; rfl
  all_goals
    simp only [apply, sameWidth_ofBits]
    rfl

theorem FoldsAsBits.inWords (f : FoldsAsBits w) (hw : 0 < w) (h : w ≤ 64) : FoldsInWords w where
  binary op a b ha ma mb hb := by
    obtain ⟨x, rfl⟩ := (masked_iff h ha).mp ma
    cases hop : op.isShift with
    | true => exact f.inWords_shift hw h hop x mb
    | false =>
      obtain ⟨y, rfl⟩ := (masked_iff h (hb.resolve_right (by simp [hop]))).mp mb
      exact f.inWords_binary hw h hop x y
  not a ha ma := by
    obtain ⟨x, rfl⟩ := (masked_iff h ha).mp ma
    rw [f.not, keep_eq h, word_ofBits, BitVec.setWidth_not h, setWidth_setWidth_self h]
  zext a ha ma hv hv' := by
    obtain ⟨x, rfl⟩ := (masked_iff h ha).mp ma
    rw [f.zext x hv hv', keep_eq hv', word_ofBits, BitVec.setWidth_setWidth_of_le x hv']
  sext a ha ma hv hv' := by
    obtain ⟨x, rfl⟩ := (masked_iff h ha).mp ma
    rw [f.sext x hv hv', keep_eq hv', word_ofBits, spread_eq hw h]
    congr 1
    apply BitVec.eq_of_getLsbD_eq
    intro i hi
    rw [BitVec.getLsbD_setWidth, BitVec.getLsbD_signExtend, BitVec.getLsbD_signExtend]
    grind
  extract a ha ma hn := by
    obtain ⟨x, rfl⟩ := (masked_iff h ha).mp ma
    rw [f.extract x hn, keep_eq (by omega), word_ofBits]
    congr 1
    apply BitVec.eq_of_getLsbD_eq
    intro i hi
    rw [BitVec.getLsbD_extractLsb', BitVec.getLsbD_setWidth, BitVec.getLsbD_ushiftRight,
      BitVec.getLsbD_setWidth]
    grind

/-- Literals of every width up to a machine word's fold as bit vectors, and words compute it. What
comes out is the literal of a bit vector again, so it is masked. -/
theorem folds_as_smtlib (hw : 0 < w) (h : w ≤ 64) :
    (∀ (v : Nat) (c : Literal), v ≤ 64 → c.width = v → (c.Masked ↔ ∃ x : BitVec v, c = ofBits x)) ∧
    FoldsAsBits w ∧ FoldsAtEdges w ∧ FoldsInWords w :=
  have f := foldsAsBits hw h
  ⟨fun _ _ hv hc => masked_iff hv hc, f, f.atEdges hw, f.inWords hw h⟩

theorem folds_as_smtlib_five_bits :
    (0 < 5 ∧ 5 ≤ 64) ∧ apply .sdiv ⟨16, 5⟩ ⟨31, 5⟩ = .ok ⟨16, 5⟩ ∧
      apply .ashr ⟨16, 5⟩ ⟨300, 9⟩ = .ok ⟨31, 5⟩ :=
  have f := folds_as_smtlib (w := 5) (by decide) (by decide)
  ⟨by decide, f.2.2.1.sdiv_intMin, f.2.2.1.ashr_saturates 16#5 ⟨300, 9⟩ (by decide)⟩

end Literal

end Concolic
