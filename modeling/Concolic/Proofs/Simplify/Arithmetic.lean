import Mathlib
import Concolic.Proofs.Simplify.Basic
import Concolic.Proofs.Simplify.Placement

namespace Concolic.Term

open Literal

variable {w v : Nat} {t l r : Term} {op : BinaryOp} {e : Except Defect Term}

theorem mkXor_yields (hl : l.Typed w) (hr : r.Typed w) :
    Yields w (.ok (mkXor l r)) (binary .xor l r) := by
  apply yields_of_comm (f := fun l r => .ok (mkXor l r)) rfl rfl BitVec.xor_comm _ _ _ hl hr
  · intro x t ht
    apply Implements.yields
    rcases ht.const_or with ⟨y, rfl⟩ | hc
    · rw [mkXor_const ht.le]
      exact .const ht.pos ht.le (by simp)
    · rw [mkXor_literal _ hc]
      split <;> rename_i h0
      · obtain rfl := (toNat_eq_zero_iff x).mp h0
        exact ⟨ht, by simp [occurrences], by simp⟩
      · exact .refl (.arith rfl rfl (typed_const ht.pos ht.le x) ht)
  · exact fun x t hc => congrArg _ (mkXor_swap _ hc)
  · intro l r hcl hcr hl hr
    rw [mkXor_plain hcl hcr]
    exact (Implements.refl (.arith rfl rfl hl hr)).yields

theorem mkAnd_yields (hl : l.Typed w) (hr : r.Typed w) :
    Yields w (.ok (mkAnd l r)) (binary .and l r) := by
  apply yields_of_comm (f := fun l r => .ok (mkAnd l r)) rfl rfl BitVec.and_comm _ _ _ hl hr
  · intro x t ht
    apply Implements.yields
    rcases ht.const_or with ⟨y, rfl⟩ | hc
    · rw [mkAnd_const ht.le]
      exact .const ht.pos ht.le (by simp)
    · rw [mkAnd_literal _ hc, isAllOnes_ofBits ht.le]
      split_ifs with h1 h0
      · obtain rfl := beq_iff_eq.mp h1
        exact ⟨ht, by simp [occurrences], by simp⟩
      · obtain rfl := (toNat_eq_zero_iff x).mp h0
        exact .const ht.pos ht.le (by simp)
      · apply Implements.comm rfl rfl BitVec.and_comm
        exact .refl (.arith rfl rfl ht (typed_const ht.pos ht.le x))
  · exact fun x t hc => congrArg _ (mkAnd_swap _ hc)
  · intro l r hcl hcr hl hr
    rw [mkAnd_plain hcl hcr]
    exact (Implements.refl (.arith rfl rfl hl hr)).yields

theorem mkOr_yields (hl : l.Typed w) (hr : r.Typed w) :
    Yields w (.ok (mkOr l r)) (binary .or l r) := by
  apply yields_of_comm (f := fun l r => .ok (mkOr l r)) rfl rfl BitVec.or_comm _ _ _ hl hr
  · intro x t ht
    apply Implements.yields
    rcases ht.const_or with ⟨y, rfl⟩ | hc
    · rw [mkOr_const ht.le]
      exact .const ht.pos ht.le (by simp)
    · rw [mkOr_literal _ hc, isAllOnes_ofBits ht.le]
      split_ifs with h1 h0
      · obtain rfl := beq_iff_eq.mp h1
        exact .const ht.pos ht.le (by simp)
      · obtain rfl := (toNat_eq_zero_iff x).mp h0
        exact ⟨ht, by simp [occurrences], by simp⟩
      · apply Implements.comm rfl rfl BitVec.or_comm
        exact .refl (.arith rfl rfl ht (typed_const ht.pos ht.le x))
  · exact fun x t hc => congrArg _ (mkOr_swap _ hc)
  · intro l r hcl hcr hl hr
    rw [mkOr_plain hcl hcr]
    exact (Implements.refl (.arith rfl rfl hl hr)).yields

theorem mul_eq_and (x y : BitVec 1) : x * y = x &&& y := by
  revert x y
  decide

theorem Implements.of_compute {op' : BinaryOp} (ha : op.isArithmetic) (hs : op.isShift = false)
    (ha' : op'.isArithmetic) (hs' : op'.isShift = false)
    (h : ∀ x y : BitVec w, op.compute x y = op'.compute x y) (hl : l.Typed w) (hr : r.Typed w) :
    Implements w (binary op l r) (binary op' l r) :=
  ⟨.arith ha hs hl hr, List.Subset.refl _, fun i => by
    rw [denote_arith ha hs, denote_arith ha' hs', h]⟩

theorem mkMul_yields (hl : l.Typed w) (hr : r.Typed w) :
    Yields w (.ok (mkMul w l r)) (binary .mul l r) := by
  apply yields_of_comm (f := fun l r => .ok (mkMul w l r)) rfl rfl BitVec.mul_comm _ _ _ hl hr
  · intro x t ht
    have hx := typed_const ht.pos ht.le x
    rcases ht.const_or with ⟨y, rfl⟩ | hc
    · rw [mkMul_const ht.le]
      exact (Implements.const ht.pos ht.le (by simp)).yields
    · rw [mkMul_literal _ hc, value_ofBits]
      split_ifs with hw h1 h0
      · subst hw
        exact (mkAnd_yields hx ht).trans
          (.of_compute rfl rfl rfl rfl (fun x y => (mul_eq_and x y).symm) hx ht)
      · obtain rfl : x = 1#w := BitVec.eq_of_toNat_eq (by rw [h1, BitVec.toNat_one ht.pos])
        exact ⟨t, rfl, ht, by simp [occurrences], by simp⟩
      · obtain rfl := (toNat_eq_zero_iff x).mp h0
        exact (Implements.const ht.pos ht.le (by simp)).yields
      · exact (Implements.refl (.arith rfl rfl hx ht)).yields
  · exact fun x t hc => congrArg _ (mkMul_swap _ hc)
  · intro l r hcl hcr hl hr
    rw [mkMul_plain hcl hcr]
    split
    · subst w
      exact (mkAnd_yields hl hr).trans
        (.of_compute rfl rfl rfl rfl (fun x y => (mul_eq_and x y).symm) hl hr)
    · exact (Implements.refl (.arith rfl rfl hl hr)).yields

theorem xor_yields_add {x : BitVec 1} (ht : t.Typed 1) :
    Yields 1 (.ok (mkXor (const (ofBits x)) t)) (binary .add (const (ofBits x)) t) := by
  have hx := typed_const ht.pos ht.le x
  exact (mkXor_yields hx ht).trans
    (.of_compute rfl rfl rfl rfl (fun x y => (add_eq_xor x y).symm) hx ht)

theorem xor_yields_sub {x : BitVec 1} (ht : t.Typed 1) :
    Yields 1 (.ok (mkXor (const (ofBits x)) t)) (binary .sub (const (ofBits x)) t) := by
  have hx := typed_const ht.pos ht.le x
  exact (mkXor_yields hx ht).trans
    (.of_compute rfl rfl rfl rfl (fun x y => (sub_eq_xor x y).symm) hx ht)

/-- What `plus` does where no literal can be merged: the given term stands for the sum with a
literal that is neither one bit wide nor zero. -/
theorem plus_yields_of (x : BitVec w) (ht : t.Typed w)
    (h : Yields w e (binary .add (const (ofBits x)) t)) :
    Yields w (if w = 1 then .ok (mkXor (const (ofBits x)) t) else if x.toNat = 0 then .ok t else e)
      (binary .add (const (ofBits x)) t) := by
  split_ifs with hw h0
  · subst hw
    exact xor_yields_add ht
  · obtain rfl := (toNat_eq_zero_iff x).mp h0
    exact ⟨t, rfl, ht, by simp [occurrences], by simp⟩
  · exact h

theorem minus_yields_of (x : BitVec w) (ht : t.Typed w)
    (h : Yields w e (binary .sub (const (ofBits x)) t)) :
    Yields w (if w = 1 then .ok (mkXor (const (ofBits x)) t) else e)
      (binary .sub (const (ofBits x)) t) := by
  split_ifs with hw
  · subst hw
    exact xor_yields_sub ht
  · exact h

theorem plus_plain (x : BitVec w) (ht : t.Typed w) :
    Yields w (if w = 1 then .ok (mkXor (const (ofBits x)) t) else
      if x.toNat = 0 then .ok t else .ok (binary .add (const (ofBits x)) t))
      (binary .add (const (ofBits x)) t) :=
  plus_yields_of x ht (Implements.refl (.arith rfl rfl (typed_const ht.pos ht.le x) ht)).yields

theorem minus_plain (x : BitVec w) (ht : t.Typed w) :
    Yields w (if w = 1 then .ok (mkXor (const (ofBits x)) t) else
      .ok (binary .sub (const (ofBits x)) t)) (binary .sub (const (ofBits x)) t) :=
  minus_yields_of x ht (Implements.refl (.arith rfl rfl (typed_const ht.pos ht.le x) ht)).yields

theorem Typed.ne_mixed (ht : t.Typed w) (op : BinaryOp) (k : FloatLiteral) (z : Term) :
    t ≠ binary op (fconst k) z := by
  rintro rfl
  cases ht with
  | arith _ _ hl => cases hl
  | shift _ hl => cases hl
  | compare _ hl => cases hl

theorem plus_minus_yields (ht : t.Typed w) (x : BitVec w) :
    Yields w (plus (ofBits x) t) (binary .add (const (ofBits x)) t) ∧
      Yields w (minus (ofBits x) t) (binary .sub (const (ofBits x)) t) := by
  -- Both at once, since each turns to the other on a difference.
  induction hn : sizeOf t using Nat.strong_induction_on generalizing t x
  next n ih =>
  subst hn
  rcases headed ht.ne_mixed with ⟨d, rfl⟩ | ⟨k, z, rfl⟩ | ⟨k, z, rfl⟩ | ⟨hp, hm⟩
  · obtain ⟨y, rfl⟩ := ht.eq_ofBits
    rw [plus_const ht.le, minus_const ht.le]
    exact ⟨(Implements.const ht.pos ht.le (by simp)).yields,
      (Implements.const ht.pos ht.le (by simp)).yields⟩
  · obtain ⟨hk, hz⟩ := ht.arith_inv rfl rfl
    obtain ⟨y, rfl⟩ := hk.eq_ofBits
    have sum := typed_const hz.pos hz.le (x + y)
    have difference := typed_const hz.pos hz.le (x - y)
    have below := ih (sizeOf z) (by simp) hz
    rw [plus, minus, add_ofBits hz.le, sub_ofBits hz.le, commonWidth_eq _ sum hz,
      commonWidth_eq _ difference hz]
    constructor
    · exact plus_yields_of x ht ((below (x + y) rfl).1.trans
        ⟨.arith rfl rfl sum hz, by simp [occurrences], by simp [BitVec.add_assoc]⟩)
    · exact minus_yields_of x ht ((below (x - y) rfl).2.trans
        ⟨.arith rfl rfl difference hz, by simp [occurrences], by simp; grind⟩)
  · obtain ⟨hk, hz⟩ := ht.arith_inv rfl rfl
    obtain ⟨y, rfl⟩ := hk.eq_ofBits
    have sum := typed_const hz.pos hz.le (x + y)
    have difference := typed_const hz.pos hz.le (x - y)
    have below := ih (sizeOf z) (by simp) hz
    rw [plus, minus, add_ofBits hz.le, sub_ofBits hz.le, commonWidth_eq _ sum hz,
      commonWidth_eq _ difference hz]
    constructor
    · exact plus_yields_of x ht ((below (x + y) rfl).2.trans
        ⟨.arith rfl rfl sum hz, by simp [occurrences], by simp; grind⟩)
    · exact minus_yields_of x ht ((below (x - y) rfl).1.trans
        ⟨.arith rfl rfl difference hz, by simp [occurrences], by simp; grind⟩)
  · rw [hp, hm]
    exact ⟨plus_plain x ht, minus_plain x ht⟩

theorem mkAdd_yields (hl : l.Typed w) (hr : r.Typed w) :
    Yields w (mkAdd w l r) (binary .add l r) := by
  apply yields_of_comm rfl rfl BitVec.add_comm _ _ _ hl hr
  · intro x t ht
    rw [mkAdd_literal _ t]
    split
    · subst w
      exact xor_yields_add ht
    · exact (plus_minus_yields ht x).1
  · exact fun x t hc => mkAdd_swap _ hc
  · intro l r hcl hcr hl hr
    rw [mkAdd_plain hcl hcr]
    split
    · subst w
      exact (mkXor_yields hl hr).trans
        (.of_compute rfl rfl rfl rfl (fun x y => (add_eq_xor x y).symm) hl hr)
    · exact (Implements.refl (.arith rfl rfl hl hr)).yields

theorem mkSub_yields (hl : l.Typed w) (hr : r.Typed w) :
    Yields w (mkSub w l r) (binary .sub l r) := by
  by_cases hs : l.same r
  · obtain rfl := same_iff.mp hs
    unfold mkSub
    rw [if_pos hs, ofNat_eq hl.le]
    exact (Implements.const hl.pos hl.le (by simp)).yields
  · have one : w = 1 → Yields w (.ok (mkXor l r)) (binary .sub l r) := by
      rintro rfl
      exact (mkXor_yields hl hr).trans
        (.of_compute rfl rfl rfl rfl (fun x y => (sub_eq_xor x y).symm) hl hr)
    unfold mkSub
    rw [if_neg hs]
    rcases hl.const_or with ⟨x, rfl⟩ | hcl
    · exact (plus_minus_yields hr x).2
    · split
      next => simp [isConstant] at hcl
      next =>
        obtain ⟨y, rfl⟩ := hr.eq_ofBits
        split
        next hw => exact one hw
        next =>
          rw [ofNat_eq hl.le, sub_ofBits hl.le]
          exact (plus_minus_yields hl (0#w - y)).1.trans
            ⟨.arith rfl rfl (typed_const hl.pos hl.le _) hl, by simp [occurrences], by simp; grind⟩
      next =>
        split
        next hw => exact one hw
        next => exact (Implements.refl (.arith rfl rfl hl hr)).yields

theorem one_ne_zero (hw : 0 < w) : 1#w ≠ 0#w := by
  intro h
  have := congrArg BitVec.toNat h
  simp [Nat.ne_of_gt hw] at this

theorem smtUDiv_one (hw : 0 < w) (x : BitVec w) : x.smtUDiv 1#w = x := by
  rw [BitVec.smtUDiv_eq, if_neg (one_ne_zero hw), BitVec.udiv_one]

theorem smtSDiv_one (hw : 0 < w) (x : BitVec w) : x.smtSDiv 1#w = x := by
  rw [smtSDiv_eq_sdiv (one_ne_zero hw), BitVec.sdiv_one]

variable {fold : Literal → Literal → Except Defect Literal}

theorem mkDiv_yields (ha : op.isArithmetic) (hs : op.isShift = false)
    (hf : ∀ x y : BitVec w, fold (ofBits x) (ofBits y) = .ok (ofBits (op.compute x y)))
    (h1 : ∀ x : BitVec w, op.compute x 1#w = x) (hl : l.Typed w) (hr : r.Typed w) :
    Yields w (mkDiv op fold l r) (binary op l r) := by
  unfold mkDiv
  split
  next =>
    obtain ⟨x, rfl⟩ := hl.eq_ofBits
    obtain ⟨y, rfl⟩ := hr.eq_ofBits
    rw [hf]
    exact (Implements.const hl.pos hl.le (by simp [denote_arith ha hs])).yields
  next =>
    obtain ⟨y, rfl⟩ := hr.eq_ofBits
    split
    next h =>
      obtain rfl : y = 1#w := BitVec.eq_of_toNat_eq (by rw [BitVec.toNat_one hl.pos]; exact h)
      exact ⟨l, rfl, hl, by simp [occurrences], by simp [denote_arith ha hs, h1]⟩
    next => exact (Implements.refl (.arith ha hs hl hr)).yields
  next => exact (Implements.refl (.arith ha hs hl hr)).yields

theorem mkRem_yields (ha : op.isArithmetic) (hs : op.isShift = false)
    (hf : ∀ x y : BitVec w, fold (ofBits x) (ofBits y) = .ok (ofBits (op.compute x y)))
    (h1 : ∀ x : BitVec w, op.compute x 1#w = 0#w) (hl : l.Typed w) (hr : r.Typed w) :
    Yields w (mkRem op fold l r) (binary op l r) := by
  unfold mkRem
  split
  next =>
    obtain ⟨x, rfl⟩ := hl.eq_ofBits
    obtain ⟨y, rfl⟩ := hr.eq_ofBits
    rw [hf]
    exact (Implements.const hl.pos hl.le (by simp [denote_arith ha hs])).yields
  next =>
    obtain ⟨y, rfl⟩ := hr.eq_ofBits
    split
    next h =>
      obtain rfl : y = 1#w := BitVec.eq_of_toNat_eq (by rw [BitVec.toNat_one hl.pos]; exact h)
      rw [width_ofBits, ofNat_eq hl.le]
      exact (Implements.const hl.pos hl.le (by simp [denote_arith ha hs, h1])).yields
    next => exact (Implements.refl (.arith ha hs hl hr)).yields
  next => exact (Implements.refl (.arith ha hs hl hr)).yields

theorem move_zero (hs : op.isShift) (x : BitVec w) : op.move x 0 = x := by
  cases op <;> simp_all [BinaryOp.isShift, BinaryOp.move]

theorem mkShift_yields {fold : Literal → Literal → Literal} (hs : op.isShift)
    (hf : ∀ (x : BitVec w) (y : BitVec v),
      fold (ofBits x) (ofBits y) = ofBits (op.move x y.toNat))
    (hl : l.Typed w) (hr : r.Typed v) : Yields w (mkShift op fold l r) (binary op l r) := by
  unfold mkShift
  split
  next =>
    obtain ⟨x, rfl⟩ := hl.eq_ofBits
    obtain ⟨y, rfl⟩ := hr.eq_ofBits
    rw [hf]
    exact (Implements.const hl.pos hl.le (by simp [denote_shift hs hr])).yields
  next =>
    obtain ⟨y, rfl⟩ := hr.eq_ofBits
    split
    next h =>
      obtain rfl := (toNat_eq_zero_iff y).mp h
      refine ⟨l, rfl, hl, by simp [occurrences], fun i => ?_⟩
      simp [denote_shift hs hr, move_zero hs]
    next => exact (Implements.refl (.shift hs hl hr)).yields
  next => cases hr
  next => exact (Implements.refl (.shift hs hl hr)).yields

end Concolic.Term
