import Mathlib
import Concolic.Proofs.Simplify.Arithmetic

namespace Concolic.Term

open Literal

variable {w v : Nat} {t l r : Term} {op : BinaryOp} {e : Except Defect Term}

theorem ofBits_inj {x y : BitVec w} : ofBits x = ofBits y ↔ x = y :=
  ⟨ofBits_injective, congrArg _⟩

theorem setWidth_ext {u : Nat} (signed : Bool) (hu : u ≤ v) (hv : v ≤ w) (y : BitVec v) :
    (if signed then y.signExtend w else y.setWidth w).setWidth u = y.setWidth u := by
  cases signed
  · simp [BitVec.setWidth_setWidth_of_le _ (Nat.le_trans hu hv)]
  · rw [if_pos rfl]
    ext i hi
    rw [BitVec.getElem_setWidth, BitVec.getElem_setWidth, BitVec.getLsbD_signExtend]
    simp [show i < w by omega, show i < v by omega]

theorem ext_eq_iff (signed : Bool) (hv : v ≤ w) (x : BitVec w) (y : BitVec v) :
    x = (if signed then y.signExtend w else y.setWidth w) ↔
      x = (if signed then (x.setWidth v).signExtend w else (x.setWidth v).setWidth w) ∧
        x.setWidth v = y := by
  have back := setWidth_ext signed (Nat.le_refl v) hv y
  rw [BitVec.setWidth_eq] at back
  constructor
  · rintro rfl
    rw [back]
    exact ⟨rfl, rfl⟩
  · rintro ⟨h, rfl⟩
    exact h

theorem eq_of_isFalse (h : t.isFalse) : t = const (ofBits 0#1) := by
  cases t with
  | const c =>
    simp only [isFalse, Literal.isFalse, Bool.and_eq_true, beq_iff_eq] at h
    cases c
    simp_all [ofBits]
  | _ => simp [isFalse] at h

theorem eq_of_isTrue (ht : t.Typed w) (h : t.isTrue) : t = const (ofBits 1#1) := by
  cases ht with
  | @const c hp hl hv =>
    simp only [isTrue, Literal.isTrue, Bool.and_eq_true, beq_iff_eq, bne_iff_ne] at h
    cases c
    simp_all [ofBits]
    omega
  | _ => simp [isTrue] at h

theorem mkEqLiteral_plain (x : BitVec w) (ht : t.Typed w) :
    Yields 1 (.ok (binary .eq (const (ofBits x)) t)) (binary .eq (const (ofBits x)) t) :=
  (Implements.refl (.compare rfl (typed_const ht.pos ht.le x) ht)).yields

theorem denote_eq (x : BitVec w) (ht : t.Typed w) {i : Input} :
    (binary .eq (const (ofBits x)) t).denote i 1 = BitVec.ofBool (x == t.denote i w) := by
  rw [denote_compare rfl (typed_const ht.pos ht.le x), denote_const]
  rfl

theorem mkEqLiteral_yields (ht : t.Typed w) (x : BitVec w) :
    Yields 1 (mkEqLiteral (ofBits x) t) (binary .eq (const (ofBits x)) t) := by
  induction t generalizing w with
  | const c =>
    obtain ⟨y, rfl⟩ := ht.eq_ofBits
    rw [mkEqLiteral, eq_ofBits]
    refine (Implements.const (by decide) (by decide) fun i => ?_).yields
    rw [denote_eq x ht, denote_const]
  | binary op a z _ ih =>
    unfold mkEqLiteral
    split
    next h => cases h
    next a b h =>
      cases h
      obtain ⟨rfl, v, ha, hb⟩ := ht.compare_inv rfl
      split_ifs with hw h1 h0
      · obtain rfl := (isTrue_const x).mp h1
        refine ⟨_, rfl, ht, by simp [occurrences], fun i => ?_⟩
        rw [denote_eq _ ht]
        generalize denote i _ 1 = y
        revert y
        decide
      · obtain rfl : x = 0#1 := by
          revert h1
          revert x
          decide
        obtain rfl := eq_of_isFalse h0
        obtain rfl : v = 1 := ha.unique (typed_const (by decide) (by decide) 0#1)
        refine ⟨_, rfl, hb, by simp [occurrences], fun i => ?_⟩
        rw [denote_eq _ ht, denote_eq _ hb]
        generalize denote i _ 1 = y
        revert y
        decide
      · exact mkEqLiteral_plain x ht
      · exact mkEqLiteral_plain x ht
    next k z h =>
      cases h
      obtain ⟨hk, hz⟩ := ht.arith_inv rfl rfl
      obtain ⟨y, rfl⟩ := hk.eq_ofBits
      have hs := typed_const hz.pos hz.le (x - y)
      simp only [sub_ofBits hz.le, commonWidth_eq _ hs hz]
      refine (ih hz (x - y)).trans ⟨.compare rfl hs hz, by simp [occurrences], fun i => ?_⟩
      rw [denote_eq _ hz, denote_eq _ ht, denote_add, denote_const]
      congr 1
      rw [Bool.eq_iff_iff, beq_iff_eq, beq_iff_eq]
      grind
    next k z h =>
      cases h
      cases (ht.arith_inv rfl rfl).1
    next h => cases h
    next => exact mkEqLiteral_plain x ht
  | cast s u signed ih =>
    rw [mkEqLiteral]
    cases ht with
    | @cast _ v _ _ hs hv hl =>
      have means : ∀ i, (binary .eq (const (ofBits x)) (cast s u signed)).denote i 1 =
          BitVec.ofBool (decide (x = if signed then (x.setWidth v).signExtend u else
            (x.setWidth v).setWidth u) && x.setWidth v == s.denote i v) := fun i => by
        rw [denote_eq x (.cast hs hv hl), denote_cast hs]
        congr 1
        rw [Bool.eq_iff_iff, Bool.and_eq_true, decide_eq_true_eq, beq_iff_eq, beq_iff_eq]
        exact ext_eq_iff signed hv x _
      simp only [hs.width, ok_bind, extract_ofBits hl hs.le, ← BitVec.setWidth_eq_extractLsb' hv,
        width_ofBits, sext_ofBits hs.pos hs.le hl, zext_ofBits hl, ← apply_ite ofBits,
        ofBits_inj]
      by_cases hx : x = if signed then (x.setWidth v).signExtend u else (x.setWidth v).setWidth u
      · rw [if_pos hx]
        refine (ih hs (x.setWidth v)).trans
          ⟨.compare rfl (typed_const hs.pos hs.le _) hs, by simp [occurrences], fun i => ?_⟩
        rw [means, denote_eq _ hs, decide_eq_true hx, Bool.true_and]
      · rw [if_neg hx]
        refine (Implements.const (x := 0#1) (by decide) (by decide) fun i => ?_).yields
        rw [means, decide_eq_false hx]
        rfl
  | var => exact mkEqLiteral_plain x ht
  | extract => exact mkEqLiteral_plain x ht
  | not => exact mkEqLiteral_plain x ht
  | ite => exact mkEqLiteral_plain x ht
  | _ => cases ht

theorem denote_eq_symm (hl : l.Typed w) (hr : r.Typed w) {i : Input} :
    (binary .eq l r).denote i 1 = (binary .eq r l).denote i 1 := by
  rw [denote_compare rfl hl, denote_compare rfl hr]
  exact congrArg BitVec.ofBool BEq.comm

theorem mkEq_yields (hl : l.Typed w) (hr : r.Typed w) : Yields 1 (mkEq l r) (binary .eq l r) := by
  rcases hl.const_or with ⟨x, rfl⟩ | hcl
  · rw [mkEq_literal _ r]
    exact mkEqLiteral_yields hr x
  · rcases hr.const_or with ⟨y, rfl⟩ | hcr
    · rw [mkEq_swap _ hcl, mkEq_literal]
      refine (mkEqLiteral_yields hl y).trans ⟨.compare rfl hr hl, by simp [occurrences], fun i => ?_⟩
      exact denote_eq_symm hr hl
    · rw [mkEq_plain hcl hcr]
      split <;> rename_i hs
      · obtain rfl := same_iff.mp hs
        refine (Implements.const (x := 1#1) (by decide) (by decide) fun i => ?_).yields
        rw [denote_compare rfl hl]
        simp [BinaryOp.test]
      · exact (Implements.refl (.compare rfl hl hr)).yields

theorem mkIsZero_yields (ht : t.Typed w) :
    Yields 1 (mkIsZero t) (binary .eq t (const (ofBits 0#w))) := by
  rw [mkIsZero, ht.width, ok_bind, ofNat_eq ht.le]
  exact mkEq_yields ht (typed_const ht.pos ht.le 0#w)

theorem denote_isZero {i : Input} (ht : t.Typed 1) :
    (binary .eq t (const (ofBits 0#1))).denote i 1 = ~~~t.denote i 1 := by
  rw [denote_compare rfl ht, denote_const]
  generalize t.denote i 1 = x
  revert x
  decide

theorem mkIsZero_one (ht : t.Typed 1) : Yields 1 (mkIsZero t) (not t) :=
  (mkIsZero_yields ht).trans ⟨.compare rfl ht (typed_const (by decide) (by decide) _),
    by simp [occurrences], fun _ => denote_isZero ht⟩

theorem checkedAnd_yields (hl : l.Typed w) (hr : r.Typed w) :
    Yields w (checkedAnd l r) (binary .and l r) := by
  rw [checkedAnd, commonWidth_eq _ hl hr, ok_bind]
  exact mkAnd_yields hl hr

theorem checkedOr_yields (hl : l.Typed w) (hr : r.Typed w) :
    Yields w (checkedOr l r) (binary .or l r) := by
  rw [checkedOr, commonWidth_eq _ hl hr, ok_bind]
  exact mkOr_yields hl hr

/-- Orderings have one shape: literals are folded, single bits combined, and else the node stays. -/
theorem ordering_yields {b : Except Defect Term} (hc : op.isCompare)
    (hl : l.Typed w) (hr : r.Typed w)
    (folded : ∀ x y : BitVec w, l = const (ofBits x) → r = const (ofBits y) →
      e = .ok (const (ofBits (BitVec.ofBool (op.test x y)))))
    (kept : (l.isConstant && r.isConstant) = false →
      e = if w = 1 then b else .ok (binary op l r))
    (one : w = 1 → Yields 1 b (binary op l r)) : Yields 1 e (binary op l r) := by
  by_cases h : (l.isConstant && r.isConstant) = true
  · obtain ⟨hcl, hcr⟩ := Bool.and_eq_true_iff.mp h
    rcases hl.const_or with ⟨x, rfl⟩ | hcl'
    · rcases hr.const_or with ⟨y, rfl⟩ | hcr'
      · rw [folded x y rfl rfl]
        refine (Implements.const (by decide) (by decide) fun i => ?_).yields
        rw [denote_compare hc hl, denote_const, denote_const]
      · simp [hcr'] at hcr
    · simp [hcl'] at hcl
  · rw [kept (Bool.eq_false_iff.mpr h)]
    split
    next hw => exact one hw
    next => exact (Implements.refl (.compare hc hl hr)).yields

theorem bit_left_yields {op' : BinaryOp} {f : Term → Term → Except Defect Term}
    (hc : op.isCompare) (ha : op'.isArithmetic) (hs : op'.isShift = false)
    (hf : ∀ z, z.Typed 1 → Yields 1 (f z r) (binary op' z r))
    (h : ∀ x y : BitVec 1, op'.compute (~~~x) y = BitVec.ofBool (op.test x y))
    (hl : l.Typed 1) : Yields 1 (mkIsZero l >>= fun z => f z r) (binary op l r) := by
  obtain ⟨z, hz, hi⟩ := mkIsZero_one hl
  rw [hz, ok_bind]
  obtain ⟨t, ht, hj⟩ := hf z hi.typed
  refine ⟨t, ht, hj.typed, ?_, fun i => ?_⟩
  · apply List.Subset.trans hj.bound
    simpa [occurrences] using List.subset_append_of_subset_left _ hi.bound
  · rw [hj.means, denote_arith ha hs, hi.means, denote_not, h, denote_compare hc hl]

theorem bit_right_yields {op' : BinaryOp} {f : Term → Term → Except Defect Term}
    (hc : op.isCompare) (ha : op'.isArithmetic) (hs : op'.isShift = false)
    (hf : ∀ z, z.Typed 1 → Yields 1 (f l z) (binary op' l z))
    (h : ∀ x y : BitVec 1, op'.compute x (~~~y) = BitVec.ofBool (op.test x y))
    (hl : l.Typed 1) (hr : r.Typed 1) :
    Yields 1 (mkIsZero r >>= fun z => f l z) (binary op l r) := by
  obtain ⟨z, hz, hi⟩ := mkIsZero_one hr
  rw [hz, ok_bind]
  obtain ⟨t, ht, hj⟩ := hf z hi.typed
  refine ⟨t, ht, hj.typed, ?_, fun i => ?_⟩
  · apply List.Subset.trans hj.bound
    simpa [occurrences] using List.subset_append_of_subset_right _ hi.bound
  · rw [hj.means, denote_arith ha hs, hi.means, denote_not, h, denote_compare hc hl]

theorem mkUlt_yields (hl : l.Typed w) (hr : r.Typed w) :
    Yields 1 (mkUlt w l r) (binary .ult l r) := by
  apply ordering_yields (b := mkIsZero l >>= fun z => checkedAnd z r) rfl hl hr
  · rintro x y rfl rfl
    exact congrArg (Except.ok ∘ const) (ult_ofBits x y)
  · intro h
    cases l <;> cases r <;> first | rfl | simp [isConstant] at h
  · rintro rfl
    exact bit_left_yields rfl rfl rfl (fun z hz => checkedAnd_yields hz hr) (by decide) hl

theorem mkUle_yields (hl : l.Typed w) (hr : r.Typed w) :
    Yields 1 (mkUle w l r) (binary .ule l r) := by
  apply ordering_yields (b := mkIsZero l >>= fun z => checkedOr z r) rfl hl hr
  · rintro x y rfl rfl
    exact congrArg (Except.ok ∘ const) (ule_ofBits x y)
  · intro h
    cases l <;> cases r <;> first | rfl | simp [isConstant] at h
  · rintro rfl
    exact bit_left_yields rfl rfl rfl (fun z hz => checkedOr_yields hz hr) (by decide) hl

theorem mkSlt_yields (hl : l.Typed w) (hr : r.Typed w) :
    Yields 1 (mkSlt w l r) (binary .slt l r) := by
  apply ordering_yields (b := mkIsZero r >>= fun z => checkedAnd l z) rfl hl hr
  · rintro x y rfl rfl
    exact congrArg (Except.ok ∘ const) (slt_ofBits hl.pos hl.le x y)
  · intro h
    cases l <;> cases r <;> first | rfl | simp [isConstant] at h
  · rintro rfl
    exact bit_right_yields rfl rfl rfl (fun z hz => checkedAnd_yields hl hz) (by decide) hl hr

theorem mkSle_yields (hl : l.Typed w) (hr : r.Typed w) :
    Yields 1 (mkSle w l r) (binary .sle l r) := by
  apply ordering_yields (b := mkIsZero r >>= fun z => checkedOr l z) rfl hl hr
  · rintro x y rfl rfl
    exact congrArg (Except.ok ∘ const) (sle_ofBits hl.pos hl.le x y)
  · intro h
    cases l <;> cases r <;> first | rfl | simp [isConstant] at h
  · rintro rfl
    exact bit_right_yields rfl rfl rfl (fun z hz => checkedOr_yields hl hz) (by decide) hl hr

theorem Implements.mirror {op' : BinaryOp} (hc : op.isCompare) (hc' : op'.isCompare)
    (h : ∀ x y : BitVec w, op'.test y x = op.test x y) (hl : l.Typed w) (hr : r.Typed w) :
    Implements 1 (binary op' r l) (binary op l r) :=
  ⟨.compare hc' hr hl, by simp [occurrences], fun i => by
    rw [denote_compare hc' hr, denote_compare hc hl, h]⟩

theorem mkNe_yields (hl : l.Typed w) (hr : r.Typed w) :
    Yields 1 (mkBinary .ne l r) (binary .ne l r) := by
  obtain ⟨z, hz, hi⟩ := mkEq_yields hl hr
  have h0 := typed_const (w := 1) (by decide) (by decide) 0#1
  simp only [mkBinary, commonWidth_eq _ hl hr, ok_bind, hz, ofNat_eq (show 1 ≤ 64 by decide),
    commonWidth_eq _ h0 hi.typed]
  refine (mkEq_yields h0 hi.typed).trans ⟨.compare rfl h0 hi.typed, ?_, fun i => ?_⟩
  · simpa [occurrences] using hi.bound
  · rw [denote_eq _ hi.typed, hi.means, denote_compare rfl hl, denote_compare rfl hl]
    change BitVec.ofBool (0#1 == BitVec.ofBool (_ == _)) = BitVec.ofBool (!(_ == _))
    cases l.denote i w == r.denote i w <;> rfl

theorem mkBinary_yields (h : (binary op l r).Typed w) :
    Yields w (mkBinary op l r) (binary op l r) := by
  cases h with
  | arith ha hs hl hr =>
    have e := commonWidth_eq op hl hr
    cases op with
    | add => simp only [mkBinary, e]; exact mkAdd_yields hl hr
    | sub => simp only [mkBinary, e]; exact mkSub_yields hl hr
    | mul => simp only [mkBinary, e]; exact mkMul_yields hl hr
    | and => simp only [mkBinary, e]; exact mkAnd_yields hl hr
    | or => simp only [mkBinary, e]; exact mkOr_yields hl hr
    | xor => simp only [mkBinary, e]; exact mkXor_yields hl hr
    | udiv =>
      simp only [mkBinary, e]
      exact mkDiv_yields rfl rfl (fun x y => congrArg _ (udiv_ofBits hl.le x y))
        (smtUDiv_one hl.pos) hl hr
    | sdiv =>
      simp only [mkBinary, e]
      exact mkDiv_yields rfl rfl (sdiv_ofBits hl.pos hl.le) (smtSDiv_one hl.pos) hl hr
    | urem =>
      simp only [mkBinary, e]
      exact mkRem_yields rfl rfl (fun x y => congrArg _ (urem_ofBits hl.le x y))
        (fun _ => BitVec.umod_one) hl hr
    | srem =>
      simp only [mkBinary, e]
      exact mkRem_yields rfl rfl (srem_ofBits hl.pos hl.le) (fun _ => BitVec.srem_one) hl hr
    | _ => simp_all [BinaryOp.isArithmetic, BinaryOp.isShift]
  | shift hs hl hr =>
    cases op with
    | shl => exact mkShift_yields rfl (shl_ofBits hl.le) hl hr
    | lshr => exact mkShift_yields rfl (lshr_ofBits hl.le) hl hr
    | ashr => exact mkShift_yields rfl (ashr_ofBits hl.pos hl.le) hl hr
    | _ => simp [BinaryOp.isShift] at hs
  | compare hc hl hr =>
    have e := commonWidth_eq op hl hr
    cases op with
    | eq => simp only [mkBinary, e]; exact mkEq_yields hl hr
    | ne => exact mkNe_yields hl hr
    | ult => simp only [mkBinary, e]; exact mkUlt_yields hl hr
    | ule => simp only [mkBinary, e]; exact mkUle_yields hl hr
    | slt => simp only [mkBinary, e]; exact mkSlt_yields hl hr
    | sle => simp only [mkBinary, e]; exact mkSle_yields hl hr
    | ugt =>
      simp only [mkBinary, e]
      exact (mkUlt_yields hr hl).trans (.mirror rfl rfl (fun _ _ => rfl) hl hr)
    | uge =>
      simp only [mkBinary, e]
      exact (mkUle_yields hr hl).trans (.mirror rfl rfl (fun _ _ => rfl) hl hr)
    | sgt =>
      simp only [mkBinary, e]
      exact (mkSlt_yields hr hl).trans (.mirror rfl rfl (fun _ _ => rfl) hl hr)
    | sge =>
      simp only [mkBinary, e]
      exact (mkSle_yields hr hl).trans (.mirror rfl rfl (fun _ _ => rfl) hl hr)
    | _ => simp [BinaryOp.isCompare] at hc

end Concolic.Term
