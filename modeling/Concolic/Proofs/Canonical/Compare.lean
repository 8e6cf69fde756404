import Mathlib
import Concolic.Proofs.Canonical.Arithmetic

namespace Concolic.Term

variable {w v : Nat} {t l r : Term} {c : Literal} {op : BinaryOp}

theorem ofBool_canonical (b : Bool) : (ofBool b).Canonical (.bits 1) := .const (.ofBool b)

theorem mkBinary_eq (hl : l.Canonical (.bits w)) (hr : r.Canonical (.bits w)) :
    mkBinary .eq l r = mkEq l r := by
  simp [mkBinary, commonWidth_canonical _ hl hr]

theorem mkEqLiteral_settles (ht : t.Canonical (.bits w)) (c : Literal) (hc : c.width = w) :
    Settles (.bits 1) (mkEqLiteral c t) := by
  induction t generalizing w c with
  | const d => exact (ofBool_canonical _).settles
  | binary op a z _ ih =>
    intro u h
    have made : mkBinary .eq (const c) (binary op a z) = .ok u := by
      rw [mkBinary_eq (.literal hc) ht, mkEq_literal, h]
    unfold mkEqLiteral at h
    split at h
    next h' => cases h'
    next h' =>
      cases h'
      obtain ⟨hw, v, ha, hz⟩ := ht.compare_inv rfl
      obtain rfl : w = 1 := by simpa using hw
      split_ifs at h with _ hf <;> cases h
      · exact ht
      · obtain rfl := eq_of_isFalse hf
        cases ha
        exact hz
      · exact .compare rfl (.literal hc) ht made
    next k z h' =>
      cases h'
      obtain ⟨-, hz⟩ := ht.arith_inv rfl rfl
      have difference : (const (c.sub k)).Canonical (.bits w) := .literal hc
      rw [commonWidth_canonical _ difference hz] at h
      exact ih hz (c.sub k) hc u h
    next k z h' =>
      cases h'
      cases (ht.arith_inv rfl rfl).1
    next h' => cases h'
    next =>
      cases h
      exact .compare rfl (.literal hc) ht made
  | cast z _ signed ih =>
    rw [mkEqLiteral]
    cases ht with
    | @cast _ v _ _ hz =>
      simp only [hz.width, ok_bind, Shape.width]
      have narrowed := ih hz (c.extract 0 v) rfl
      split_ifs
      · exact narrowed
      · exact (ofBool_canonical false).settles
      · exact narrowed
      · exact (ofBool_canonical false).settles
  | fconst | hole => cases ht
  | _ =>
    intro u h
    have made := h
    cases h
    refine .compare rfl (.literal hc) ht ?_
    rw [mkBinary_eq (.literal hc) ht, mkEq_literal, made]

theorem mkEq_settles (hl : l.Canonical (.bits w)) (hr : r.Canonical (.bits w)) :
    Settles (.bits 1) (mkEq l r) := by
  rcases hl.const_or with ⟨c, rfl, hc⟩ | hcl
  · exact mkEqLiteral_settles hr c hc
  · rcases hr.const_or with ⟨c, rfl, hc⟩ | hcr
    · rw [mkEq_swap c hcl]
      exact mkEqLiteral_settles hl c hc
    · intro t h
      have made := mkBinary_eq hl hr ▸ h
      rw [mkEq_plain hcl hcr] at h
      split at h <;> cases h
      · exact ofBool_canonical true
      · exact .compare rfl hl hr made

theorem mkIsZero_settles (ht : t.Canonical (.bits w)) : Settles (.bits 1) (mkIsZero t) := by
  rw [mkIsZero, ht.width, ok_bind]
  exact mkEq_settles ht (.literal rfl)

theorem checkedAnd_settles (hl : l.Canonical (.bits w)) (hr : r.Canonical (.bits w)) :
    Settles (.bits w) (checkedAnd l r) := by
  rw [checkedAnd, commonWidth_canonical _ hl hr, ok_bind]
  exact (mkAnd_canonical hl hr).settles

theorem checkedOr_settles (hl : l.Canonical (.bits w)) (hr : r.Canonical (.bits w)) :
    Settles (.bits w) (checkedOr l r) := by
  rw [checkedOr, commonWidth_canonical _ hl hr, ok_bind]
  exact (mkOr_canonical hl hr).settles

theorem order_settles {e : Except Defect Term} (hc : op.isCompare) (hl : l.Canonical (.bits w))
    (hr : r.Canonical (.bits w)) (bits : w = 1 → Settles (.bits 1) e)
    (eq : mkBinary op l r = if w = 1 then e else .ok (binary op l r)) :
    Settles (.bits 1) (if w = 1 then e else .ok (binary op l r)) := by
  intro t h
  have made := eq.trans h
  split at h
  next hw => exact bits hw t h
  next =>
    cases h
    exact .compare hc hl hr made

theorem mkUlt_settles (hl : l.Canonical (.bits w)) (hr : r.Canonical (.bits w)) :
    Settles (.bits 1) (mkUlt w l r) := by
  have eq : mkBinary .ult l r = mkUlt w l r := by
    simp [mkBinary, commonWidth_canonical _ hl hr]
  unfold mkUlt at eq ⊢
  split at eq
  · exact (ofBool_canonical _).settles
  · refine order_settles rfl hl hr (fun hw => ?_) eq
    subst hw
    exact (mkIsZero_settles hl).bind fun z hz => checkedAnd_settles hz hr

theorem mkUle_settles (hl : l.Canonical (.bits w)) (hr : r.Canonical (.bits w)) :
    Settles (.bits 1) (mkUle w l r) := by
  have eq : mkBinary .ule l r = mkUle w l r := by
    simp [mkBinary, commonWidth_canonical _ hl hr]
  unfold mkUle at eq ⊢
  split at eq
  · exact (ofBool_canonical _).settles
  · refine order_settles rfl hl hr (fun hw => ?_) eq
    subst hw
    exact (mkIsZero_settles hl).bind fun z hz => checkedOr_settles hz hr

theorem mkSlt_settles (hl : l.Canonical (.bits w)) (hr : r.Canonical (.bits w)) :
    Settles (.bits 1) (mkSlt w l r) := by
  have eq : mkBinary .slt l r = mkSlt w l r := by
    simp [mkBinary, commonWidth_canonical _ hl hr]
  unfold mkSlt at eq ⊢
  split at eq
  · exact (ofBool_canonical _).settles
  · refine order_settles rfl hl hr (fun hw => ?_) eq
    subst hw
    exact (mkIsZero_settles hr).bind fun z hz => checkedAnd_settles hl hz

theorem mkSle_settles (hl : l.Canonical (.bits w)) (hr : r.Canonical (.bits w)) :
    Settles (.bits 1) (mkSle w l r) := by
  have eq : mkBinary .sle l r = mkSle w l r := by
    simp [mkBinary, commonWidth_canonical _ hl hr]
  unfold mkSle at eq ⊢
  split at eq
  · exact (ofBool_canonical _).settles
  · refine order_settles rfl hl hr (fun hw => ?_) eq
    subst hw
    exact (mkIsZero_settles hr).bind fun z hz => checkedOr_settles hl hz

theorem mkNe_settles (hl : l.Canonical (.bits w)) (hr : r.Canonical (.bits w)) :
    Settles (.bits 1) (mkBinary .ne l r) := by
  simp only [mkBinary, commonWidth_canonical _ hl hr, ok_bind]
  refine (mkEq_settles hl hr).bind fun e he => ?_
  have no : (const (.ofNat 0 1)).Canonical (.bits 1) := .literal rfl
  rw [commonWidth_canonical _ no he]
  exact mkEq_settles no he

theorem mkBinary_settles_arith (ha : op.isArithmetic) (hs : op.isShift = false)
    (hl : l.Canonical (.bits w)) (hr : r.Canonical (.bits w)) :
    Settles (.bits w) (mkBinary op l r) := by
  have e := commonWidth_canonical op hl hr
  cases op with
  | add => rw [mkBinary_add hl hr]; exact mkAdd_settles hl hr
  | sub => rw [mkBinary_sub hl hr]; exact mkSub_settles hl hr
  | mul => simp only [mkBinary, e]; exact (mkMul_canonical hl hr).settles
  | and => simp only [mkBinary, e]; exact (mkAnd_canonical hl hr).settles
  | or => simp only [mkBinary, e]; exact (mkOr_canonical hl hr).settles
  | xor => simp only [mkBinary, e]; exact (mkXor_canonical hl hr).settles
  | udiv =>
    have eq : mkBinary .udiv l r = mkDiv .udiv (fun a b => .ok (a.udiv b)) l r := by
      simp [mkBinary, e]
    rw [eq]
    refine mkDiv_settles rfl rfl ?_ hl hr eq
    rintro a b _ ⟨⟩
    exact Literal.width_udiv a b
  | sdiv =>
    have eq : mkBinary .sdiv l r = mkDiv .sdiv Literal.sdiv l r := by simp [mkBinary, e]
    rw [eq]
    exact mkDiv_settles rfl rfl Literal.width_sdiv hl hr eq
  | urem =>
    have eq : mkBinary .urem l r = mkRem .urem (fun a b => .ok (a.urem b)) l r := by
      simp [mkBinary, e]
    rw [eq]
    refine mkRem_settles rfl rfl ?_ hl hr eq
    rintro a b _ ⟨⟩
    exact Literal.width_urem a b
  | srem =>
    have eq : mkBinary .srem l r = mkRem .srem Literal.srem l r := by simp [mkBinary, e]
    rw [eq]
    exact mkRem_settles rfl rfl Literal.width_srem hl hr eq
  | _ => simp_all [BinaryOp.isArithmetic, BinaryOp.isShift]

theorem mkBinary_settles_shift (hs : op.isShift) (hl : l.Canonical (.bits w))
    (hr : r.Canonical (.bits v)) : Settles (.bits w) (mkBinary op l r) := by
  cases op with
  | shl => exact mkShift_settles rfl Literal.width_shl rfl hl hr
  | lshr => exact mkShift_settles rfl Literal.width_lshr rfl hl hr
  | ashr => exact mkShift_settles rfl (fun _ _ => rfl) rfl hl hr
  | _ => simp [BinaryOp.isShift] at hs

theorem mkBinary_settles_compare (hc : op.isCompare) (hl : l.Canonical (.bits w))
    (hr : r.Canonical (.bits w)) : Settles (.bits 1) (mkBinary op l r) := by
  have e := commonWidth_canonical op hl hr
  cases op with
  | eq => rw [mkBinary_eq hl hr]; exact mkEq_settles hl hr
  | ne => exact mkNe_settles hl hr
  | ult => simp only [mkBinary, e]; exact mkUlt_settles hl hr
  | ule => simp only [mkBinary, e]; exact mkUle_settles hl hr
  | slt => simp only [mkBinary, e]; exact mkSlt_settles hl hr
  | sle => simp only [mkBinary, e]; exact mkSle_settles hl hr
  | ugt => simp only [mkBinary, e]; exact mkUlt_settles hr hl
  | uge => simp only [mkBinary, e]; exact mkUle_settles hr hl
  | sgt => simp only [mkBinary, e]; exact mkSlt_settles hr hl
  | sge => simp only [mkBinary, e]; exact mkSle_settles hr hl
  | _ => simp [BinaryOp.isCompare] at hc

end Concolic.Term
