import Mathlib
import Concolic.Proofs.Simplify.Compare

namespace Concolic

inductive Shape
  | bits (width : Nat)
  | float (width : Nat)
  deriving DecidableEq

namespace Shape

def width : Shape → Nat
  | bits w => w
  | float w => w

def IsProper : Shape → Prop
  | bits w => 0 < w ∧ w ≤ 64
  | float _ => True

end Shape

def Kind.shape? (k : Kind) : Option Shape :=
  k.width?.map fun w => if k.isFloat then .float w else .bits w

theorem Kind.shape_isProper {k : Kind} {s : Shape} (h : k.shape? = some s) : s.IsProper := by
  cases k <;> simp [Kind.shape?, Kind.width?, Kind.isFloat] at h <;> subst h <;>
    simp [Shape.IsProper]

theorem Kind.exists_shape {k : Kind} {w : Nat} (h : k.width? = some w) :
    ∃ s, k.shape? = some s :=
  ⟨_, by rw [Kind.shape?, h, Option.map_some]⟩

theorem Kind.width_of_shape {k : Kind} {s : Shape} (h : k.shape? = some s) :
    k.width? = some s.width := by
  obtain ⟨w, hw, rfl⟩ := Option.map_eq_some_iff.mp h
  rw [hw]
  split <;> rfl

namespace Term

open Literal

inductive Shaped : Term → Shape → Prop
  | const {c : Literal} :
    0 < c.width → c.width ≤ 64 → c.value < 2 ^ c.width → Shaped (const c) (.bits c.width)
  | fconst {c : FloatLiteral} : Shaped (fconst c) (.float c.width)
  | var {n : String} {k : Kind} {s : Shape} : k.shape? = some s → Shaped (var n k) s
  | extract {t : Term} {o v w : Nat} :
    Shaped t (.bits v) → 0 < w → o + w ≤ v → Shaped (extract t o w) (.bits w)
  | not {t : Term} {w : Nat} : Shaped t (.bits w) → Shaped (not t) (.bits w)
  | cast {t : Term} {v w : Nat} {signed : Bool} :
    Shaped t (.bits v) → v ≤ w → w ≤ 64 → Shaped (cast t w signed) (.bits w)
  | ofSigned {t : Term} {v w : Nat} :
    Shaped t (.bits v) → Shaped (convert .ofSigned t w) (.float w)
  | toSigned {t : Term} {v w : Nat} :
    Shaped t (.float v) → 0 < w → w ≤ 64 → Shaped (convert .toSigned t w) (.bits w)
  | resize {t : Term} {v w : Nat} :
    Shaped t (.float v) → Shaped (convert .resize t w) (.float w)
  | arith {op : BinaryOp} {l r : Term} {w : Nat} :
    op.isArithmetic → op.isShift = false → Shaped l (.bits w) → Shaped r (.bits w) →
      Shaped (binary op l r) (.bits w)
  | shift {op : BinaryOp} {l r : Term} {v w : Nat} :
    op.isShift → Shaped l (.bits w) → Shaped r (.bits v) → Shaped (binary op l r) (.bits w)
  | compare {op : BinaryOp} {l r : Term} {v : Nat} :
    op.isCompare → Shaped l (.bits v) → Shaped r (.bits v) → Shaped (binary op l r) (.bits 1)
  | floatArith {op : FloatOp} {l r : Term} {w : Nat} :
    op ∈ FloatOp.arithmetic → op.isUnary = false → Shaped l (.float w) → Shaped r (.float w) →
      Shaped (float op l r) (.float w)
  | neg {t : Term} {w : Nat} : Shaped t (.float w) → Shaped (float .neg t hole) (.float w)
  | floatCompare {op : FloatOp} {l r : Term} {v : Nat} :
    op.isCompare → Shaped l (.float v) → Shaped r (.float v) → Shaped (float op l r) (.bits 1)
  | ite {c y n : Term} {s : Shape} :
    Shaped c (.bits 1) → Shaped y s → Shaped n s → Shaped (ite c y n) s

def Builds (s : Shape) (e : Except Defect Term) : Prop := ∃ t, e = .ok t ∧ t.Shaped s

variable {w v : Nat} {s : Shape} {t l r : Term} {op : BinaryOp} {e : Except Defect Term}

namespace Shaped

theorem width (h : t.Shaped s) : t.width = .ok s.width := by
  induction h with
  | const | fconst | extract | cast | ofSigned | toSigned | resize => rfl
  | var hk => simp [Term.width, Kind.width, Kind.width_of_shape hk]
  | not _ ih => exact ih
  | arith ha _ _ _ ih _ => simp [Term.width, BinaryOp.isCompare_of_isArithmetic ha, ih]
  | shift hs _ _ ih _ => simp [Term.width, BinaryOp.isCompare_of_isShift hs, ih]
  | compare hc => simp [Term.width, hc, Shape.width]
  | @floatArith op _ _ _ ha _ _ _ ih _ =>
    have hc : op.isCompare = false := by
      revert ha
      cases op <;> simp [FloatOp.arithmetic, FloatOp.isCompare]
    simp [Term.width, hc, ih]
  | neg _ ih => exact ih
  | floatCompare hc => simp [Term.width, hc, Shape.width]
  | ite _ _ _ _ ih _ => exact ih

theorem isProper (h : t.Shaped s) : s.IsProper := by
  induction h with
  | const hp hl => exact ⟨hp, hl⟩
  | var hk => exact Kind.shape_isProper hk
  | extract _ hw ho ih =>
    have := ih.2
    exact ⟨hw, by omega⟩
  | cast _ hv hl ih => exact ⟨Nat.lt_of_lt_of_le ih.1 hv, hl⟩
  | toSigned _ hp hl => exact ⟨hp, hl⟩
  | not _ ih => exact ih
  | arith _ _ _ _ ih _ => exact ih
  | shift _ _ _ ih _ => exact ih
  | compare | floatCompare => exact ⟨by decide, by decide⟩
  | ite _ _ _ _ ih _ => exact ih
  | fconst | ofSigned | resize | floatArith | neg => trivial

theorem pos (h : t.Shaped (.bits w)) : 0 < w := h.isProper.1

theorem le (h : t.Shaped (.bits w)) : w ≤ 64 := h.isProper.2

theorem builds (h : t.Shaped s) : Builds s (.ok t) := ⟨t, rfl, h⟩

theorem eq_ofBits {c : Literal} (h : (Term.const c).Shaped (.bits w)) :
    ∃ x : BitVec w, c = ofBits x := by
  cases h with
  | const _ _ hv => exact ⟨BitVec.ofNat _ c.value, by simp [ofBits, Nat.mod_eq_of_lt hv]⟩

theorem const_or (h : t.Shaped (.bits w)) :
    (∃ x : BitVec w, t = Term.const (ofBits x)) ∨ t.isConstant = false := by
  cases t with
  | const c =>
    obtain ⟨x, rfl⟩ := h.eq_ofBits
    exact .inl ⟨x, rfl⟩
  | fconst => cases h
  | _ => exact .inr rfl

theorem fconst_or (h : t.Shaped (.float w)) :
    (∃ c : FloatLiteral, c.width = w ∧ t = Term.fconst c) ∨ t.isConstant = false := by
  cases t with
  | fconst c =>
    cases h
    exact .inl ⟨c, rfl, rfl⟩
  | const => cases h
  | _ => exact .inr rfl

theorem arith_inv (ha : op.isArithmetic) (hs : op.isShift = false)
    (h : (binary op l r).Shaped (.bits w)) : l.Shaped (.bits w) ∧ r.Shaped (.bits w) := by
  cases h with
  | arith _ _ hl hr => exact ⟨hl, hr⟩
  | shift hs' => simp [hs] at hs'
  | compare hc => simp [BinaryOp.isCompare_of_isArithmetic ha] at hc

theorem compare_inv (hc : op.isCompare) (h : (binary op l r).Shaped s) :
    s = .bits 1 ∧ ∃ v, l.Shaped (.bits v) ∧ r.Shaped (.bits v) := by
  cases h with
  | arith ha => simp [BinaryOp.isCompare_of_isArithmetic ha] at hc
  | shift hs => simp [BinaryOp.isCompare_of_isShift hs] at hc
  | compare _ hl hr => exact ⟨rfl, _, hl, hr⟩

end Shaped

theorem shaped_const (hw : 0 < w) (hl : w ≤ 64) (x : BitVec w) :
    (const (ofBits x)).Shaped (.bits w) :=
  .const hw hl x.isLt

theorem shaped_ofNat (hw : 0 < w) (hl : w ≤ 64) (n : Nat) :
    (const (.ofNat n w)).Shaped (.bits w) := by
  rw [ofNat_eq hl]
  exact shaped_const hw hl _

theorem shaped_ofBool (b : Bool) : (ofBool b).Shaped (.bits 1) := by
  rw [ofBool, ofBool_eq]
  exact shaped_const (by decide) (by decide) _

theorem commonWidth_shaped (op : BinaryOp) (hl : l.Shaped (.bits w)) (hr : r.Shaped (.bits w)) :
    commonWidth op l r = .ok w := by
  simp [commonWidth, hl.width, hr.width, Shape.width]

theorem builds_of_swap {f : Term → Term → Except Defect Term}
    (left : ∀ (x : BitVec w) (t : Term), t.Shaped (.bits w) → Builds s (f (const (ofBits x)) t))
    (swap : ∀ (x : BitVec w) (t : Term), t.isConstant = false →
      f t (const (ofBits x)) = f (const (ofBits x)) t)
    (plain : ∀ l r : Term, l.isConstant = false → r.isConstant = false → l.Shaped (.bits w) →
      r.Shaped (.bits w) → Builds s (f l r))
    (hl : l.Shaped (.bits w)) (hr : r.Shaped (.bits w)) : Builds s (f l r) := by
  rcases hl.const_or with ⟨x, rfl⟩ | hcl
  · exact left x r hr
  · rcases hr.const_or with ⟨y, rfl⟩ | hcr
    · rw [swap y l hcl]
      exact left y l hl
    · exact plain l r hcl hcr hl hr

theorem builds_of_fold {f : Term → Term → Term} {g : BitVec w → BitVec w → BitVec w}
    (fold : ∀ x y : BitVec w, f (const (ofBits x)) (const (ofBits y)) = const (ofBits (g x y)))
    (left : ∀ (x : BitVec w) (t : Term), t.isConstant = false →
      (const (ofBits x)).Shaped (.bits w) → t.Shaped (.bits w) →
        Builds (.bits w) (.ok (f (const (ofBits x)) t)))
    (swap : ∀ (x : BitVec w) (t : Term), t.isConstant = false →
      f t (const (ofBits x)) = f (const (ofBits x)) t)
    (plain : ∀ l r : Term, l.isConstant = false → r.isConstant = false → l.Shaped (.bits w) →
      r.Shaped (.bits w) → Builds (.bits w) (.ok (f l r)))
    (hl : l.Shaped (.bits w)) (hr : r.Shaped (.bits w)) : Builds (.bits w) (.ok (f l r)) := by
  apply builds_of_swap (f := fun l r => .ok (f l r)) _ _ plain hl hr
  · intro x t ht
    rcases ht.const_or with ⟨y, rfl⟩ | hc
    · rw [fold]
      exact (shaped_const ht.pos ht.le _).builds
    · exact left x t hc (shaped_const ht.pos ht.le x) ht
  · exact fun x t hc => congrArg _ (swap x t hc)

theorem mkXor_builds (hl : l.Shaped (.bits w)) (hr : r.Shaped (.bits w)) :
    Builds (.bits w) (.ok (mkXor l r)) := by
  apply builds_of_fold (mkXor_const hl.le) _ _ _ hl hr
  · intro x t hc hx ht
    rw [mkXor_literal _ hc]
    split
    · exact ht.builds
    · exact (Shaped.arith rfl rfl hx ht).builds
  · exact fun x t hc => mkXor_swap _ hc
  · intro l r hcl hcr hl hr
    rw [mkXor_plain hcl hcr]
    exact (Shaped.arith rfl rfl hl hr).builds

theorem mkAnd_builds (hl : l.Shaped (.bits w)) (hr : r.Shaped (.bits w)) :
    Builds (.bits w) (.ok (mkAnd l r)) := by
  apply builds_of_fold (mkAnd_const hl.le) _ _ _ hl hr
  · intro x t hc hx ht
    rw [mkAnd_literal _ hc]
    split_ifs
    · exact ht.builds
    · exact hx.builds
    · exact (Shaped.arith rfl rfl ht hx).builds
  · exact fun x t hc => mkAnd_swap _ hc
  · intro l r hcl hcr hl hr
    rw [mkAnd_plain hcl hcr]
    exact (Shaped.arith rfl rfl hl hr).builds

theorem mkOr_builds (hl : l.Shaped (.bits w)) (hr : r.Shaped (.bits w)) :
    Builds (.bits w) (.ok (mkOr l r)) := by
  apply builds_of_fold (mkOr_const hl.le) _ _ _ hl hr
  · intro x t hc hx ht
    rw [mkOr_literal _ hc]
    split_ifs
    · exact hx.builds
    · exact ht.builds
    · exact (Shaped.arith rfl rfl ht hx).builds
  · exact fun x t hc => mkOr_swap _ hc
  · intro l r hcl hcr hl hr
    rw [mkOr_plain hcl hcr]
    exact (Shaped.arith rfl rfl hl hr).builds

theorem mkMul_builds (hl : l.Shaped (.bits w)) (hr : r.Shaped (.bits w)) :
    Builds (.bits w) (.ok (mkMul w l r)) := by
  apply builds_of_fold (mkMul_const hl.le) _ _ _ hl hr
  · intro x t hc hx ht
    rw [mkMul_literal _ hc]
    split_ifs
    · exact mkAnd_builds hx ht
    · exact ht.builds
    · exact hx.builds
    · exact (Shaped.arith rfl rfl hx ht).builds
  · exact fun x t hc => mkMul_swap _ hc
  · intro l r hcl hcr hl hr
    rw [mkMul_plain hcl hcr]
    split
    · exact mkAnd_builds hl hr
    · exact (Shaped.arith rfl rfl hl hr).builds

theorem plus_builds_of (x : BitVec w) (ht : t.Shaped (.bits w)) (h : Builds (.bits w) e) :
    Builds (.bits w) (if w = 1 then .ok (mkXor (const (ofBits x)) t) else
      if x.toNat = 0 then .ok t else e) := by
  split_ifs
  · exact mkXor_builds (shaped_const ht.pos ht.le x) ht
  · exact ht.builds
  · exact h

theorem minus_builds_of (x : BitVec w) (ht : t.Shaped (.bits w)) (h : Builds (.bits w) e) :
    Builds (.bits w) (if w = 1 then .ok (mkXor (const (ofBits x)) t) else e) := by
  split_ifs
  · exact mkXor_builds (shaped_const ht.pos ht.le x) ht
  · exact h

theorem Shaped.ne_mixed (ht : t.Shaped (.bits w)) (op : BinaryOp) (k : FloatLiteral) (z : Term) :
    t ≠ binary op (Term.fconst k) z := by
  rintro rfl
  cases ht with
  | arith _ _ hl => cases hl
  | shift _ hl => cases hl
  | compare _ hl => cases hl

theorem plus_minus_builds (ht : t.Shaped (.bits w)) (x : BitVec w) :
    Builds (.bits w) (plus (ofBits x) t) ∧ Builds (.bits w) (minus (ofBits x) t) := by
  -- Both at once, since each turns to the other on a difference.
  induction hn : sizeOf t using Nat.strong_induction_on generalizing t x
  next n ih =>
  subst hn
  rcases headed ht.ne_mixed with ⟨d, rfl⟩ | ⟨k, z, rfl⟩ | ⟨k, z, rfl⟩ | ⟨hp, hm⟩
  · obtain ⟨y, rfl⟩ := ht.eq_ofBits
    rw [plus_const ht.le, minus_const ht.le]
    exact ⟨(shaped_const ht.pos ht.le _).builds, (shaped_const ht.pos ht.le _).builds⟩
  · obtain ⟨hk, hz⟩ := ht.arith_inv rfl rfl
    obtain ⟨y, rfl⟩ := hk.eq_ofBits
    have below := ih (sizeOf z) (by simp) hz
    rw [plus, minus, add_ofBits hz.le, sub_ofBits hz.le,
      commonWidth_shaped _ (shaped_const hz.pos hz.le (x + y)) hz,
      commonWidth_shaped _ (shaped_const hz.pos hz.le (x - y)) hz]
    exact ⟨plus_builds_of x ht (below (x + y) rfl).1, minus_builds_of x ht (below (x - y) rfl).2⟩
  · obtain ⟨hk, hz⟩ := ht.arith_inv rfl rfl
    obtain ⟨y, rfl⟩ := hk.eq_ofBits
    have below := ih (sizeOf z) (by simp) hz
    rw [plus, minus, add_ofBits hz.le, sub_ofBits hz.le,
      commonWidth_shaped _ (shaped_const hz.pos hz.le (x + y)) hz,
      commonWidth_shaped _ (shaped_const hz.pos hz.le (x - y)) hz]
    exact ⟨plus_builds_of x ht (below (x + y) rfl).2, minus_builds_of x ht (below (x - y) rfl).1⟩
  · have hx := shaped_const ht.pos ht.le x
    rw [hp, hm]
    exact ⟨plus_builds_of x ht (Shaped.arith rfl rfl hx ht).builds,
      minus_builds_of x ht (Shaped.arith rfl rfl hx ht).builds⟩

theorem mkAdd_builds (hl : l.Shaped (.bits w)) (hr : r.Shaped (.bits w)) :
    Builds (.bits w) (mkAdd w l r) := by
  apply builds_of_swap _ _ _ hl hr
  · intro x t ht
    rw [mkAdd_literal _ t]
    exact minus_builds_of x ht (plus_minus_builds ht x).1
  · exact fun x t hc => mkAdd_swap _ hc
  · intro l r hcl hcr hl hr
    rw [mkAdd_plain hcl hcr]
    split
    · exact mkXor_builds hl hr
    · exact (Shaped.arith rfl rfl hl hr).builds

theorem mkSub_builds (hl : l.Shaped (.bits w)) (hr : r.Shaped (.bits w)) :
    Builds (.bits w) (mkSub w l r) := by
  unfold mkSub
  split
  · exact (shaped_ofNat hl.pos hl.le 0).builds
  · split
    next =>
      obtain ⟨x, rfl⟩ := hl.eq_ofBits
      exact (plus_minus_builds hr x).2
    next =>
      obtain ⟨y, rfl⟩ := hr.eq_ofBits
      split
      · exact mkXor_builds hl hr
      · rw [ofNat_eq hl.le, sub_ofBits hl.le]
        exact (plus_minus_builds hl _).1
    next =>
      split
      · exact mkXor_builds hl hr
      · exact (Shaped.arith rfl rfl hl hr).builds

section Division

variable {fold : Literal → Literal → Except Defect Literal}
  (hf : ∀ x y : BitVec w, fold (ofBits x) (ofBits y) = .ok (ofBits (op.compute x y)))

include hf

theorem mkDiv_builds (ha : op.isArithmetic) (hs : op.isShift = false) (hl : l.Shaped (.bits w))
    (hr : r.Shaped (.bits w)) : Builds (.bits w) (mkDiv op fold l r) := by
  unfold mkDiv
  split
  next =>
    obtain ⟨x, rfl⟩ := hl.eq_ofBits
    obtain ⟨y, rfl⟩ := hr.eq_ofBits
    rw [hf]
    exact (shaped_const hl.pos hl.le _).builds
  next =>
    split
    · exact hl.builds
    · exact (Shaped.arith ha hs hl hr).builds
  next => exact (Shaped.arith ha hs hl hr).builds

theorem mkRem_builds (ha : op.isArithmetic) (hs : op.isShift = false) (hl : l.Shaped (.bits w))
    (hr : r.Shaped (.bits w)) : Builds (.bits w) (mkRem op fold l r) := by
  unfold mkRem
  split
  next =>
    obtain ⟨x, rfl⟩ := hl.eq_ofBits
    obtain ⟨y, rfl⟩ := hr.eq_ofBits
    rw [hf]
    exact (shaped_const hl.pos hl.le _).builds
  next =>
    obtain ⟨y, rfl⟩ := hr.eq_ofBits
    split
    · exact (shaped_ofNat hl.pos hl.le 0).builds
    · exact (Shaped.arith ha hs hl hr).builds
  next => exact (Shaped.arith ha hs hl hr).builds

end Division

theorem mkShift_builds {fold : Literal → Literal → Literal} (hs : op.isShift)
    (hf : ∀ (x : BitVec w) (y : BitVec v),
      fold (ofBits x) (ofBits y) = ofBits (op.move x y.toNat))
    (hl : l.Shaped (.bits w)) (hr : r.Shaped (.bits v)) :
    Builds (.bits w) (mkShift op fold l r) := by
  unfold mkShift
  split
  next =>
    obtain ⟨x, rfl⟩ := hl.eq_ofBits
    obtain ⟨y, rfl⟩ := hr.eq_ofBits
    rw [hf]
    exact (shaped_const hl.pos hl.le _).builds
  next =>
    split
    · exact hl.builds
    · exact (Shaped.shift hs hl hr).builds
  next => cases hr
  next => exact (Shaped.shift hs hl hr).builds

theorem equation_builds (ht : t.Shaped (.bits w)) (x : BitVec w) :
    Builds (.bits 1) (.ok (binary .eq (const (ofBits x)) t)) :=
  (Shaped.compare rfl (shaped_const ht.pos ht.le x) ht).builds

theorem mkEqLiteral_builds (ht : t.Shaped (.bits w)) (x : BitVec w) :
    Builds (.bits 1) (mkEqLiteral (ofBits x) t) := by
  induction t generalizing w with
  | const c => exact (shaped_ofBool _).builds
  | binary op a z _ ih =>
    unfold mkEqLiteral
    split
    next h => cases h
    next h =>
      cases h
      obtain ⟨hw, v, ha, hz⟩ := ht.compare_inv rfl
      obtain rfl : w = 1 := by simpa using hw
      split_ifs with _ _ hf
      · exact ht.builds
      · obtain rfl := eq_of_isFalse hf
        cases ha
        exact hz.builds
      · exact equation_builds ht x
      · exact equation_builds ht x
    next k z h =>
      cases h
      obtain ⟨hk, hz⟩ := ht.arith_inv rfl rfl
      obtain ⟨y, rfl⟩ := hk.eq_ofBits
      have hs := shaped_const hz.pos hz.le (x - y)
      simp only [sub_ofBits hz.le, commonWidth_shaped _ hs hz]
      exact ih hz (x - y)
    next k z h =>
      cases h
      cases (ht.arith_inv rfl rfl).1
    next h => cases h
    next => exact equation_builds ht x
  | cast u z signed ih =>
    rw [mkEqLiteral]
    cases ht with
    | @cast _ v _ _ hs hv hl =>
      simp only [hs.width, ok_bind, Shape.width, extract_ofBits hl hs.le]
      have narrowed := ih hs (x.extractLsb' 0 v)
      split_ifs
      · exact narrowed
      · exact (shaped_ofBool false).builds
      · exact narrowed
      · exact (shaped_ofBool false).builds
  | fconst | hole => cases ht
  | _ => exact equation_builds ht x

theorem mkEq_builds (hl : l.Shaped (.bits w)) (hr : r.Shaped (.bits w)) :
    Builds (.bits 1) (mkEq l r) := by
  apply builds_of_swap _ _ _ hl hr
  · intro x t ht
    rw [mkEq_literal _ t]
    exact mkEqLiteral_builds ht x
  · exact fun x t hc => mkEq_swap _ hc
  · intro l r hcl hcr hl hr
    rw [mkEq_plain hcl hcr]
    split
    · exact (shaped_ofBool true).builds
    · exact (Shaped.compare rfl hl hr).builds

theorem mkIsZero_builds (ht : t.Shaped (.bits w)) : Builds (.bits 1) (mkIsZero t) := by
  rw [mkIsZero, ht.width, ok_bind]
  exact mkEq_builds ht (shaped_ofNat ht.pos ht.le 0)

theorem checkedAnd_builds (hl : l.Shaped (.bits w)) (hr : r.Shaped (.bits w)) :
    Builds (.bits w) (checkedAnd l r) := by
  rw [checkedAnd, commonWidth_shaped _ hl hr, ok_bind]
  exact mkAnd_builds hl hr

theorem checkedOr_builds (hl : l.Shaped (.bits w)) (hr : r.Shaped (.bits w)) :
    Builds (.bits w) (checkedOr l r) := by
  rw [checkedOr, commonWidth_shaped _ hl hr, ok_bind]
  exact mkOr_builds hl hr

theorem Builds.bind {u : Shape} {f : Term → Except Defect Term} (h : Builds s e)
    (hf : ∀ t, t.Shaped s → Builds u (f t)) : Builds u (e >>= f) := by
  obtain ⟨t, rfl, ht⟩ := h
  exact hf t ht

theorem order_builds (hc : op.isCompare) (hl : l.Shaped (.bits w)) (hr : r.Shaped (.bits w))
    (bits : w = 1 → Builds (.bits 1) e) :
    Builds (.bits 1) (if w = 1 then e else .ok (binary op l r)) := by
  split
  next hw => exact bits hw
  next => exact (Shaped.compare hc hl hr).builds

theorem mkUlt_builds (hl : l.Shaped (.bits w)) (hr : r.Shaped (.bits w)) :
    Builds (.bits 1) (mkUlt w l r) := by
  unfold mkUlt
  split
  · exact (shaped_ofBool _).builds
  · refine order_builds rfl hl hr fun hw => ?_
    subst hw
    exact (mkIsZero_builds hl).bind fun z hz => checkedAnd_builds hz hr

theorem mkUle_builds (hl : l.Shaped (.bits w)) (hr : r.Shaped (.bits w)) :
    Builds (.bits 1) (mkUle w l r) := by
  unfold mkUle
  split
  · exact (shaped_ofBool _).builds
  · refine order_builds rfl hl hr fun hw => ?_
    subst hw
    exact (mkIsZero_builds hl).bind fun z hz => checkedOr_builds hz hr

theorem mkSlt_builds (hl : l.Shaped (.bits w)) (hr : r.Shaped (.bits w)) :
    Builds (.bits 1) (mkSlt w l r) := by
  unfold mkSlt
  split
  · exact (shaped_ofBool _).builds
  · refine order_builds rfl hl hr fun hw => ?_
    subst hw
    exact (mkIsZero_builds hr).bind fun z hz => checkedAnd_builds hl hz

theorem mkSle_builds (hl : l.Shaped (.bits w)) (hr : r.Shaped (.bits w)) :
    Builds (.bits 1) (mkSle w l r) := by
  unfold mkSle
  split
  · exact (shaped_ofBool _).builds
  · refine order_builds rfl hl hr fun hw => ?_
    subst hw
    exact (mkIsZero_builds hr).bind fun z hz => checkedOr_builds hl hz

theorem mkBinary_builds_arith (ha : op.isArithmetic) (hs : op.isShift = false)
    (hl : l.Shaped (.bits w)) (hr : r.Shaped (.bits w)) : Builds (.bits w) (mkBinary op l r) := by
  have e := commonWidth_shaped op hl hr
  cases op with
  | add => simp only [mkBinary, e]; exact mkAdd_builds hl hr
  | sub => simp only [mkBinary, e]; exact mkSub_builds hl hr
  | mul => simp only [mkBinary, e]; exact mkMul_builds hl hr
  | and => simp only [mkBinary, e]; exact mkAnd_builds hl hr
  | or => simp only [mkBinary, e]; exact mkOr_builds hl hr
  | xor => simp only [mkBinary, e]; exact mkXor_builds hl hr
  | udiv =>
    simp only [mkBinary, e]
    exact mkDiv_builds (fun x y => congrArg _ (udiv_ofBits hl.le x y)) rfl rfl hl hr
  | sdiv =>
    simp only [mkBinary, e]
    exact mkDiv_builds (sdiv_ofBits hl.pos hl.le) rfl rfl hl hr
  | urem =>
    simp only [mkBinary, e]
    exact mkRem_builds (fun x y => congrArg _ (urem_ofBits hl.le x y)) rfl rfl hl hr
  | srem =>
    simp only [mkBinary, e]
    exact mkRem_builds (srem_ofBits hl.pos hl.le) rfl rfl hl hr
  | _ => simp_all [BinaryOp.isArithmetic, BinaryOp.isShift]

theorem mkBinary_builds_shift (hs : op.isShift) (hl : l.Shaped (.bits w))
    (hr : r.Shaped (.bits v)) : Builds (.bits w) (mkBinary op l r) := by
  cases op with
  | shl => exact mkShift_builds rfl (shl_ofBits hl.le) hl hr
  | lshr => exact mkShift_builds rfl (lshr_ofBits hl.le) hl hr
  | ashr => exact mkShift_builds rfl (ashr_ofBits hl.pos hl.le) hl hr
  | _ => simp [BinaryOp.isShift] at hs

theorem mkNe_builds (hl : l.Shaped (.bits w)) (hr : r.Shaped (.bits w)) :
    Builds (.bits 1) (mkBinary .ne l r) := by
  simp only [mkBinary, commonWidth_shaped _ hl hr, ok_bind]
  refine (mkEq_builds hl hr).bind fun z hz => ?_
  have h0 := shaped_ofNat (w := 1) (by decide) (by decide) 0
  rw [commonWidth_shaped _ h0 hz]
  exact mkEq_builds h0 hz

theorem mkBinary_builds_compare (hc : op.isCompare) (hl : l.Shaped (.bits w))
    (hr : r.Shaped (.bits w)) : Builds (.bits 1) (mkBinary op l r) := by
  have e := commonWidth_shaped op hl hr
  cases op with
  | eq => simp only [mkBinary, e]; exact mkEq_builds hl hr
  | ne => exact mkNe_builds hl hr
  | ult => simp only [mkBinary, e]; exact mkUlt_builds hl hr
  | ule => simp only [mkBinary, e]; exact mkUle_builds hl hr
  | slt => simp only [mkBinary, e]; exact mkSlt_builds hl hr
  | sle => simp only [mkBinary, e]; exact mkSle_builds hl hr
  | ugt => simp only [mkBinary, e]; exact mkUlt_builds hr hl
  | uge => simp only [mkBinary, e]; exact mkUle_builds hr hl
  | sgt => simp only [mkBinary, e]; exact mkSlt_builds hr hl
  | sge => simp only [mkBinary, e]; exact mkSle_builds hr hl
  | _ => simp [BinaryOp.isCompare] at hc

theorem mkNot_builds (ht : t.Shaped (.bits w)) : Builds (.bits w) (.ok (mkNot t)) := by
  cases t with
  | const c =>
    obtain ⟨x, rfl⟩ := ht.eq_ofBits
    rw [mkNot_const ht.le]
    exact (shaped_const ht.pos ht.le _).builds
  | not s =>
    cases ht with
    | not hs => exact hs.builds
  | _ => exact ht.not.builds

theorem mkIte_builds {c y n : Term} (hc : c.Shaped (.bits 1)) (hy : y.Shaped s)
    (hn : n.Shaped s) : Builds s (mkIte c y n) := by
  simp only [mkIte, hc.width, ok_bind, Shape.width, ne_eq, not_true_eq_false, if_false]
  split
  next =>
    split
    · exact hy.builds
    · exact hn.builds
  next =>
    split_ifs with hs ht
    · exact hy.builds
    · -- Only a bit is the true literal.
      obtain ⟨h1, -⟩ := Bool.and_eq_true_iff.mp ht
      cases hy with
      | @const c hp hl hv =>
        have hw : c.width = 1 := by
          simp only [isTrue, Literal.isTrue, Bool.and_eq_true, beq_iff_eq] at h1
          exact h1.1
        rw [hw]
        exact hc.builds
      | _ => simp [isTrue] at h1
    · exact (Shaped.ite hc hy hn).builds

theorem mkExtract_builds {o u : Nat} (ht : t.Shaped (.bits v)) (hu : 0 < u) (ho : o + u ≤ v) :
    Builds (.bits u) (mkExtract t o u) := by
  induction hn : sizeOf t using Nat.strong_induction_on generalizing t o v
  next n ih =>
  subst hn
  have plain := (Shaped.extract ht hu ho).builds
  unfold mkExtract
  simp only [ht.width, ok_bind, Shape.width, offsetSum_eq (Nat.le_trans ho ht.le),
    Nat.not_lt.mpr ho, Nat.ne_of_gt hu, if_false]
  by_cases hv : u = v
  · rw [if_pos hv, hv]
    exact ht.builds
  · rw [if_neg hv]
    split
    next =>
      obtain ⟨x, rfl⟩ := ht.eq_ofBits
      have hl := ht.le
      rw [extract_ofBits hl (by omega)]
      exact (shaped_const hu (by omega) _).builds
    next z k _ =>
      cases ht with
      | extract hs hw hk =>
        have hl := hs.le
        rw [offsetSum_eq (by omega)]
        exact ih (sizeOf z) (by simp; omega) hs (o := k + o) (by omega) rfl
    next z _ _ =>
      cases ht with
      | cast hs hsv hl =>
        split
        next h0 =>
          subst h0
          simp only [hs.width, ok_bind, Shape.width]
          split_ifs with he hlt
          · rw [he]
            exact hs.builds
          · exact ih (sizeOf z) (by simp; omega) hs (o := 0) (by omega) rfl
          · exact plain
        next => exact plain
    next => exact plain

theorem mkCast_builds {u : Nat} {signed : Bool} (ht : t.Shaped (.bits w)) (hu : 0 < u)
    (hl : u ≤ 64) : Builds (.bits u) (mkCast t u signed) := by
  rcases ht.const_or with ⟨x, rfl⟩ | hc
  · rw [mkCast_const ht.pos ht.le hu hl]
    exact (shaped_const hu hl _).builds
  · have e : mkCast t u signed = if u = w then .ok t else
        if u < w then mkExtract t 0 u else .ok (cast t u signed) := by
      simp only [mkCast, ht.width, ok_bind, Shape.width]
      cases t <;> first | rfl | simp [isConstant] at hc
    rw [e]
    split_ifs with he hlt
    · rw [he]
      exact ht.builds
    · exact mkExtract_builds ht hu (by omega)
    · exact (ht.cast (by omega) hl).builds

end Term

end Concolic
