import Mathlib
import Concolic.Proofs.Safety.Shape
import Concolic.Proofs.Symbolic

namespace Concolic

namespace Term

open Literal

/-- An operand of a shape, which is a literal wherever `p` holds. -/
structure Operand (p : Prop) (s : Shape) (t : Term) : Prop where
  shaped : t.Shaped s
  literal : p → t.isConstant

def Forms (p : Prop) (s : Shape) (e : Except Defect Term) : Prop := ∃ t, e = .ok t ∧ Operand p s t

variable {p : Prop} {w v u : Nat} {s : Shape} {t l r : Term} {op : BinaryOp}
  {e : Except Defect Term}

namespace Operand

theorem forms (h : Operand p s t) : Forms p s (.ok t) := ⟨t, rfl, h⟩

theorem eq_const (h : Operand p (.bits w) t) (hp : p) : ∃ x : BitVec w, t = .const (ofBits x) :=
  h.shaped.const_or.resolve_right (by simp [h.literal hp])

theorem eq_fconst (h : Operand p (.float w) t) (hp : p) :
    ∃ c : FloatLiteral, c.width = w ∧ t = .fconst c :=
  h.shaped.fconst_or.resolve_right (by simp [h.literal hp])

theorem made {s' : Shape} {t' : Term} (h : Operand p s t) (hc : t.isConstant = false)
    (ht : t'.Shaped s') : Operand p s' t' :=
  ⟨ht, fun hp => by simp [h.literal hp] at hc⟩

theorem const (hw : 0 < w) (hl : w ≤ 64) (n : Nat) : Operand p (.bits w) (.const (.ofNat n w)) :=
  ⟨shaped_ofNat hw hl n, fun _ => rfl⟩

end Operand

theorem Forms.bind {s' : Shape} {f : Term → Except Defect Term} (h : Forms p s e)
    (hf : ∀ t, Operand p s t → Forms p s' (f t)) : Forms p s' (e >>= f) := by
  obtain ⟨t, rfl, ht⟩ := h
  exact hf t ht

theorem Builds.forms (h : Builds s e) (hc : p → ∃ t, e = .ok t ∧ t.isConstant) : Forms p s e := by
  obtain ⟨t, rfl, ht⟩ := h
  refine ⟨t, rfl, ht, fun hp => ?_⟩
  obtain ⟨t', h', hc'⟩ := hc hp
  cases h'
  exact hc'

theorem mkBinary_forms_arith (ha : op.isArithmetic) (hs : op.isShift = false)
    (hl : Operand p (.bits w) l) (hr : Operand p (.bits w) r) :
    Forms p (.bits w) (mkBinary op l r) := by
  apply (mkBinary_builds_arith ha hs hl.shaped hr.shaped).forms
  intro hp
  obtain ⟨x, rfl⟩ := hl.eq_const hp
  obtain ⟨y, rfl⟩ := hr.eq_const hp
  exact ⟨_, mkBinary_compute hl.shaped.pos hl.shaped.le ha hs x y, rfl⟩

theorem mkBinary_forms_shift (hs : op.isShift) (hl : Operand p (.bits w) l)
    (hr : Operand p (.bits v) r) : Forms p (.bits w) (mkBinary op l r) := by
  apply (mkBinary_builds_shift hs hl.shaped hr.shaped).forms
  intro hp
  obtain ⟨x, rfl⟩ := hl.eq_const hp
  obtain ⟨y, rfl⟩ := hr.eq_const hp
  exact ⟨_, mkBinary_move hl.shaped.pos hl.shaped.le hs x y, rfl⟩

theorem mkBinary_forms_compare (hc : op.isCompare) (hl : Operand p (.bits w) l)
    (hr : Operand p (.bits w) r) : Forms p (.bits 1) (mkBinary op l r) := by
  apply (mkBinary_builds_compare hc hl.shaped hr.shaped).forms
  intro hp
  obtain ⟨x, rfl⟩ := hl.eq_const hp
  obtain ⟨y, rfl⟩ := hr.eq_const hp
  exact ⟨_, mkBinary_test hl.shaped.pos hl.shaped.le hc x y, rfl⟩

theorem mkNot_forms (ht : Operand p (.bits w) t) : Forms p (.bits w) (.ok (mkNot t)) := by
  apply (mkNot_builds ht.shaped).forms
  intro hp
  obtain ⟨x, rfl⟩ := ht.eq_const hp
  exact ⟨_, rfl, rfl⟩

theorem mkIte_forms {c y n : Term} (hc : Operand p (.bits 1) c) (hy : Operand p s y)
    (hn : Operand p s n) : Forms p s (mkIte c y n) := by
  obtain ⟨t, ht, hs⟩ := mkIte_builds hc.shaped hy.shaped hn.shaped
  refine ⟨t, ht, hs, fun hp => ?_⟩
  obtain ⟨x, rfl⟩ := hc.eq_const hp
  exact mkIte_const ht (hy.literal hp) (hn.literal hp)

theorem mkExtract_forms (ht : Operand p (.bits w) t) (hu : 0 < u) (hw : u ≤ w) :
    Forms p (.bits u) (mkExtract t 0 u) := by
  apply (mkExtract_builds ht.shaped hu (by omega)).forms
  intro hp
  obtain ⟨x, rfl⟩ := ht.eq_const hp
  exact ⟨_, mkExtract_const ht.shaped.le hu x (by omega), rfl⟩

theorem mkCast_forms {signed : Bool} (ht : Operand p (.bits w) t) (hu : 0 < u) (hl : u ≤ 64) :
    Forms p (.bits u) (mkCast t u signed) := by
  apply (mkCast_builds ht.shaped hu hl).forms
  intro hp
  obtain ⟨x, rfl⟩ := ht.eq_const hp
  exact ⟨_, mkCast_const ht.shaped.pos ht.shaped.le hu hl x signed, rfl⟩

theorem width_compute (f : Ieee.Format → Nat → Nat → Nat) (a b : FloatLiteral) :
    (FloatLiteral.compute f a b).width = a.width := by
  unfold FloatLiteral.compute
  split
  next h => exact h.symm
  next => rfl

theorem apply_forms_arith {op : FloatOp} (ha : op ∈ FloatOp.arithmetic) (hu : op.isUnary = false)
    (a b : FloatLiteral) : Forms p (.float a.width) (FloatLiteral.apply op a b) := by
  have node : ∀ c : FloatLiteral, c.width = a.width → Forms p (.float a.width) (.ok (fconst c)) :=
    fun c hc => Operand.forms ⟨hc ▸ .fconst, fun _ => rfl⟩
  cases op with
  | add | sub | mul | div => exact node _ (width_compute _ a b)
  | rem => exact node _ rfl
  | _ => simp [FloatOp.arithmetic, FloatOp.isUnary] at ha hu

theorem apply_forms_compare {op : FloatOp} (hc : op.isCompare) (a b : FloatLiteral) :
    Forms p (.bits 1) (FloatLiteral.apply op a b) := by
  cases op with
  | eq | lt | le => exact Operand.forms ⟨shaped_ofBool _, fun _ => rfl⟩
  | _ => simp [FloatOp.isCompare] at hc

theorem mkFloat_forms {op : FloatOp} (hu : op.isUnary = false) (hl : Operand p (.float w) l)
    (hr : Operand p (.float w) r)
    (folded : ∀ a b : FloatLiteral, a.width = w → Forms p s (FloatLiteral.apply op a b))
    (kept : (float op l r).Shaped s) : Forms p s (mkFloat op l r) := by
  unfold mkFloat
  simp only [hu, Bool.false_eq_true, hl.shaped.width, hr.shaped.width, ok_bind, Shape.width, ne_eq,
    not_true_eq_false, if_false]
  rcases hl.shaped.fconst_or with ⟨a, ha, rfl⟩ | hcl
  · rcases hr.shaped.fconst_or with ⟨b, -, rfl⟩ | hcr
    · exact folded a b ha
    · refine ⟨_, ?_, hr.made hcr kept⟩
      cases r <;> first | rfl | simp [isConstant] at hcr
  · refine ⟨_, ?_, hl.made hcl kept⟩
    cases l <;> first | rfl | simp [isConstant] at hcl

theorem mkFloat_forms_arith {op : FloatOp} (ha : op ∈ FloatOp.arithmetic)
    (hu : op.isUnary = false) (hl : Operand p (.float w) l) (hr : Operand p (.float w) r) :
    Forms p (.float w) (mkFloat op l r) := by
  apply mkFloat_forms hu hl hr
  · rintro a b rfl
    exact apply_forms_arith ha hu a b
  · exact .floatArith ha hu hl.shaped hr.shaped

theorem mkFloat_forms_compare {op : FloatOp} (hc : op.isCompare) (hl : Operand p (.float w) l)
    (hr : Operand p (.float w) r) : Forms p (.bits 1) (mkFloat op l r) := by
  have hu : op.isUnary = false := by
    cases op <;> first | rfl | simp [FloatOp.isCompare] at hc
  apply mkFloat_forms hu hl hr
  · exact fun a b _ => apply_forms_compare hc a b
  · exact .floatCompare hc hl.shaped hr.shaped

theorem mkFloat_forms_neg (hl : Operand p (.float w) l) :
    Forms p (.float w) (mkFloat .neg l hole) := by
  unfold mkFloat
  simp only [FloatOp.isUnary, isHole, if_true, Bool.not_true, Bool.false_eq_true, if_false]
  split
  next a =>
    cases hl.shaped
    exact Operand.forms ⟨.fconst, fun _ => rfl⟩
  next src _ =>
    cases hl.shaped with
    | neg hs => exact (hl.made rfl hs).forms
    | floatArith _ hu => simp [FloatOp.isUnary] at hu
  next hf _ =>
    refine Operand.forms ⟨.neg hl.shaped, fun hp => ?_⟩
    obtain ⟨c, -, rfl⟩ := hl.eq_fconst hp
    exact absurd rfl (hf c)

theorem ofDouble_ok (hu : u = 32 ∨ u = 64) (n : Nat) :
    ∃ c : FloatLiteral, FloatLiteral.ofDouble n u = .ok c ∧ c.width = u :=
  ⟨_, if_pos hu, rfl⟩

theorem ofSigned_ok (hu : u = 32 ∨ u = 64) (a : Literal) :
    ∃ c : FloatLiteral, FloatLiteral.ofSigned a u = .ok c ∧ c.width = u := by
  unfold FloatLiteral.ofSigned
  split
  next h => exact ⟨_, rfl, h.symm⟩
  next => exact ofDouble_ok hu _

theorem mkConvert_forms_ofSigned (hu : u = 32 ∨ u = 64) (ht : Operand p (.bits w) t) :
    Forms p (.float u) (mkConvert .ofSigned t u) := by
  rcases ht.shaped.const_or with ⟨x, rfl⟩ | hc
  · obtain ⟨c, hc, rfl⟩ := ofSigned_ok hu (ofBits x)
    refine ⟨.fconst c, ?_, .fconst, fun _ => rfl⟩
    simp [mkConvert, hc]
  · refine ⟨convert .ofSigned t u, ?_, ht.made hc (.ofSigned ht.shaped)⟩
    cases t <;> first | rfl | simp [isConstant] at hc

theorem mkConvert_forms_toSigned (hu : u = 32 ∨ u = 64) (ht : Operand p (.float w) t) :
    Forms p (.bits u) (mkConvert .toSigned t u) := by
  have hb : 0 < u ∧ u ≤ 64 := by omega
  rcases ht.shaped.fconst_or with ⟨c, -, rfl⟩ | hc
  · refine ⟨.const (.ofInt (Ieee.double.toInt u c.pattern) u), ?_, ?_, fun _ => rfl⟩
    · simp [mkConvert, FloatLiteral.toSigned, hu]
    · rw [ofInt_eq hb.2]
      exact shaped_const hb.1 hb.2 _
  · refine ⟨convert .toSigned t u, ?_, ht.made hc (.toSigned ht.shaped hb.1 hb.2)⟩
    cases t <;> first | rfl | simp [isConstant] at hc

theorem mkConvert_forms_resize (hu : u = 32 ∨ u = 64) (ht : Operand p (.float w) t) :
    Forms p (.float u) (mkConvert .resize t u) := by
  simp only [mkConvert, ht.shaped.width, ok_bind, Shape.width]
  split
  next h => exact h ▸ ht.forms
  next =>
    rcases ht.shaped.fconst_or with ⟨c, -, rfl⟩ | hc
    · obtain ⟨d, hd, rfl⟩ := ofDouble_ok hu c.pattern
      refine ⟨.fconst d, ?_, .fconst, fun _ => rfl⟩
      simp [hd]
    · refine ⟨convert .resize t u, ?_, ht.made hc (.resize ht.shaped)⟩
      cases t <;> first | rfl | simp [isConstant] at hc

end Term

namespace Operation

open Term Literal

variable {p : Prop} {w v : Nat} {op : Operation} {k k' kind : Kind} {s s' u : Shape} {l r : Term}

theorem buildShift_forms {b : BinaryOp} (hs : b.isShift) (hl : Operand p (.bits w) l)
    (hr : Operand p (.bits v) r) : Forms p (.bits w) (buildShift b w l r) := by
  have hw := hl.shaped.isProper
  refine (mkCast_forms hr hw.1 hw.2).bind fun c hc => ?_
  refine (mkBinary_forms_arith rfl rfl hc (.const hw.1 hw.2 _)).bind fun a ha => ?_
  exact mkBinary_forms_shift hs hl ha

theorem buildInteger_forms (ha : op.isArithmetic) (hw : k.width? = some w)
    (hl : Operand p (.bits w) l) (hr : Operand p (.bits v) r)
    (hv : v = w ∨ op ∈ [.neg, .shl, .shr, .ushr]) :
    Forms p (.bits w) (buildInteger op k l r) := by
  have e : k.width = .ok w := by simp [Kind.width, hw]
  have hb := hl.shaped.isProper
  unfold buildInteger
  simp only [e, ok_bind]
  cases op with
  | add | sub | mul | div | rem | and | or | xor =>
    obtain rfl : v = w := by simpa using hv
    exact mkBinary_forms_arith rfl rfl hl hr
  | neg => exact mkBinary_forms_arith rfl rfl (.const hb.1 hb.2 0) hl
  | shl | shr | ushr => exact buildShift_forms rfl hl hr
  | _ => simp [isArithmetic] at ha

theorem buildFloat_forms (ha : op = .neg ∨ op ∈ [.add, .sub, .mul, .div, .rem])
    (hl : Operand p (.float w) l) (hr : op ≠ .neg → Operand p (.float w) r) :
    Forms p (.float w) (buildFloat op l r) := by
  cases op with
  | add | sub | mul | div | rem => exact mkFloat_forms_arith (by decide) rfl hl (hr (by simp))
  | neg => exact mkFloat_forms_neg hl
  | _ => simp at ha

theorem buildCompare_forms (hk : k.shape? = some s) (hl : Operand p s l) (hr : Operand p s r) :
    Forms p (.bits 1) (buildCompare op k l r) := by
  obtain ⟨w, -, rfl⟩ := Option.map_eq_some_iff.mp hk
  unfold buildCompare
  cases hf : k.isFloat with
  | true =>
    simp only [hf, if_true] at hl hr ⊢
    cases op with
    | eq | lt | le => exact mkFloat_forms_compare rfl hl hr
    | ne => exact (mkFloat_forms_compare rfl hl hr).bind fun t ht => mkNot_forms ht
    | _ => exact mkFloat_forms_compare rfl hr hl
  | false =>
    simp only [hf, Bool.false_eq_true, if_false] at hl hr ⊢
    cases op <;> cases k.isSigned <;> exact mkBinary_forms_compare rfl hl hr

theorem buildThreeWay_forms (hk : k.shape? = some s) (hop : op = .cmp ∧ k.isFloat = false ∨
    op ≠ .cmp ∧ k.isFloat) (hl : Operand p s l) (hr : Operand p s r) :
    Forms p (.bits 32) (buildThreeWay op l r) := by
  obtain ⟨w, -, rfl⟩ := Option.map_eq_some_iff.mp hk
  have h32 : ∀ n, Operand p (.bits 32) (const (.ofNat n 32)) := .const (by decide) (by decide)
  rcases hop with ⟨rfl, hf⟩ | ⟨hop, hf⟩
  · simp only [hf, Bool.false_eq_true, if_false] at hl hr
    refine (mkBinary_forms_compare rfl hl hr).bind fun lt hlt => ?_
    refine (mkBinary_forms_compare rfl hl hr).bind fun eq heq => ?_
    exact (mkIte_forms heq (h32 _) (h32 _)).bind fun rest hrest => mkIte_forms hlt (h32 _) hrest
  · simp only [hf, if_true] at hl hr
    have chain : ∀ {a b c : Term} (x y z : Nat), Operand p (.bits 1) a → Operand p (.bits 1) b →
        Operand p (.bits 1) c → Forms p (.bits 32)
          (do mkIte a (const (.ofNat x 32)) (← mkIte b (const (.ofNat 0 32))
            (← mkIte c (const (.ofNat y 32)) (const (.ofNat z 32))))) := by
      intro a b c x y z ha hb hc
      refine (mkIte_forms hc (h32 _) (h32 _)).bind fun t ht => ?_
      exact (mkIte_forms hb (h32 _) ht).bind fun t' ht' => mkIte_forms ha (h32 _) ht'
    unfold buildThreeWay
    cases op with
    | cmp => exact absurd rfl hop
    | cmpl =>
      refine (mkFloat_forms_compare rfl hl hr).bind fun lt hlt => ?_
      refine (mkFloat_forms_compare rfl hl hr).bind fun eq heq => ?_
      refine (mkFloat_forms_compare rfl hr hl).bind fun gt hgt => ?_
      exact chain _ _ _ hlt heq hgt
    | _ =>
      refine (mkFloat_forms_compare rfl hr hl).bind fun gt hgt => ?_
      refine (mkFloat_forms_compare rfl hl hr).bind fun eq heq => ?_
      refine (mkFloat_forms_compare rfl hl hr).bind fun lt hlt => ?_
      exact chain _ _ _ hgt heq hlt

theorem buildConvert_forms {source target : Kind} (hc : op.conversion? = some (source, target))
    (hs : source.shape? = some s) (hu : target.shape? = some u) (hl : Operand p s l) :
    Forms p u (buildConvert op l) := by
  cases op with
  | i2l | b2i | s2i | c2i | z2i =>
    cases hc
    cases hs
    cases hu
    exact mkCast_forms hl (by decide) (by decide)
  | l2i | i2b | i2c | i2s =>
    cases hc
    cases hs
    cases hu
    exact mkExtract_forms hl (by decide) (by decide)
  | i2f | i2d | l2f | l2d =>
    cases hc
    cases hs
    cases hu
    exact mkConvert_forms_ofSigned (by decide) hl
  | f2i | f2l | d2i | d2l =>
    cases hc
    cases hs
    cases hu
    exact mkConvert_forms_toSigned (by decide) hl
  | f2d | d2f =>
    cases hc
    cases hs
    cases hu
    exact mkConvert_forms_resize (by decide) hl
  | _ => cases hc

theorem resultOf_threeWay_operands (hc : op.isThreeWay) (h : op.resultOf k k' = .ok kind) :
    k' = k ∧ kind = .int ∧ (op = .cmp ∧ k.isFloat = false ∨ op ≠ .cmp ∧ k.isFloat) := by
  cases op <;> cases k <;>
    simp_all [isThreeWay, resultOf, conversion?, ite_ok_iff, ite_error_iff, Kind.isWord,
      Kind.isFloat]

theorem resultOf_float (ha : op.isArithmetic) (hf : k.isFloat) (h : op.resultOf k k' = .ok kind) :
    kind = k ∧ (op = .neg ∨ op ∈ [.add, .sub, .mul, .div, .rem]) ∧ (op ≠ .neg → k' = k) := by
  cases op <;> cases k <;>
    simp_all [isArithmetic, resultOf, conversion?, ite_ok_iff, ite_error_iff, Kind.isWord,
      Kind.isFloat]

theorem resultOf_shift (hs : op ∈ [.shl, .shr, .ushr]) (h : op.resultOf k k' = .ok kind) :
    k' = .int := by
  cases op <;> simp_all [resultOf, conversion?, ite_ok_iff, ite_error_iff]

theorem build_forms (h : op.resultOf k k' = .ok kind) (hu' : op.arity = 1 → k' = k)
    (hk : k.shape? = some s) (hk' : k'.shape? = some s') (hl : Operand p s l)
    (hr : Operand p s' r) :
    ∃ u, kind.shape? = some u ∧ Forms p u (op.build k l r) := by
  -- One family of operations after the other. What is left is arithmetic.
  unfold build
  by_cases hc : op.isCompare
  · obtain ⟨rfl, rfl⟩ := resultOf_compare hc h
    obtain rfl : s' = s := by simpa [hk] using hk'.symm
    exact ⟨.bits 1, rfl, by simpa [hc] using buildCompare_forms hk hl hr⟩
  by_cases ht : op.isThreeWay
  · obtain ⟨rfl, rfl, hop⟩ := resultOf_threeWay_operands ht h
    obtain rfl : s' = s := by simpa [hk] using hk'.symm
    exact ⟨.bits 32, rfl, by simpa [hc, ht] using buildThreeWay_forms hk hop hl hr⟩
  by_cases hn : op.isConvert
  · obtain ⟨⟨source, target⟩, hs⟩ := Option.isSome_iff_exists.mp hn
    obtain ⟨rfl, rfl⟩ := resultOf_convert hs h
    obtain ⟨u, hu⟩ : ∃ u, kind.shape? = some u := by
      cases op <;> cases hs <;> exact ⟨_, rfl⟩
    exact ⟨u, hu, by simpa [hc, ht, hn] using buildConvert_forms hs hk hu hl⟩
  have ha : op.isArithmetic := by simpa [hc, ht, hn] using resultOf_family h
  obtain ⟨w, hw, rfl⟩ := Option.map_eq_some_iff.mp hk
  cases hf : k.isFloat with
  | true =>
    obtain ⟨rfl, hop, he⟩ := resultOf_float ha hf h
    simp only [hf, if_true] at hl hk
    refine ⟨.float w, hk, ?_⟩
    have hr' : op ≠ .neg → Operand p (.float w) r := fun hop => by
      obtain rfl := he hop
      obtain rfl : s' = .float w := by simpa [hk] using hk'.symm
      exact hr
    simpa [hc, ht, hn, hf] using buildFloat_forms hop hl hr'
  | false =>
    obtain ⟨rfl, he⟩ := resultOf_arithmetic ha h
    simp only [hf, Bool.false_eq_true, if_false] at hl hk
    refine ⟨.bits w, hk, ?_⟩
    obtain ⟨v, rfl, hv⟩ : ∃ v, s' = .bits v ∧ (v = w ∨ op ∈ [.neg, .shl, .shr, .ushr]) := by
      by_cases he' : k' = kind
      · subst he'
        exact ⟨w, by simpa [hk] using hk'.symm, .inl rfl⟩
      · have hop := he.resolve_left he'
        have hs : op ∈ [.shl, .shr, .ushr] := by
          have : op ≠ .neg := by
            rintro rfl
            exact he' (hu' rfl)
          simpa [this] using hop
        obtain rfl := resultOf_shift hs h
        cases hk'
        exact ⟨32, rfl, .inr hop⟩
    simpa [hc, ht, hn, hf] using buildInteger_forms ha hw hl hr hv

end Operation

namespace Value

open Term

def Regular (v : Value) : Prop := ∃ s, v.kind.shape? = some s ∧ ∀ t ∈ v.expr, t.Shaped s

variable {v : Value} {k : Kind} {s : Shape}

theorem literal_forms (hs : v.kind.shape? = some s) : Forms True s v.literal := by
  obtain ⟨w, hw, rfl⟩ := Option.map_eq_some_iff.mp hs
  have hb := Kind.width_bounds hw
  have e : v.kind.width = .ok w := by simp [Kind.width, hw]
  simp only [literal, e, ok_bind]
  cases v.kind.isFloat with
  | true => exact ⟨_, rfl, .fconst, fun _ => rfl⟩
  | false => exact ⟨_, rfl, shaped_ofNat hb.1 hb.2 _, fun _ => rfl⟩

theorem term_builds (hs : v.kind.shape? = some s) (ht : ∀ t ∈ v.expr, t.Shaped s) :
    Builds s v.term := by
  unfold term
  split
  next t he => exact (ht t he).builds
  next =>
    obtain ⟨t, ht, h⟩ := literal_forms hs
    exact ⟨t, ht, h.shaped⟩

theorem ofBits_ok (hs : k.shape? = some s) (n : Nat) :
    ∃ b, ofBits k n = .ok { kind := k, bits := b } := by
  have e : k.width = .ok s.width := by simp [Kind.width, Kind.width_of_shape hs]
  exact ⟨wrap s.width n, by simp [ofBits, e]⟩

theorem Regular.of_concrete (hs : k.shape? = some s) (b : Nat) :
    ({ kind := k, bits := b } : Value).Regular := ⟨s, hs, by simp⟩

theorem exists_ofTerm (hs : k.shape? = some s) {t : Term} (ht : Operand True s t) :
    ∃ b, ofTerm k t = .ok { kind := k, bits := b } := by
  obtain ⟨w, hw, rfl⟩ := Option.map_eq_some_iff.mp hs
  have e : k.width = .ok w := by simp [Kind.width, hw]
  cases hf : k.isFloat with
  | true =>
    simp only [hf, if_true] at ht
    obtain ⟨c, rfl, rfl⟩ := ht.eq_fconst trivial
    exact ⟨wrap c.width c.bits, by simp [ofTerm, hf, e, ofBits]⟩
  | false =>
    simp only [hf, Bool.false_eq_true, if_false] at ht
    obtain ⟨x, rfl⟩ := ht.eq_const trivial
    exact ⟨wrap w x.toNat, by simp [ofTerm, hf, e, ofBits]⟩

theorem regular_withTerm {t : Term} (hs : v.kind.shape? = some s) (ht : t.Shaped s) :
    (v.withTerm (some t)).Regular := by
  refine ⟨s, hs, fun t' ht' => ?_⟩
  simp only [withTerm, Option.filter_some] at ht'
  split at ht'
  · simp only [Option.mem_def, Option.some.injEq] at ht'
    exact ht' ▸ ht
  · simp at ht'

theorem Regular.isValid (h : v.Regular) : v.isValid = true := by
  obtain ⟨s, hs, -⟩ := h
  rw [Value.isValid, bne_iff_ne]
  intro he
  rw [he] at hs
  cases hs

end Value

namespace Operation

open Term

variable {op : Operation} {args : List Value}

theorem fold_of {kind k : Kind} {l r t : Term} {x : Value} (hb : op.build k l r = .ok t)
    (hx : Value.ofTerm kind t = .ok x) : op.fold kind k l r = .ok x := by
  simp [fold, hb, hx]

theorem exists_secondTerm (op : Operation) {f : Value → Except Defect Term} {a : Value}
    {rest : List Value} {r : Term} (hn : rest.length + 1 = op.arity)
    (hf : f (rest.headD a) = .ok r) :
    ∃ r', secondTerm f (a :: rest) = .ok r' ∧ ∀ k l, op.build k l r' = op.build k l r := by
  cases rest with
  | nil => exact ⟨.hole, rfl, fun k l => build_unary hn.symm k l _ _⟩
  | cons b rest => exact ⟨r, hf, fun _ _ => rfl⟩

theorem apply_of_mistyped {e : OperationError} (hk : op.resultKind (args.map (·.kind)) = .error e) :
    op.apply args = .error (.error e) := by
  rw [apply, hk]
  rfl

theorem apply_of_zero {a : Value} {rest : List Value} {kind : Kind}
    (hk : op.resultKind ((a :: rest).map (·.kind)) = .ok kind)
    (hz : (op.isDivision && rest.any fun b => !b.kind.isFloat && b.bits = 0) = true) :
    op.apply (a :: rest) = .error (.error (.zeroDivisor op)) := by
  unfold apply
  rw [hk]
  simp only [hz, if_true]
  rfl

theorem exists_apply {a : Value} {rest : List Value} {kind : Kind}
    (hk : op.resultKind ((a :: rest).map (·.kind)) = .ok kind)
    (hz : (op.isDivision && rest.any fun b => !b.kind.isFloat && b.bits = 0) = false)
    (h : ∀ v ∈ a :: rest, v.Regular) :
    ∃ v, op.apply (a :: rest) = .ok v ∧ v.Regular ∧ v.kind = kind := by
  obtain ⟨_, _, he, hn, hr⟩ := resultKind_ok hk
  cases he
  have hu : op.arity = 1 → (rest.headD a).kind = a.kind := by
    intro h1
    obtain rfl : rest = [] := List.length_eq_zero_iff.mp (by omega)
    rfl
  obtain ⟨s, hs, hse⟩ := h a (by simp)
  obtain ⟨s', hs', hse'⟩ := h (rest.headD a) (by cases rest <;> simp)
  -- Once over the literals of the operands, once over their terms.
  obtain ⟨l, hl, hlo⟩ := Value.literal_forms hs
  obtain ⟨r, hr', hro⟩ := Value.literal_forms hs'
  obtain ⟨r₁, hr₁, hb₁⟩ := exists_secondTerm op (a := a) hn hr'
  obtain ⟨u, hku, c, hc, hco⟩ := build_forms hr hu hs hs' hlo hro
  obtain ⟨b, hx⟩ := Value.exists_ofTerm hku hco
  obtain ⟨l', hl', hlt⟩ := Value.term_builds hs hse
  obtain ⟨r', ht', hrt⟩ := Value.term_builds hs' hse'
  obtain ⟨r₂, hr₂, hb₂⟩ := exists_secondTerm op (a := a) hn ht'
  obtain ⟨u', hku', t, ht, hto⟩ := build_forms (p := False) hr hu hs hs' ⟨hlt, False.elim⟩
    ⟨hrt, False.elim⟩
  refine ⟨_, apply_of hk hz hl hr₁ (fold_of ((hb₁ _ _).trans hc) hx) hl' hr₂
    ((hb₂ _ _).trans ht), ?_⟩
  split
  · exact ⟨.of_concrete hku b, rfl⟩
  · exact ⟨Value.regular_withTerm hku' hto.shaped, rfl⟩

theorem apply_regular (op : Operation) (h : ∀ v ∈ args, v.Regular) :
    (∃ v, op.apply args = .ok v ∧ v.Regular ∧ op.resultKind (args.map (·.kind)) = .ok v.kind) ∨
      ∃ e, op.apply args = .error (.error e) := by
  cases hk : op.resultKind (args.map (·.kind)) with
  | error e => exact .inr ⟨e, apply_of_mistyped hk⟩
  | ok kind =>
    obtain ⟨a, rest, rfl, -, -⟩ := resultKind_ok hk
    cases hz : op.isDivision && rest.any fun b => !b.kind.isFloat && b.bits = 0 with
    | true => exact .inr ⟨.zeroDivisor op, apply_of_zero hk hz⟩
    | false =>
      obtain ⟨v, hv, hr, rfl⟩ := exists_apply hk hz h
      exact .inl ⟨v, hv, hr, rfl⟩

end Operation

end Concolic
