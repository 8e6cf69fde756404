import Mathlib
import Concolic.Operation.Apply
import Concolic.Proofs.Simplify

namespace Concolic

namespace Term

open Literal

variable {w v u : Nat} {op : BinaryOp}

/-- A construction over two terms that computes a function of their bits, whatever the terms. Of
literals it makes a literal. -/
def Computes (f : Term → Term → Except Defect Term) (g : BitVec w → BitVec v → BitVec u) : Prop :=
  ∀ l r : Term, l.Typed w → r.Typed v → ∃ t, f l r = .ok t ∧ t.Typed u ∧
    t.occurrences ⊆ l.occurrences ++ r.occurrences ∧
    (∀ i : Input, t.denote i u = g (l.denote i w) (r.denote i v)) ∧
    (l.isConstant → r.isConstant → t.isConstant)

theorem Typed.eq_const {t : Term} (h : t.Typed w) (hc : t.isConstant) :
    ∃ x : BitVec w, t = .const (ofBits x) :=
  h.const_or.resolve_right (by simp [hc])

theorem computes_arith (ha : op.isArithmetic) (hs : op.isShift = false) :
    Computes (mkBinary op) (op.compute : BitVec w → BitVec w → BitVec w) := by
  intro l r hl hr
  obtain ⟨t, ht, h⟩ := mkBinary_yields (.arith ha hs hl hr)
  refine ⟨t, ht, h.typed, h.bound, fun i => ?_, fun cl cr => ?_⟩
  · rw [h.means, denote_arith ha hs]
  · obtain ⟨x, rfl⟩ := hl.eq_const cl
    obtain ⟨y, rfl⟩ := hr.eq_const cr
    cases (mkBinary_compute hl.pos hl.le ha hs x y).symm.trans ht
    rfl

theorem computes_compare (hc : op.isCompare) :
    Computes (mkBinary op) fun x y : BitVec w => BitVec.ofBool (op.test x y) := by
  intro l r hl hr
  obtain ⟨t, ht, h⟩ := mkBinary_yields (.compare hc hl hr)
  refine ⟨t, ht, h.typed, h.bound, fun i => ?_, fun cl cr => ?_⟩
  · rw [h.means, denote_compare hc hl]
  · obtain ⟨x, rfl⟩ := hl.eq_const cl
    obtain ⟨y, rfl⟩ := hr.eq_const cr
    cases (mkBinary_test hl.pos hl.le hc x y).symm.trans ht
    rfl

theorem computes_neg : Computes (fun l _ => mkBinary .sub (const (.ofNat 0 w)) l)
    fun (x : BitVec w) (_ : BitVec v) => 0 - x := by
  intro l r hl _
  rw [ofNat_eq hl.le]
  have hd : (binary .sub (const (ofBits 0)) l).Typed w :=
    .arith rfl rfl (typed_const hl.pos hl.le 0) hl
  obtain ⟨t, ht, h⟩ := mkBinary_yields hd
  refine ⟨t, ht, h.typed, ?_, fun i => ?_, fun cl _ => ?_⟩
  · apply List.subset_append_of_subset_left
    simpa [occurrences] using h.bound
  · rw [h.means, denote_sub, denote_const]
  · obtain ⟨x, rfl⟩ := hl.eq_const cl
    cases (mkBinary_compute hl.pos hl.le rfl rfl 0 x).symm.trans ht
    rfl

theorem computes_cast (hu : 0 < u) (hl : u ≤ 64) (signed : Bool) :
    Computes (fun l _ => mkCast l u signed) fun (x : BitVec w) (_ : BitVec v) =>
      if signed then x.signExtend u else x.setWidth u := by
  intro l r hl' _
  obtain ⟨t, ht, h⟩ : Yields u (mkCast l u signed) (cast l u signed) := mkCast_yields hl' hu hl
  refine ⟨t, ht, h.typed, List.subset_append_of_subset_left _ h.bound, fun i => ?_, fun cl _ => ?_⟩
  · rw [h.means, denote_cast hl']
  · obtain ⟨x, rfl⟩ := hl'.eq_const cl
    cases (mkCast_const hl'.pos hl'.le hu hl x signed).symm.trans ht
    rfl

theorem computes_extract (hu : 0 < u) (hw : u ≤ w) : Computes (fun l _ => mkExtract l 0 u)
    fun (x : BitVec w) (_ : BitVec v) => x.extractLsb' 0 u := by
  intro l r hl _
  obtain ⟨t, ht, h⟩ := mkExtract_yields (o := 0) hl hu (by omega)
  refine ⟨t, ht, h.typed, List.subset_append_of_subset_left _ h.bound, fun i => ?_, fun cl _ => ?_⟩
  · rw [h.means, denote_extract hl]
  · obtain ⟨x, rfl⟩ := hl.eq_const cl
    cases (mkExtract_const hl.le hu x (show 0 + u ≤ w by omega)).symm.trans ht
    rfl

theorem mkIte_const {c : Literal} {y n t : Term} (h : mkIte (const c) y n = .ok t)
    (hy : y.isConstant) (hn : n.isConstant) : t.isConstant := by
  simp only [mkIte, Term.width, ok_bind] at h
  by_cases hw : c.width = 1
  · simp only [hw, ne_eq, not_true_eq_false, if_false, pure_eq_ok, Except.ok.injEq] at h
    rw [← h]
    split
    · exact hy
    · exact hn
  · simp only [ne_eq, hw, not_false_eq_true, if_true] at h
    cases h

end Term

namespace Operation

open Term Literal

variable {w v u : Nat}

theorem buildShift_computes {op : BinaryOp} (hs : op.isShift) :
    Computes (buildShift op w) fun (x : BitVec w) (y : BitVec v) =>
      op.move x (y.setWidth w &&& BitVec.ofNat w (w - 1)).toNat := by
  intro l r hl hr
  obtain ⟨c, hc, hi⟩ : Yields w (mkCast r w false) (cast r w false) :=
    mkCast_yields hr hl.pos hl.le
  have hm : (binary .and c (const (ofBits (BitVec.ofNat w (w - 1))))).Typed w :=
    .arith rfl rfl hi.typed (typed_const hl.pos hl.le _)
  obtain ⟨a, ha, hj⟩ := mkBinary_yields hm
  obtain ⟨t, ht, h⟩ := mkBinary_yields (.shift hs hl hj.typed)
  refine ⟨t, ?_, h.typed, ?_, fun i => ?_, fun cl cr => ?_⟩
  · simp only [buildShift, hc, ok_bind, ofNat_eq hl.le, ha]
    exact ht
  · have hb : a.occurrences ⊆ r.occurrences :=
      List.Subset.trans hj.bound (by simpa [occurrences] using hi.bound)
    exact List.Subset.trans h.bound (List.append_subset.mpr
      ⟨List.subset_append_left _ _, List.subset_append_of_subset_right _ hb⟩)
  · rw [h.means, denote_shift hs hj.typed, hj.means, denote_and, hi.means, denote_cast hr,
      denote_const]
    rfl
  · obtain ⟨x, rfl⟩ := hl.eq_const cl
    obtain ⟨y, rfl⟩ := hr.eq_const cr
    cases (mkCast_const hr.pos hr.le hl.pos hl.le y false).symm.trans hc
    cases (mkBinary_compute hl.pos hl.le rfl rfl _ _).symm.trans ha
    cases (mkBinary_move hl.pos hl.le hs x _).symm.trans ht
    rfl

theorem buildThreeWay_computes : Computes (buildThreeWay .cmp) fun x y : BitVec w =>
    if x.slt y then 0xFFFFFFFF#32 else if x == y then 0#32 else 1#32 := by
  intro l r hl hr
  have hs : (binary .slt l r).Typed 1 := .compare rfl hl hr
  have he : (binary .eq l r).Typed 1 := .compare rfl hl hr
  obtain ⟨lt, hlt, hi⟩ := mkBinary_yields hs
  obtain ⟨eq, heq, hj⟩ := mkBinary_yields he
  have h32 : ∀ x : BitVec 32, (const (ofBits x)).Typed 32 := typed_const (by decide) (by decide)
  obtain ⟨no, hno, hk⟩ := mkIte_yields hj.typed (h32 0#32) (h32 1#32)
  obtain ⟨t, ht, h⟩ := mkIte_yields hi.typed (h32 0xFFFFFFFF#32) hk.typed
  have hp : Implements 32 t (ite (binary .slt l r) (const (ofBits 0xFFFFFFFF#32))
      (ite (binary .eq l r) (const (ofBits 0#32)) (const (ofBits 1#32)))) :=
    h.trans (.ite hi (.refl (h32 _)) (hk.trans (.ite hj (.refl (h32 _)) (.refl (h32 _)))))
  refine ⟨t, ?_, hp.typed, ?_, fun i => ?_, fun cl cr => ?_⟩
  · simp only [buildThreeWay, hlt, heq, ok_bind, ofNat_eq (show 32 ≤ 64 by decide)]
    rw [hno]
    exact ht
  · apply List.Subset.trans hp.bound
    simp [occurrences]
  · rw [hp.means, denote_ite, denote_ite, denote_compare rfl hl, denote_compare rfl hl]
    simp only [denote_const, ofBool_eq_one]
    rfl
  · obtain ⟨x, rfl⟩ := hl.eq_const cl
    obtain ⟨y, rfl⟩ := hr.eq_const cr
    cases (mkBinary_test hl.pos hl.le rfl x y).symm.trans hlt
    cases (mkBinary_test hl.pos hl.le rfl x y).symm.trans heq
    exact mkIte_const ht rfl (mkIte_const hno rfl rfl)

theorem ite_ok_iff {ε α : Type} {p : Prop} [Decidable p] {x : Except ε α} {b : α} {e : ε} :
    (if p then x else .error e) = .ok b ↔ p ∧ x = .ok b := by
  split <;> simp_all

theorem ite_error_iff {ε α : Type} {p : Prop} [Decidable p] {x : Except ε α} {b : α} {e : ε} :
    (if p then .error e else x) = .ok b ↔ ¬p ∧ x = .ok b := by
  split <;> simp_all

section ResultKind

variable {op : Operation} {k k' kind : Kind}

theorem resultOf_compare (hc : op.isCompare) (h : op.resultOf k k' = .ok kind) :
    k' = k ∧ kind = .bool := by
  cases op <;> simp_all [isCompare, resultOf, conversion?, ite_ok_iff, ite_error_iff]

theorem resultOf_threeWay (hc : op.isThreeWay) (hk : k.isFloat = false)
    (h : op.resultOf k k' = .ok kind) : op = .cmp ∧ k' = k ∧ kind = .int := by
  cases op <;> simp_all [isThreeWay, resultOf, conversion?, ite_ok_iff, ite_error_iff]

theorem resultOf_convert {source target : Kind} (hc : op.conversion? = some (source, target))
    (h : op.resultOf k k' = .ok kind) : k = source ∧ kind = target := by
  simp_all [resultOf, ite_ok_iff, ite_error_iff]

theorem resultOf_arithmetic (ha : op.isArithmetic) (h : op.resultOf k k' = .ok kind) :
    kind = k ∧ (k' = k ∨ op ∈ [.neg, .shl, .shr, .ushr]) := by
  cases op <;> simp_all [isArithmetic, resultOf, conversion?, ite_ok_iff, ite_error_iff]

theorem resultOf_family (h : op.resultOf k k' = .ok kind) :
    op.isCompare ∨ op.isThreeWay ∨ op.isConvert ∨ op.isArithmetic := by
  cases op <;>
    simp_all [isCompare, isThreeWay, isConvert, isArithmetic, resultOf, conversion?, ite_error_iff]

end ResultKind

theorem buildCompare_computes {op : Operation} {k : Kind} (hk : k.isFloat = false) :
    ∃ g : BitVec w → BitVec w → BitVec 1, Computes (buildCompare op k) g := by
  have : ∃ b : BinaryOp, b.isCompare ∧ buildCompare op k = mkBinary b := by
    unfold buildCompare
    simp only [hk, Bool.false_eq_true, if_false]
    cases op <;> cases k.isSigned <;> exact ⟨_, rfl, rfl⟩
  obtain ⟨b, hb, e⟩ := this
  rw [e]
  exact ⟨_, computes_compare hb⟩

theorem buildConvert_computes {op : Operation} {source target : Kind}
    (hc : op.conversion? = some (source, target)) (hs : source.isFloat = false)
    (ht : target.isFloat = false) (hw : source.width? = some w) (hu : target.width? = some u) :
    ∃ g : BitVec w → BitVec v → BitVec u, Computes (fun l _ => buildConvert op l) g := by
  cases op with
  | i2l | b2i | s2i | c2i | z2i =>
    cases hc
    cases hw
    cases hu
    exact ⟨_, computes_cast (by decide) (by decide) _⟩
  | l2i | i2b | i2c | i2s =>
    cases hc
    cases hw
    cases hu
    exact ⟨_, computes_extract (by decide) (by decide)⟩
  | i2f | i2d | l2f | l2d | f2i | f2l | f2d | d2i | d2l | d2f =>
    cases hc
    simp [Kind.isFloat] at hs ht
  | _ => cases hc

theorem buildInteger_computes {op : Operation} {k : Kind} (ha : op.isArithmetic)
    (hw : k.width? = some w) (hv : v = w ∨ op ∈ [.neg, .shl, .shr, .ushr]) :
    ∃ g : BitVec w → BitVec v → BitVec w, Computes (buildInteger op k) g := by
  have e : k.width = .ok w := by simp [Kind.width, hw]
  unfold buildInteger
  simp only [e, ok_bind]
  cases op with
  | add | sub | mul | div | rem | and | or | xor =>
    obtain rfl : v = w := by simpa using hv
    exact ⟨_, computes_arith rfl rfl⟩
  | neg => exact ⟨_, computes_neg⟩
  | shl | shr | ushr => exact ⟨_, buildShift_computes rfl⟩
  | _ => simp [isArithmetic] at ha

theorem build_computes {op : Operation} {k k' kind : Kind} (h : op.resultOf k k' = .ok kind)
    (hk : k.isFloat = false) (hr : kind.isFloat = false) (hw : k.width? = some w)
    (hv : k'.width? = some v) (hu : kind.width? = some u) :
    ∃ g : BitVec w → BitVec v → BitVec u, Computes (op.build k) g := by
  unfold build
  by_cases hc : op.isCompare
  · obtain ⟨rfl, rfl⟩ := resultOf_compare hc h
    obtain rfl : v = w := by simpa [hw] using hv.symm
    cases hu
    simpa [hc] using buildCompare_computes hk
  by_cases ht : op.isThreeWay
  · obtain ⟨rfl, rfl, rfl⟩ := resultOf_threeWay ht hk h
    obtain rfl : v = w := by simpa [hw] using hv.symm
    cases hu
    exact ⟨_, buildThreeWay_computes⟩
  by_cases hn : op.isConvert
  · obtain ⟨⟨source, target⟩, hs⟩ := Option.isSome_iff_exists.mp hn
    obtain ⟨rfl, rfl⟩ := resultOf_convert hs h
    simpa [hc, ht, hn] using buildConvert_computes hs hk hr hw hu
  · have ha : op.isArithmetic := by simpa [hc, ht, hn] using resultOf_family h
    obtain ⟨rfl, hk'⟩ := resultOf_arithmetic ha h
    obtain rfl : u = w := by simpa [hw] using hu.symm
    have hvw : v = u ∨ op ∈ [.neg, .shl, .shr, .ushr] :=
      hk'.imp_left fun he => by simpa [he, hw] using hv.symm
    simpa [hc, ht, hn, hk] using buildInteger_computes ha hw hvw

theorem build_unary {op : Operation} (h : op.arity = 1) (k : Kind) (l r r' : Term) :
    op.build k l r = op.build k l r' := by
  cases op <;> first | rfl | simp [arity, isConvert, conversion?] at h

end Operation

end Concolic
