import Mathlib
import Concolic.Proofs.Simplify.Compare

namespace Concolic.Term

open Literal

variable {w v : Nat} {t s c y n : Term}

theorem mkNot_yields (ht : t.Typed w) : Yields w (.ok (mkNot t)) (not t) := by
  cases t with
  | const c =>
    obtain ⟨x, rfl⟩ := ht.eq_ofBits
    rw [mkNot_const ht.le]
    exact (Implements.const ht.pos ht.le (by simp)).yields
  | not s =>
    cases ht with
    | not hs => exact ⟨s, rfl, hs, by simp [occurrences], by simp⟩
  | _ => exact (Implements.refl (.not ht)).yields

theorem mkIte_literal (x : BitVec 1) :
    mkIte (const (ofBits x)) y n = .ok (if x = 1#1 then y else n) := by
  have test : (ofBits x).isTrue = decide (x = 1#1) := by
    rw [Bool.eq_iff_iff, decide_eq_true_iff]
    exact isTrue_const x
  simp [mkIte, Term.width, test]

theorem mkIte_same (hc : c.Typed 1) : mkIte c y y = .ok y := by
  simp only [mkIte, hc.width, ok_bind, ne_eq, not_true_eq_false, if_false]
  split
  next => rw [ite_self, pure_eq_ok]
  next => rw [if_pos (same_iff.mpr rfl), pure_eq_ok]

theorem mkIte_yields (hc : c.Typed 1) (hy : y.Typed w) (hn : n.Typed w) :
    Yields w (mkIte c y n) (ite c y n) := by
  simp only [mkIte, hc.width, ok_bind, ne_eq, not_true_eq_false, if_false]
  split
  next =>
    obtain ⟨x, rfl⟩ := hc.eq_ofBits
    change Yields w (.ok (if (const (ofBits x)).isTrue then y else n)) _
    split
    next h =>
      refine ⟨y, rfl, hy, by simp [occurrences], fun i => ?_⟩
      rw [denote, denote_const, if_pos ((isTrue_const x).mp h)]
    next h =>
      refine ⟨n, rfl, hn, by simp [occurrences], fun i => ?_⟩
      rw [denote, denote_const, if_neg (mt (isTrue_const x).mpr h)]
  next =>
    split_ifs with hs ht
    · obtain rfl := same_iff.mp hs
      refine ⟨y, rfl, hy, by simp [occurrences], fun i => ?_⟩
      rw [denote, ite_self]
    · obtain ⟨h1, h0⟩ := Bool.and_eq_true_iff.mp ht
      obtain rfl := eq_of_isTrue hy h1
      obtain rfl := eq_of_isFalse h0
      obtain rfl := hn.unique (typed_const (by decide) (by decide) 0#1)
      refine ⟨c, rfl, hc, by simp [occurrences], fun i => ?_⟩
      rw [denote, denote_const, denote_const]
      generalize c.denote i 1 = x
      revert x
      decide
    · exact (Implements.refl (.ite hc hy hn)).yields

theorem extract_whole (ht : t.Typed w) : Implements w t (extract t 0 w) :=
  ⟨ht, List.Subset.refl _, fun i => by simp [denote_extract ht]⟩

theorem extract_extended {u : Nat} (hs : s.Typed v) (hv : v ≤ w) (hl : w ≤ 64) {signed : Bool}
    (hu : 0 < u) (h : u ≤ v) :
    Implements u (extract s 0 u) (extract (cast s w signed) 0 u) := by
  refine ⟨.extract hs hu (by omega), List.Subset.refl _, fun i => ?_⟩
  rw [denote_extract hs, denote_extract (.cast hs hv hl), denote_cast hs,
    ← BitVec.setWidth_eq_extractLsb' (by omega), ← BitVec.setWidth_eq_extractLsb' (by omega),
    setWidth_ext signed h hv]

theorem mkExtract_yields {o u : Nat} (ht : t.Typed v) (hu : 0 < u) (ho : o + u ≤ v) :
    Yields u (mkExtract t o u) (extract t o u) := by
  induction hn : sizeOf t using Nat.strong_induction_on generalizing t o v
  next n ih =>
  subst hn
  have plain := (Implements.refl (Typed.extract ht hu ho)).yields
  unfold mkExtract
  simp only [ht.width, ok_bind, offsetSum_eq (Nat.le_trans ho ht.le), Nat.not_lt.mpr ho,
    Nat.ne_of_gt hu, if_false]
  by_cases hv : u = v
  · obtain rfl : o = 0 := by omega
    subst hv
    rw [if_pos rfl]
    exact (extract_whole ht).yields
  · rw [if_neg hv]
    split
    next =>
      obtain ⟨x, rfl⟩ := ht.eq_ofBits
      have hl := ht.le
      rw [extract_ofBits hl (by omega)]
      exact (Implements.const hu (by omega) fun i => by rw [denote_extract ht, denote_const]).yields
    next s k _ =>
      cases ht with
      | extract hs hw hk =>
        have hl := hs.le
        rw [offsetSum_eq (by omega)]
        refine (ih (sizeOf s) (by simp; omega) hs (o := k + o) (by omega) rfl).trans
          ⟨.extract hs hu (by omega), List.Subset.refl _, fun i => ?_⟩
        rw [denote_extract hs, denote_extract (.extract hs hw hk), denote_extract hs]
        ext j hj
        simp [show o + j < v by omega, Nat.add_assoc]
    next s _ _ =>
      cases ht with
      | cast hs hsv hl =>
        split
        next h0 =>
          subst h0
          simp only [hs.width, ok_bind]
          split_ifs with he hlt
          · subst he
            exact ((extract_whole hs).trans (extract_extended hs hsv hl hu (Nat.le_refl _))).yields
          · exact (ih (sizeOf s) (by simp; omega) hs (o := 0) (by omega) rfl).trans
              (extract_extended hs hsv hl hu (Nat.le_of_lt hlt))
          · exact plain
        next => exact plain
    next => exact plain

theorem mkCast_yields {u : Nat} {signed : Bool} (ht : t.Typed w) (hu : 0 < u) (hl : u ≤ 64) :
    Yields u (mkCast t u signed) (cast t u signed) := by
  rcases ht.const_or with ⟨x, rfl⟩ | hc
  · rw [mkCast_const ht.pos ht.le hu hl]
    exact (Implements.const hu hl fun i => by rw [denote_cast ht, denote_const]).yields
  · have e : mkCast t u signed = if u = w then .ok t else
        if u < w then mkExtract t 0 u else .ok (cast t u signed) := by
      simp only [mkCast, ht.width, ok_bind]
      cases t <;> first | rfl | simp [isConstant] at hc
    rw [e]
    split_ifs with he hlt
    · subst he
      exact ⟨t, rfl, ht, by simp [occurrences], fun i => by simp [denote_cast ht]⟩
    · obtain ⟨r, hr, hi⟩ := mkExtract_yields (o := 0) ht hu (by omega)
      refine ⟨r, hr, hi.typed, hi.bound, fun i => ?_⟩
      rw [hi.means, denote_extract ht, denote_cast ht, ← BitVec.setWidth_eq_extractLsb' (by omega),
        BitVec.signExtend_eq_setWidth_of_le _ (by omega), ite_self]
    · exact (Implements.refl (.cast ht (by omega) hl)).yields

/-- A constructor's answer has a width, and under every input that binds the variables of the plain
node it evaluates to what the node does: the bits that the node stands for. -/
def Faithful (w : Nat) (built : Except Defect Term) (node : Term) : Prop :=
  ∃ t, built = .ok t ∧ t.Typed w ∧ ∀ i : Input, i.Binds node →
    t.eval i = node.eval i ∧ node.eval i = .ok (const (ofBits (node.denote i w)))

theorem Yields.faithful {built : Except Defect Term} (h : Yields w built s)
    (hs : ∀ i : Input, i.Binds s → s.eval i = .ok (const (ofBits (s.denote i w)))) :
    Faithful w built s := by
  obtain ⟨t, ht, hi⟩ := h
  refine ⟨t, ht, hi.typed, fun i hb => ⟨?_, hs i hb⟩⟩
  rw [hs i hb, eval_eq hi.typed (hb.mono hi.bound), hi.means]

theorem Yields.faithful_of_typed {built : Except Defect Term} (h : Yields w built s)
    (hs : s.Typed w) : Faithful w built s :=
  h.faithful fun _ hb => eval_eq hs hb

theorem eval_cast {u : Nat} {signed : Bool} (ht : t.Typed w) (hu : 0 < u) (hl : u ≤ 64) {i : Input}
    (hb : i.Binds (cast t u signed)) :
    (cast t u signed).eval i = .ok (const (ofBits ((cast t u signed).denote i u))) := by
  rw [eval, eval_eq ht hb, denote_cast ht]
  simp only [ok_bind, mkCast_const ht.pos ht.le hu hl]
  rfl

theorem typed_binary {op : BinaryOp} {l r : Term} (ho : op.isArithmetic || op.isCompare)
    (hl : l.Typed w) (hr : r.Typed v) (hw : v = w ∨ op.isShift) :
    (binary op l r).Typed (if op.isCompare then 1 else w) := by
  by_cases hs : op.isShift
  · rw [if_neg (by simp [BinaryOp.isCompare_of_isShift hs])]
    exact .shift hs hl hr
  · obtain rfl := hw.resolve_right hs
    split
    next hc => exact .compare hc hl hr
    next hc => exact .arith (by simpa [hc] using ho) (by simpa using hs) hl hr

/-- Every simplifying constructor keeps the meaning of the plain node over the same operands. -/
theorem constructors_faithful :
    (∀ (op : BinaryOp) (l r : Term) (w v : Nat), (op.isArithmetic || op.isCompare) →
      l.Typed w → r.Typed v → v = w ∨ op.isShift →
      Faithful (if op.isCompare then 1 else w) (mkBinary op l r) (binary op l r)) ∧
    (∀ (t : Term) (v o w : Nat), t.Typed v → 0 < w → o + w ≤ v →
      Faithful w (mkExtract t o w) (extract t o w)) ∧
    (∀ (t : Term) (v w : Nat) (signed : Bool), t.Typed v → 0 < w → w ≤ 64 →
      Faithful w (mkCast t w signed) (cast t w signed)) ∧
    (∀ (t : Term) (w : Nat), t.Typed w → Faithful w (.ok (mkNot t)) (not t)) ∧
    (∀ (c y n : Term) (w : Nat), c.Typed 1 → y.Typed w → n.Typed w →
      Faithful w (mkIte c y n) (ite c y n)) ∧
    (∀ (t : Term) (w : Nat), t.Typed w →
      Faithful 1 (mkIsZero t) (binary .eq t (const (.ofNat 0 w)))) := by
  refine ⟨?_, ?_, ?_, ?_, ?_, ?_⟩
  · intro op l r w v ho hl hr hw
    have h := typed_binary ho hl hr hw
    exact (mkBinary_yields h).faithful_of_typed h
  · intro t v o w ht hw ho
    exact (mkExtract_yields ht hw ho).faithful_of_typed (.extract ht hw ho)
  · intro t v w signed ht hw hl
    exact (mkCast_yields ht hw hl).faithful fun _ hb => eval_cast ht hw hl hb
  · intro t w ht
    exact (mkNot_yields ht).faithful_of_typed (.not ht)
  · intro c y n w hc hy hn
    exact (mkIte_yields hc hy hn).faithful_of_typed (.ite hc hy hn)
  · intro t w ht
    rw [ofNat_eq ht.le]
    exact (mkIsZero_yields ht).faithful_of_typed (.compare rfl ht (typed_const ht.pos ht.le _))

theorem constructors_faithful_lowest :
    let d := binary .sub (const ⟨3, 8⟩) (binary .add (const ⟨250, 8⟩) (var "x" .byte))
    d.Typed 8 ∧ ∃ t, mkCast d 1 true = .ok t ∧ t.Typed 1 ∧ ∀ b : Nat,
      t.eval ⟨[("x", ⟨.byte, b, none⟩)]⟩ = (cast d 1 true).eval ⟨[("x", ⟨.byte, b, none⟩)]⟩ := by
  intro d
  have hx : (var "x" .byte).Typed 8 := .var rfl rfl
  have hd : d.Typed 8 := .arith rfl rfl (.const (by decide) (by decide) (by decide))
    (.arith rfl rfl (.const (by decide) (by decide) (by decide)) hx)
  obtain ⟨t, ht, hw, hv⟩ := constructors_faithful.2.2.1 d 8 1 true hd (by decide) (by decide)
  refine ⟨hd, t, ht, hw, fun b => (hv _ ?_).1⟩
  simp [d, Input.Binds, occurrences, Input.get?]

end Concolic.Term
