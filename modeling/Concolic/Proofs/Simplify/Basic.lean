import Mathlib
import Concolic.Proofs.Denotation

namespace Concolic.Term

open Literal

structure Implements (w : Nat) (t s : Term) : Prop where
  typed : t.Typed w
  bound : t.occurrences ⊆ s.occurrences
  means : ∀ i, t.denote i w = s.denote i w

def Yields (w : Nat) (e : Except Defect Term) (s : Term) : Prop := ∃ t, e = .ok t ∧ Implements w t s

variable {w v : Nat} {t s u l r : Term} {op : BinaryOp} {e : Except Defect Term}

namespace Typed

theorem arith_inv (ha : op.isArithmetic) (hs : op.isShift = false) (h : (binary op l r).Typed w) :
    l.Typed w ∧ r.Typed w := by
  cases h with
  | arith _ _ hl hr => exact ⟨hl, hr⟩
  | shift hs' => simp [hs] at hs'
  | compare hc => simp [BinaryOp.isCompare_of_isArithmetic ha] at hc

theorem compare_inv (hc : op.isCompare) (h : (binary op l r).Typed w) :
    w = 1 ∧ ∃ v, l.Typed v ∧ r.Typed v := by
  cases h with
  | arith ha => simp [BinaryOp.isCompare_of_isArithmetic ha] at hc
  | shift hs => simp [BinaryOp.isCompare_of_isShift hs] at hc
  | compare _ hl hr => exact ⟨rfl, _, hl, hr⟩

theorem const_or (h : t.Typed w) :
    (∃ x : BitVec w, t = Term.const (ofBits x)) ∨ t.isConstant = false := by
  cases h with
  | const hp hl hv =>
    obtain ⟨x, hx⟩ := Typed.eq_ofBits (.const hp hl hv)
    exact .inl ⟨x, congrArg _ hx⟩
  | _ => exact .inr rfl

end Typed

namespace Implements

theorem refl (h : t.Typed w) : Implements w t t := ⟨h, List.Subset.refl _, fun _ => rfl⟩

theorem trans (h : Implements w t s) (h' : Implements w s u) : Implements w t u :=
  ⟨h.typed, List.Subset.trans h.bound h'.bound, fun i => (h.means i).trans (h'.means i)⟩

theorem yields (h : Implements w t s) : Yields w (.ok t) s := ⟨t, rfl, h⟩

theorem const (hw : 0 < w) (hl : w ≤ 64) {x : BitVec w} (h : ∀ i, s.denote i w = x) :
    Implements w (.const (ofBits x)) s :=
  ⟨typed_const hw hl x, List.nil_subset _, fun i => by rw [denote_const, h]⟩

theorem comm (ha : op.isArithmetic) (hs : op.isShift = false)
    (hc : ∀ x y : BitVec w, op.compute x y = op.compute y x)
    (h : Implements w t (binary op r l)) : Implements w t (binary op l r) where
  typed := h.typed
  bound := fun p hp => by
    have := h.bound hp
    simp only [occurrences, List.mem_append] at this ⊢
    exact this.symm
  means := fun i => by rw [h.means, denote_arith ha hs, denote_arith ha hs, hc]

theorem ite {c c' y y' n n' : Term} (hc : Implements 1 c c') (hy : Implements w y y')
    (hn : Implements w n n') : Implements w (.ite c y n) (.ite c' y' n') where
  typed := .ite hc.typed hy.typed hn.typed
  bound := fun p hp => by
    simp only [occurrences, List.mem_append] at hp ⊢
    exact hp.imp (Or.imp (hc.bound ·) (hy.bound ·)) (hn.bound ·)
  means := fun i => by rw [denote_ite, denote_ite, hc.means, hy.means, hn.means]

end Implements

theorem Yields.trans (h : Yields w e s) (h' : Implements w s u) : Yields w e u := by
  obtain ⟨t, ht, hi⟩ := h
  exact ⟨t, ht, hi.trans h'⟩

theorem yields_of_comm {f : Term → Term → Except Defect Term} (ha : op.isArithmetic)
    (hs : op.isShift = false) (hc : ∀ x y : BitVec w, op.compute x y = op.compute y x)
    (left : ∀ (x : BitVec w) (t : Term), t.Typed w →
      Yields w (f (const (ofBits x)) t) (binary op (const (ofBits x)) t))
    (swap : ∀ (x : BitVec w) (t : Term), t.isConstant = false →
      f t (const (ofBits x)) = f (const (ofBits x)) t)
    (plain : ∀ l r : Term, l.isConstant = false → r.isConstant = false → l.Typed w → r.Typed w →
      Yields w (f l r) (binary op l r))
    (hl : l.Typed w) (hr : r.Typed w) : Yields w (f l r) (binary op l r) := by
  rcases hl.const_or with ⟨x, rfl⟩ | hcl
  · exact left x r hr
  · rcases hr.const_or with ⟨y, rfl⟩ | hcr
    · rw [swap y l hcl]
      obtain ⟨t, ht, hi⟩ := left y l hl
      exact ⟨t, ht, hi.comm ha hs hc⟩
    · exact plain l r hcl hcr hl hr

theorem commonWidth_eq (op : BinaryOp) (hl : l.Typed w) (hr : r.Typed w) :
    commonWidth op l r = .ok w := by
  simp [commonWidth, hl.width, hr.width]

end Concolic.Term
