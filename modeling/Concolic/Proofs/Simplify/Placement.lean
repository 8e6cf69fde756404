import Concolic.Term.Build

namespace Concolic.Term

variable {w : Nat} {l r t : Term} (c : Literal)

theorem mkXor_literal (h : t.isConstant = false) :
    mkXor (const c) t = if c.value = 0 then t else binary .xor (const c) t := by
  cases t <;> first | rfl | cases h

theorem mkXor_swap (h : t.isConstant = false) : mkXor t (const c) = mkXor (const c) t := by
  cases t <;> first | rfl | cases h

theorem mkXor_plain (hl : l.isConstant = false) (hr : r.isConstant = false) :
    mkXor l r = binary .xor l r := by
  cases l <;> cases r <;> first | rfl | simp [isConstant] at hl hr

theorem mkAnd_literal (h : t.isConstant = false) :
    mkAnd (const c) t = if c.isAllOnes then t else
      if c.value = 0 then const c else binary .and t (const c) := by
  cases t <;> first | rfl | cases h

theorem mkAnd_swap (h : t.isConstant = false) : mkAnd t (const c) = mkAnd (const c) t := by
  cases t <;> first | rfl | cases h

theorem mkAnd_plain (hl : l.isConstant = false) (hr : r.isConstant = false) :
    mkAnd l r = binary .and l r := by
  cases l <;> cases r <;> first | rfl | simp [isConstant] at hl hr

theorem mkOr_literal (h : t.isConstant = false) :
    mkOr (const c) t = if c.isAllOnes then const c else
      if c.value = 0 then t else binary .or t (const c) := by
  cases t <;> first | rfl | cases h

theorem mkOr_swap (h : t.isConstant = false) : mkOr t (const c) = mkOr (const c) t := by
  cases t <;> first | rfl | cases h

theorem mkOr_plain (hl : l.isConstant = false) (hr : r.isConstant = false) :
    mkOr l r = binary .or l r := by
  cases l <;> cases r <;> first | rfl | simp [isConstant] at hl hr

theorem mkMul_literal (h : t.isConstant = false) :
    mkMul w (const c) t = if w = 1 then mkAnd (const c) t else
      if c.value = 1 then t else if c.value = 0 then const c else binary .mul (const c) t := by
  cases t <;> first | rfl | cases h

theorem mkMul_swap (h : t.isConstant = false) : mkMul w t (const c) = mkMul w (const c) t := by
  cases t <;> first | rfl | cases h

theorem mkMul_plain (hl : l.isConstant = false) (hr : r.isConstant = false) :
    mkMul w l r = if w = 1 then mkAnd l r else binary .mul l r := by
  cases l <;> cases r <;> first | rfl | simp [isConstant] at hl hr

theorem mkAdd_literal (t : Term) :
    mkAdd w (const c) t = if w = 1 then .ok (mkXor (const c) t) else plus c t := rfl

theorem mkAdd_swap (h : t.isConstant = false) : mkAdd w t (const c) = mkAdd w (const c) t := by
  cases t <;> first | rfl | cases h

theorem mkAdd_plain (hl : l.isConstant = false) (hr : r.isConstant = false) :
    mkAdd w l r = if w = 1 then .ok (mkXor l r) else .ok (binary .add l r) := by
  cases l <;> cases r <;> first | rfl | simp [isConstant] at hl hr

theorem headed (h : ∀ op k z, t ≠ binary op (fconst k) z) :
    (∃ d, t = const d) ∨ (∃ k z, t = binary .add (const k) z) ∨
    (∃ k z, t = binary .sub (const k) z) ∨
    (∀ c, plus c t = if c.width = 1 then .ok (mkXor (const c) t) else
      if c.value = 0 then .ok t else .ok (binary .add (const c) t)) ∧
    ∀ c, minus c t = if c.width = 1 then .ok (mkXor (const c) t) else
      .ok (binary .sub (const c) t) := by
  cases t with
  | const d => exact .inl ⟨d, rfl⟩
  | binary op a z =>
    cases op with
    | add =>
      cases a with
      | const k => exact .inr (.inl ⟨k, z, rfl⟩)
      | fconst k => exact absurd rfl (h _ k z)
      | _ => exact .inr (.inr (.inr ⟨fun _ => rfl, fun _ => rfl⟩))
    | sub =>
      cases a with
      | const k => exact .inr (.inr (.inl ⟨k, z, rfl⟩))
      | fconst k => exact absurd rfl (h _ k z)
      | _ => exact .inr (.inr (.inr ⟨fun _ => rfl, fun _ => rfl⟩))
    | _ => exact .inr (.inr (.inr ⟨fun _ => rfl, fun _ => rfl⟩))
  | _ => exact .inr (.inr (.inr ⟨fun _ => rfl, fun _ => rfl⟩))

theorem mkEq_literal (t : Term) : mkEq (const c) t = mkEqLiteral c t := rfl

theorem mkEq_swap (h : t.isConstant = false) : mkEq t (const c) = mkEq (const c) t := by
  cases t <;> first | rfl | cases h

theorem mkEq_plain (hl : l.isConstant = false) (hr : r.isConstant = false) :
    mkEq l r = .ok (if l.same r then .ofBool true else binary .eq l r) := by
  cases l <;> cases r <;> first | rfl | simp [isConstant] at hl hr

end Concolic.Term
