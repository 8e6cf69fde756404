import Mathlib
import Concolic.Input
import Concolic.Term.Build

namespace Concolic

@[simp] theorem ok_bind {ε α β : Type} (a : α) (f : α → Except ε β) :
    (Except.ok a >>= f) = f a := rfl

@[simp] theorem pure_eq_ok {ε α : Type} (a : α) : (pure a : Except ε α) = .ok a := rfl

theorem bind_eq_ok {ε α β : Type} {x : Except ε α} {f : α → Except ε β} {b : β}
    (h : x >>= f = .ok b) : ∃ a, x = .ok a ∧ f a = .ok b := by
  cases x with
  | error => cases h
  | ok a => exact ⟨a, rfl, h⟩

theorem bind_eq_ok_iff {ε α β : Type} {x : Except ε α} {f : α → Except ε β} {b : β} :
    x >>= f = .ok b ↔ ∃ a, x = .ok a ∧ f a = .ok b := by
  refine ⟨bind_eq_ok, ?_⟩
  rintro ⟨a, rfl, h⟩
  exact h

namespace BinaryOp

variable {op : BinaryOp}

theorem isCompare_of_isArithmetic (h : op.isArithmetic) : op.isCompare = false := by
  cases op <;> simp_all [isArithmetic, isCompare]

theorem isArithmetic_of_isShift (h : op.isShift) : op.isArithmetic := by
  cases op <;> simp_all [isShift, isArithmetic]

theorem isCompare_of_isShift (h : op.isShift) : op.isCompare = false :=
  isCompare_of_isArithmetic (isArithmetic_of_isShift h)

end BinaryOp

theorem Kind.width_bounds {k : Kind} {w : Nat} (h : k.width? = some w) : 0 < w ∧ w ≤ 64 := by
  cases k <;> simp_all [Kind.width?] <;> omega

namespace Term

/-- Terms without floating point whose operands fit. Literals hold no bits above their width, and an
extension may keep the width but not cut it. -/
inductive Typed : Term → Nat → Prop
  | const {c : Literal} :
    0 < c.width → c.width ≤ 64 → c.value < 2 ^ c.width → Typed (const c) c.width
  | var {n : String} {k : Kind} {w : Nat} :
    k.isFloat = false → k.width? = some w → Typed (var n k) w
  | extract {s : Term} {o v w : Nat} :
    Typed s v → 0 < w → o + w ≤ v → Typed (extract s o w) w
  | not {s : Term} {w : Nat} : Typed s w → Typed (not s) w
  | cast {s : Term} {v w : Nat} {signed : Bool} :
    Typed s v → v ≤ w → w ≤ 64 → Typed (cast s w signed) w
  | arith {op : BinaryOp} {l r : Term} {w : Nat} :
    op.isArithmetic → op.isShift = false → Typed l w → Typed r w → Typed (binary op l r) w
  | shift {op : BinaryOp} {l r : Term} {v w : Nat} :
    op.isShift → Typed l w → Typed r v → Typed (binary op l r) w
  | compare {op : BinaryOp} {l r : Term} {v : Nat} :
    op.isCompare → Typed l v → Typed r v → Typed (binary op l r) 1
  | ite {c y n : Term} {w : Nat} : Typed c 1 → Typed y w → Typed n w → Typed (ite c y n) w

def occurrences : Term → List (String × Kind)
  | var n k => [(n, k)]
  | extract s _ _ | not s | cast s _ _ | convert _ s _ => s.occurrences
  | binary _ l r | float _ l r => l.occurrences ++ r.occurrences
  | ite c y n => c.occurrences ++ y.occurrences ++ n.occurrences
  | hole | const _ | fconst _ => []

def hasFloat : Term → Bool
  | fconst _ | float _ _ _ | convert _ _ _ => true
  | var _ k => k.isFloat
  | extract s _ _ | not s | cast s _ _ => s.hasFloat
  | binary _ l r => l.hasFloat || r.hasFloat
  | ite c y n => c.hasFloat || y.hasFloat || n.hasFloat
  | hole | const _ => false

def size (t : Term) : Nat := t.width.toOption.getD 0

namespace Typed

variable {t : Term} {w v : Nat}

theorem width (h : t.Typed w) : t.width = .ok w := by
  induction h with
  | const => rfl
  | var _ hk => simp [Term.width, Kind.width, hk]
  | extract => rfl
  | not _ ih => exact ih
  | cast => rfl
  | arith ha _ _ _ ih _ => simp [Term.width, BinaryOp.isCompare_of_isArithmetic ha, ih]
  | shift hs _ _ ih _ => simp [Term.width, BinaryOp.isCompare_of_isShift hs, ih]
  | compare hc => simp [Term.width, hc]
  | ite _ _ _ _ ih _ => exact ih

theorem size (h : t.Typed w) : t.size = w := by
  rw [Term.size, h.width]
  rfl

theorem unique (h : t.Typed w) (h' : t.Typed v) : w = v := by
  rw [← h.size, h'.size]

theorem bounds (h : t.Typed w) : 0 < w ∧ w ≤ 64 := by
  induction h with
  | const hp hl => exact ⟨hp, hl⟩
  | var _ hk => exact Kind.width_bounds hk
  | extract _ hw ho ih => omega
  | not _ ih => exact ih
  | cast _ hv hl ih => omega
  | arith _ _ _ _ ih _ => exact ih
  | shift _ _ _ ih _ => exact ih
  | compare => omega
  | ite _ _ _ _ ih _ => exact ih

theorem plain (h : t.Typed w) : t.hasFloat = false := by
  induction h with
  | const => rfl
  | var hf _ => exact hf
  | extract _ _ _ ih => exact ih
  | not _ ih => exact ih
  | cast _ _ _ ih => exact ih
  | arith _ _ _ _ ihl ihr => simp [hasFloat, ihl, ihr]
  | shift _ _ _ ihl ihr => simp [hasFloat, ihl, ihr]
  | compare _ _ _ ihl ihr => simp [hasFloat, ihl, ihr]
  | ite _ _ _ ihc ihy ihn => simp [hasFloat, ihc, ihy, ihn]

theorem operands {op : BinaryOp} {l r : Term} (h : (binary op l r).Typed w) :
    ∃ v, l.Typed v ∧ ∃ u, r.Typed u ∧ (op.isShift ∨ v = u) ∧ (op.isArithmetic ∨ op.isCompare) := by
  cases h with
  | arith ha _ hl hr => exact ⟨_, hl, _, hr, .inr rfl, .inl ha⟩
  | shift hs hl hr => exact ⟨_, hl, _, hr, .inl hs, .inl (BinaryOp.isArithmetic_of_isShift hs)⟩
  | compare hc hl hr => exact ⟨_, hl, _, hr, .inr rfl, .inr hc⟩

theorem pos (h : t.Typed w) : 0 < w := h.bounds.1

theorem le (h : t.Typed w) : w ≤ 64 := h.bounds.2

end Typed

def Consistent (ts : List Term) : Prop :=
  ∀ s ∈ ts, ∀ p ∈ s.occurrences, ∀ t ∈ ts, ∀ q ∈ t.occurrences, p.1 = q.1 → p.2 = q.2

instance (ts : List Term) : Decidable (Consistent ts) :=
  inferInstanceAs (Decidable (∀ s ∈ ts, ∀ p ∈ s.occurrences, ∀ t ∈ ts, ∀ q ∈ t.occurrences,
    p.1 = q.1 → p.2 = q.2))

theorem Consistent.exists_kinds {ts : List Term} (h : Consistent ts) :
    ∃ K : String → Kind, ∀ t ∈ ts, ∀ p ∈ t.occurrences, K p.1 = p.2 := by
  refine ⟨fun n => ((ts.flatMap occurrences).lookup n).getD default, fun t ht p hp => ?_⟩
  dsimp only
  cases hl : (ts.flatMap occurrences).lookup p.1 with
  | none =>
    have := List.lookup_eq_none_iff.mp hl p (List.mem_flatMap.mpr ⟨t, ht, hp⟩)
    simp at this
  | some k =>
    obtain ⟨s, hs, hp'⟩ := List.mem_flatMap.mp (Entries.mem_of_lookup hl)
    exact h s hs _ hp' t ht p hp rfl

end Term

namespace Input

def Binds (i : Input) (t : Term) : Prop :=
  ∀ p ∈ t.occurrences, (i.get? p.1).map Value.kind = some p.2

instance (i : Input) (t : Term) : Decidable (i.Binds t) :=
  inferInstanceAs (Decidable (∀ p ∈ t.occurrences, (i.get? p.1).map Value.kind = some p.2))

namespace Binds

variable {i : Input} {op : BinaryOp} {l r c y n s t : Term}

theorem mono (h : i.Binds t) (hs : s.occurrences ⊆ t.occurrences) : i.Binds s :=
  fun p hp => h p (hs hp)

theorem left (h : i.Binds (.binary op l r)) : i.Binds l := h.mono (List.subset_append_left _ _)

theorem right (h : i.Binds (.binary op l r)) : i.Binds r := h.mono (List.subset_append_right _ _)

theorem cond (h : i.Binds (.ite c y n)) : i.Binds c := by
  apply h.mono
  simp [Term.occurrences]

theorem yes (h : i.Binds (.ite c y n)) : i.Binds y := by
  apply h.mono
  intro p hp
  simp [Term.occurrences, hp]

theorem no (h : i.Binds (.ite c y n)) : i.Binds n := h.mono (List.subset_append_right _ _)

end Binds

end Input

end Concolic
