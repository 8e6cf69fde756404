import Mathlib
import Concolic.Term.Order

namespace Concolic

theorem Literal.compare_eq_iff {a b : Literal} : a.compare b = .eq ↔ a = b := by
  cases a
  cases b
  simp [Literal.compare, and_comm]

theorem FloatLiteral.compare_eq_iff {a b : FloatLiteral} : a.compare b = .eq ↔ a = b := by
  cases a
  cases b
  simp [FloatLiteral.compare, and_comm]

theorem toUInt64_inj {a b : Int64} : a.toUInt64 = b.toUInt64 ↔ a = b := by
  cases a
  cases b
  simp

theorem Kind.code_injective : Function.Injective code := Function.LeftInverse.injective ofCode_code

theorem ConvertOp.code_injective : Function.Injective code :=
  Function.LeftInverse.injective ofCode_code

theorem BinaryOp.code_injective : Function.Injective code :=
  Function.LeftInverse.injective ofCode_code

theorem FloatOp.code_injective : Function.Injective code :=
  Function.LeftInverse.injective ofCode_code

/-- Three comparisons that fit together: of a first with a second, of that with a third, and of the
first with the third. -/
structure Chained (x y z : Ordering) : Prop where
  le : x.isLE → y.isLE → z.isLE
  eq : x.isLE → y.isLE → z = .eq → x = .eq ∧ y = .eq

theorem chained_compare {α : Type} [Ord α] [Std.TransOrd α] (a b c : α) :
    Chained (compare a b) (compare b c) (compare a c) := by
  refine ⟨Std.TransOrd.isLE_trans, fun hab hbc hac => ?_⟩
  have hca : (compare c a).isLE := by
    rw [Std.OrientedOrd.eq_swap (a := c), hac]
    rfl
  refine ⟨Std.OrientedCmp.isLE_antisymm hab ?_, Std.OrientedCmp.isLE_antisymm hbc ?_⟩
  · exact Std.TransOrd.isLE_trans hbc hca
  · exact Std.TransOrd.isLE_trans hca hab

theorem Chained.reverse {x y z : Ordering} (h : Chained x y z) : Chained y x z :=
  ⟨fun hy hx => h.le hx hy, fun hy hx hz => (h.eq hx hy hz).symm⟩

theorem Chained.andThen {x y z x' y' z' : Ordering} (h : Chained x y z) (h' : Chained x' y' z') :
    Chained (x.then x') (y.then y') (z.then z') := by
  obtain ⟨le, eq⟩ := h
  obtain ⟨le', eq'⟩ := h'
  constructor <;> cases x <;> cases y <;> cases z <;> simp_all

theorem Literal.chained (a b c : Literal) :
    Chained (a.compare b) (b.compare c) (a.compare c) :=
  (chained_compare ..).andThen (chained_compare ..)

theorem FloatLiteral.chained (a b c : FloatLiteral) :
    Chained (a.compare b) (b.compare c) (a.compare c) :=
  (chained_compare ..).andThen (chained_compare ..)

namespace Term

theorem compare_eq_iff {a b : Term} : compare a b = .eq ↔ a = b := by
  induction a generalizing b with
  | hole => cases b <;> simp [compare, rank]
  | const c => cases b <;> simp [compare, rank, Literal.compare_eq_iff]
  | fconst c => cases b <;> simp [compare, rank, FloatLiteral.compare_eq_iff]
  | var n k => cases b <;> simp [compare, rank, toUInt64_inj, Kind.code_injective.eq_iff]
  | extract s o w ih =>
    cases b <;> simp [compare, rank, ih]
    tauto
  | not s ih => cases b <;> simp [compare, rank, ih]
  | cast s w g ih =>
    cases b <;> simp [compare, rank, ih]
    tauto
  | convert op s w ih =>
    cases b <;> simp [compare, rank, ih, toUInt64_inj, ConvertOp.code_injective.eq_iff]
    tauto
  | binary op l r ihl ihr =>
    cases b <;> simp [compare, rank, ihl, ihr, BinaryOp.code_injective.eq_iff, and_assoc]
  | float op l r ihl ihr =>
    cases b <;> simp [compare, rank, ihl, ihr, FloatOp.code_injective.eq_iff, and_assoc]
  | ite c y n ihc ihy ihn =>
    cases b <;> simp [compare, rank, ihc, ihy, ihn, and_assoc]

theorem same_iff {a b : Term} : a.same b = true ↔ a = b := by
  rw [same, beq_iff_eq, compare_eq_iff]

theorem compare_swap (a b : Term) : compare a b = (compare b a).swap := by
  have oriented : ∀ {α : Type} [Ord α] [Std.OrientedOrd α] (x y : α),
      Ord.compare x y = (Ord.compare y x).swap := fun _ _ => Std.OrientedOrd.eq_swap
  induction a generalizing b with
  | hole => cases b <;> rfl
  | const c => cases b <;> simp only [compare, Literal.compare, Ordering.swap_then, ← oriented]
  | fconst c => cases b <;> simp only [compare, FloatLiteral.compare, Ordering.swap_then, ← oriented]
  | var n k => cases b <;> simp only [compare, Ordering.swap_then, ← oriented]
  | extract s o w ih => cases b <;> simp only [compare, Ordering.swap_then, ← oriented, ← ih]
  | not s ih => cases b <;> simp only [compare, ← oriented, ← ih]
  | cast s w g ih => cases b <;> simp only [compare, Ordering.swap_then, ← oriented, ← ih]
  | convert op s w ih => cases b <;> simp only [compare, Ordering.swap_then, ← oriented, ← ih]
  | binary op l r ihl ihr =>
    cases b <;> simp only [compare, Ordering.swap_then, ← oriented, ← ihl, ← ihr]
  | float op l r ihl ihr =>
    cases b <;> simp only [compare, Ordering.swap_then, ← oriented, ← ihl, ← ihr]
  | ite c y n ihc ihy ihn =>
    cases b <;> simp only [compare, Ordering.swap_then, ← oriented, ← ihc, ← ihy, ← ihn]

theorem compare_of_rank_lt {a b : Term} (h : a.rank < b.rank) : compare a b = .lt := by
  cases a <;> cases b <;> simp [rank] at h ⊢ <;> rfl

theorem rank_le_of_isLE {a b : Term} (h : (compare a b).isLE) : a.rank ≤ b.rank := by
  by_contra hlt
  rw [compare_swap, compare_of_rank_lt (Nat.lt_of_not_le hlt)] at h
  cases h

theorem chained_of_rank {a b c : Term} (h : a.rank = b.rank → b.rank = c.rank →
    Chained (compare a b) (compare b c) (compare a c)) :
    Chained (compare a b) (compare b c) (compare a c) := by
  by_cases he : a.rank = b.rank ∧ b.rank = c.rank
  · exact h he.1 he.2
  · have lt (hab : (compare a b).isLE) (hbc : (compare b c).isLE) : compare a c = .lt := by
      have hb := rank_le_of_isLE hab
      have hc := rank_le_of_isLE hbc
      exact compare_of_rank_lt (by omega)
    refine ⟨fun hab hbc => ?_, fun hab hbc hac => ?_⟩
    · rw [lt hab hbc]
      rfl
    · rw [lt hab hbc] at hac
      cases hac

theorem compare_chained (a b c : Term) : Chained (compare a b) (compare b c) (compare a c) := by
  -- Of the terms only those of one form are left, and their fields are compared in turn.
  induction a generalizing b c <;> refine chained_of_rank fun hb hc => ?_ <;>
    cases b <;> simp [rank] at hb <;> cases c <;> simp [rank] at hc
  case hole.hole.hole => exact ⟨fun _ _ => rfl, fun _ _ _ => ⟨rfl, rfl⟩⟩
  case const.const.const => exact Literal.chained ..
  case fconst.fconst.fconst => exact FloatLiteral.chained ..
  case var.var.var => exact (chained_compare ..).andThen (chained_compare ..)
  case extract.extract.extract ih _ _ _ _ _ _ =>
    exact ((chained_compare ..).andThen (chained_compare ..)).andThen (ih ..)
  case not.not.not ih _ _ => exact ih ..
  case cast.cast.cast ih _ _ _ _ _ _ =>
    exact ((chained_compare ..).reverse.andThen (chained_compare ..)).andThen (ih ..)
  case convert.convert.convert ih _ _ _ _ _ _ =>
    exact ((chained_compare ..).andThen (chained_compare ..)).andThen (ih ..)
  case binary.binary.binary ihl ihr _ _ _ _ _ _ =>
    exact ((chained_compare ..).andThen (ihl ..)).andThen (ihr ..)
  case float.float.float ihl ihr _ _ _ _ _ _ =>
    exact ((chained_compare ..).andThen (ihl ..)).andThen (ihr ..)
  case ite.ite.ite ihc ihy ihn _ _ _ _ _ _ =>
    exact ((ihc ..).andThen (ihy ..)).andThen (ihn ..)

def order (a b : Term) : Int :=
  match compare a b with
  | .lt => -1
  | .eq => 0
  | .gt => 1

theorem order_nonpos_iff {a b : Term} : a.order b ≤ 0 ↔ (compare a b).isLE := by
  unfold order
  cases compare a b <;> simp

theorem order_eq_zero_iff {a b : Term} : a.order b = 0 ↔ a = b := by
  rw [← compare_eq_iff, order]
  cases compare a b <;> simp

theorem order_neg (a b : Term) : a.order b = -b.order a := by
  rw [order, order, compare_swap]
  cases compare b a <;> rfl

theorem compare_is_total_order (a b c : Term) :
    (a.order b = -1 ∨ a.order b = 0 ∨ a.order b = 1) ∧ a.order b = -b.order a ∧
    (a.order b ≤ 0 → b.order c ≤ 0 → a.order c ≤ 0) ∧ (a.order b = 0 ↔ a = b) := by
  refine ⟨?_, order_neg a b, ?_, order_eq_zero_iff⟩
  · unfold order
    cases compare a b <;> simp
  · simp only [order_nonpos_iff]
    exact (compare_chained a b c).le

end Term

end Concolic
