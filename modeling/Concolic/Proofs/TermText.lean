import Mathlib
import Concolic.Proofs.Order
import Concolic.Proofs.ValueText

/-!
The text of a term is read from the left: its first word says which form the term has, a name ends
at the next blank, and a number ends where its digits do. Main statement: no two bit-vector terms
have one text, whatever their names hold besides blanks.
-/

namespace Concolic

theorem Text.toDigits_inj {m n : Nat} : Nat.toDigits 10 m = Nat.toDigits 10 n ↔ m = n := by
  constructor
  · intro h
    apply Option.some.inj
    rw [← digits?_toDigits m, h, digits?_toDigits]
  · exact congrArg _

theorem Text.toDigits_append_inj {m n : Nat} {c : Char} {x y : List Char} (hc : isDecimal c = false)
    (h : Nat.toDigits 10 m ++ c :: x = Nat.toDigits 10 n ++ c :: y) : m = n ∧ x = y := by
  have ends (k : Nat) : c ∉ Nat.toDigits 10 k := fun hk =>
    Bool.false_ne_true (hc ▸ isDecimal_of_mem_toDigits hk)
  obtain ⟨hn, hx⟩ := append_cons_inj (ends m) (ends n) h
  exact ⟨toDigits_inj.mp hn, hx⟩

namespace Kind

variable {k k' : Kind}

theorem name_inj (hk : k ∈ all) (hk' : k' ∈ all) (h : k.name = k'.name) : k = k' :=
  List.inj_on_of_nodup_map (f := name) (by decide) hk hk' h

theorem name_closed : ∀ k ∈ all, ')' ∉ k.name.toList := by decide

end Kind

namespace Term

inductive Head
  | const | var | extract | not | ite
  | cast (signed : Bool)
  | binary (op : BinaryOp)
  deriving DecidableEq

namespace Head

def word : Head → String
  | const => "const"
  | var => "var"
  | extract => "extract"
  | not => "not"
  | ite => "ite"
  | cast signed => if signed then "sext" else "zext"
  | binary op => op.name

def all : List Head :=
  [const, var, extract, not, ite, cast true, cast false]
    ++ (BinaryOp.arithmetic ++ BinaryOp.comparisons).map binary

theorem word_inj {g h : Head} (hg : g ∈ all) (hh : h ∈ all) (hw : g.word = h.word) : g = h :=
  List.inj_on_of_nodup_map (f := word) (by decide +kernel) hg hh hw

theorem word_closed : ∀ h ∈ all, ' ' ∉ h.word.toList := by decide +kernel

end Head

def head? : Term → Option Head
  | const _ => some .const
  | var _ _ => some .var
  | extract _ _ _ => some .extract
  | not _ => some .not
  | cast _ _ signed => some (.cast signed)
  | binary op _ _ => some (.binary op)
  | ite _ _ _ => some .ite
  | hole | fconst _ | convert _ _ _ | float _ _ _ => none

/-- A term without floating point of which every operand is given, every kind and operator exists,
and no name has a blank. Nothing is asked of widths. -/
def IsLegible : Term → Prop
  | const _ => True
  | var name kind => ' ' ∉ name.toList ∧ kind ∈ Kind.all
  | extract src _ _ | not src | cast src _ _ => src.IsLegible
  | binary op lhs rhs =>
    op ∈ BinaryOp.arithmetic ++ BinaryOp.comparisons ∧ lhs.IsLegible ∧ rhs.IsLegible
  | ite cond yes no => cond.IsLegible ∧ yes.IsLegible ∧ no.IsLegible
  | hole | fconst _ | convert _ _ _ | float _ _ _ => False

def decideLegible : (t : Term) → Decidable t.IsLegible
  | const _ => .isTrue trivial
  | var name kind => inferInstanceAs (Decidable (' ' ∉ name.toList ∧ kind ∈ Kind.all))
  | extract src _ _ | not src | cast src _ _ => decideLegible src
  | binary op lhs rhs =>
    have := decideLegible lhs
    have := decideLegible rhs
    inferInstanceAs (Decidable (op ∈ BinaryOp.arithmetic ++ BinaryOp.comparisons ∧
      lhs.IsLegible ∧ rhs.IsLegible))
  | ite cond yes no =>
    have := decideLegible cond
    have := decideLegible yes
    have := decideLegible no
    inferInstanceAs (Decidable (cond.IsLegible ∧ yes.IsLegible ∧ no.IsLegible))
  | hole | fconst _ | convert _ _ _ | float _ _ _ => .isFalse id

instance : DecidablePred IsLegible := decideLegible

def tail : Term → List Char → List Char
  | const c, rest => Nat.toDigits 10 c.value ++ ' ' :: (Nat.toDigits 10 c.width ++ ')' :: rest)
  | var name kind, rest => name.toList ++ ' ' :: (kind.name.toList ++ ')' :: rest)
  | extract src offset width, rest =>
    src.text.toList ++
      ' ' :: (Nat.toDigits 10 offset ++ ' ' :: (Nat.toDigits 10 width ++ ')' :: rest))
  | not src, rest => src.text.toList ++ ')' :: rest
  | cast src width _, rest => src.text.toList ++ ' ' :: (Nat.toDigits 10 width ++ ')' :: rest)
  | binary _ lhs rhs, rest => lhs.text.toList ++ ' ' :: (rhs.text.toList ++ ')' :: rest)
  | ite cond yes no, rest =>
    cond.text.toList ++ ' ' :: (yes.text.toList ++ ' ' :: (no.text.toList ++ ')' :: rest))
  | hole, rest | fconst _, rest | convert _ _ _, rest | float _ _ _, rest => rest

variable {a b : Term} {x y : List Char}

theorem toList_text_append {g : Head} (h : a.head? = some g) :
    a.text.toList ++ x = '(' :: (g.word.toList ++ ' ' :: a.tail x) := by
  cases a with
  | hole | fconst | convert | float => cases h
  | cast src width signed =>
    cases h
    cases signed <;> simp [text, tail, Head.word]
  | _ =>
    cases h
    simp [text, tail, Head.word, Literal.text]

theorem IsLegible.exists_head (h : a.IsLegible) : ∃ g ∈ Head.all, a.head? = some g := by
  cases a with
  | hole | fconst | convert | float => exact h.elim
  | cast src width signed =>
    refine ⟨_, List.mem_append_left _ ?_, rfl⟩
    cases signed <;> decide
  | binary op lhs rhs => exact ⟨_, List.mem_append_right _ (List.mem_map_of_mem h.1), rfl⟩
  | _ =>
    refine ⟨_, List.mem_append_left _ ?_, rfl⟩
    decide

theorem head?_eq_of_text (ha : a.IsLegible) (hb : b.IsLegible)
    (h : a.text.toList ++ x = b.text.toList ++ y) : a.head? = b.head? ∧ a.tail x = b.tail y := by
  obtain ⟨f, hf, ha⟩ := ha.exists_head
  obtain ⟨g, hg, hb⟩ := hb.exists_head
  rw [toList_text_append ha, toList_text_append hb] at h
  obtain ⟨hw, ht⟩ := append_cons_inj (Head.word_closed f hf) (Head.word_closed g hg)
    (List.cons.inj h).2
  rw [ha, hb, Head.word_inj hf hg (String.toList_inj.mp hw)]
  exact ⟨rfl, ht⟩

/-- A text ends where its term does, whatever follows it. -/
theorem text_append_inj (ha : a.IsLegible) (hb : b.IsLegible)
    (h : a.text.toList ++ x = b.text.toList ++ y) : a = b ∧ x = y := by
  -- The rest of both texts is left general, so that an operand is read before those after it.
  induction a generalizing b x y with
  | hole | fconst | convert | float => exact ha.elim
  | const c =>
    obtain ⟨hh, ht⟩ := head?_eq_of_text ha hb h
    cases b with
    | const d =>
      obtain ⟨hv, ht⟩ := Text.toDigits_append_inj (by decide) ht
      obtain ⟨hw, ht⟩ := Text.toDigits_append_inj (by decide) ht
      exact ⟨congrArg const (Literal.mk.injEq .. ▸ ⟨hv, hw⟩), ht⟩
    | _ => cases hh
  | var name kind =>
    obtain ⟨hh, ht⟩ := head?_eq_of_text ha hb h
    cases b with
    | var name' kind' =>
      obtain ⟨hn, ht⟩ := append_cons_inj ha.1 hb.1 ht
      obtain ⟨hk, ht⟩ :=
        append_cons_inj (Kind.name_closed kind ha.2) (Kind.name_closed kind' hb.2) ht
      rw [String.toList_inj.mp hn, Kind.name_inj ha.2 hb.2 (String.toList_inj.mp hk)]
      exact ⟨rfl, ht⟩
    | _ => cases hh
  | extract src offset width ih =>
    obtain ⟨hh, ht⟩ := head?_eq_of_text ha hb h
    cases b with
    | extract src' offset' width' =>
      obtain ⟨rfl, ho⟩ := ih (b := src') ha hb ht
      obtain ⟨rfl, hw⟩ := Text.toDigits_append_inj (by decide) (List.cons.inj ho).2
      obtain ⟨rfl, hx⟩ := Text.toDigits_append_inj (by decide) hw
      exact ⟨rfl, hx⟩
    | _ => cases hh
  | not src ih =>
    obtain ⟨hh, ht⟩ := head?_eq_of_text ha hb h
    cases b with
    | not src' =>
      obtain ⟨rfl, hx⟩ := ih (b := src') ha hb ht
      exact ⟨rfl, (List.cons.inj hx).2⟩
    | _ => cases hh
  | cast src width signed ih =>
    obtain ⟨hh, ht⟩ := head?_eq_of_text ha hb h
    cases b with
    | cast src' width' signed' =>
      cases hh
      obtain ⟨rfl, hw⟩ := ih (b := src') ha hb ht
      obtain ⟨rfl, hx⟩ := Text.toDigits_append_inj (by decide) (List.cons.inj hw).2
      exact ⟨rfl, hx⟩
    | _ => cases hh
  | binary op lhs rhs ihl ihr =>
    obtain ⟨hh, ht⟩ := head?_eq_of_text ha hb h
    cases b with
    | binary op' lhs' rhs' =>
      cases hh
      obtain ⟨rfl, hr⟩ := ihl (b := lhs') ha.2.1 hb.2.1 ht
      obtain ⟨rfl, hx⟩ := ihr (b := rhs') ha.2.2 hb.2.2 (List.cons.inj hr).2
      exact ⟨rfl, (List.cons.inj hx).2⟩
    | _ => cases hh
  | ite cond yes no ihc ihy ihn =>
    obtain ⟨hh, ht⟩ := head?_eq_of_text ha hb h
    cases b with
    | ite cond' yes' no' =>
      obtain ⟨rfl, hy⟩ := ihc (b := cond') ha.1 hb.1 ht
      obtain ⟨rfl, hn⟩ := ihy (b := yes') ha.2.1 hb.2.1 (List.cons.inj hy).2
      obtain ⟨rfl, hx⟩ := ihn (b := no') ha.2.2 hb.2.2 (List.cons.inj hn).2
      exact ⟨rfl, (List.cons.inj hx).2⟩
    | _ => cases hh

theorem IsLegible.textHash_eq (h : a.IsLegible) : a.textHash = Text.hashText a.text := by
  cases a with
  | hole => exact h.elim
  | _ => rfl

/-- Two terms have one text, which is what is hashed, just if the order takes them for equal. -/
theorem text_determines_term (ha : a.IsLegible) (hb : b.IsLegible) :
    (a.text = b.text ↔ a.order b = 0) ∧ (a.text = b.text → a = b) ∧
      a.textHash = Text.hashText a.text ∧ b.textHash = Text.hashText b.text := by
  have equal (h : a.text = b.text) : a = b := by
    have hl : a.text.toList ++ [] = b.text.toList ++ [] := by rw [h]
    exact (text_append_inj ha hb hl).1
  refine ⟨⟨fun h => order_eq_zero_iff.mpr (equal h), fun h => ?_⟩, equal, ha.textHash_eq,
    hb.textHash_eq⟩
  rw [order_eq_zero_iff.mp h]

theorem text_determines_term_nested :
    let a := ite (var "(ite" .bool) (const ⟨1, 32⟩) (var "x)int)" .int)
    let b := ite (var "(ite" .bool) (const ⟨1, 32⟩) (not (var "x" .int))
    a.IsLegible ∧ b.IsLegible ∧ a.text ≠ b.text ∧ a.textHash = Text.hashText a.text := by
  intro a b
  have ha : a.IsLegible := by decide
  have hb : b.IsLegible := by decide
  obtain ⟨-, equal, hash, -⟩ := text_determines_term ha hb
  exact ⟨ha, hb, fun h => absurd (equal h) (by decide), hash⟩

end Term

end Concolic
