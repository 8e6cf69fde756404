import Mathlib
import Concolic.Branch
import Concolic.Proofs.Canonical.Compare

/-!
Whatever the simplifying constructors make of literals and variables stays as it is when every node
is put together again, and is a literal unless a variable is left in it.
-/

namespace Concolic

namespace Term

variable {w v : Nat} {s : Shape} {t l r : Term} {c : Literal} {op : BinaryOp}

theorem mkNot_canonical (ht : t.Canonical (.bits w)) : (mkNot t).Canonical (.bits w) := by
  cases t with
  | const c => exact .literal ht.width_literal
  | not s =>
    cases ht with
    | not hs => exact hs
  | _ => exact .not ht rfl

theorem mkIte_settles {c y n : Term} (hc : c.Canonical (.bits 1)) (hy : y.Canonical s)
    (hn : n.Canonical s) : Settles s (mkIte c y n) := by
  intro t h
  have made := h
  simp only [mkIte, hc.width, ok_bind, Shape.width, ne_eq, not_true_eq_false, if_false] at h
  split at h
  next =>
    cases h
    split
    · exact hy
    · exact hn
  next =>
    split_ifs at h with hs ht <;> cases h
    · exact hy
    · -- Only a bit is the true literal.
      obtain ⟨h1, -⟩ := Bool.and_eq_true_iff.mp ht
      cases hy with
      | const c =>
        have hw : c.width = 1 := by
          simp only [isTrue, Literal.isTrue, Bool.and_eq_true, beq_iff_eq] at h1
          exact h1.1
        rw [hw]
        exact hc
      | _ => simp [isTrue] at h1
    · exact .ite hc hy hn made

theorem offsetSum_le (a b : Nat) : offsetSum a b ≤ a + b := Nat.mod_le _ _

theorem mkExtract_settles {o u : Nat} (ht : t.Canonical (.bits v)) (hu : 0 < u) (ho : o + u ≤ v) :
    Settles (.bits u) (mkExtract t o u) := by
  induction hn : sizeOf t using Nat.strong_induction_on generalizing t o v
  next n ih =>
  subst hn
  intro t' h
  have plain (he : (.ok (extract t o u) : Except Defect Term) = .ok t') :
      t'.Canonical (.bits u) := by
    cases he
    exact .extract ht ho h
  have inside : ¬ v < offsetSum o u := Nat.not_lt.mpr ((offsetSum_le o u).trans ho)
  have made := h
  unfold mkExtract at made
  simp only [ht.width, ok_bind, Shape.width, inside, Nat.ne_of_gt hu, if_false] at made
  by_cases hv : u = v
  · rw [if_pos hv] at made
    cases made
    exact hv ▸ ht
  rw [if_neg hv] at made
  split at made
  next =>
    cases made
    exact .literal rfl
  next z k _ =>
    cases ht with
    | extract hz hk =>
      have := offsetSum_le k o
      exact ih (sizeOf z) (by simp; omega) hz (by omega) rfl t' made
  next z _ _ =>
    cases ht with
    | cast hz =>
      split at made
      next h0 =>
        simp only [hz.width, ok_bind, Shape.width] at made
        split_ifs at made with he hlt
        · cases made
          exact he ▸ hz
        · exact ih (sizeOf z) (by simp; omega) hz (by omega) rfl t' made
        · exact plain made
      next => exact plain made
  next => exact plain made

theorem mkCast_settles {u : Nat} {signed : Bool} (ht : t.Canonical (.bits w)) (hu : 0 < u) :
    Settles (.bits u) (mkCast t u signed) := by
  intro t' h
  have made := h
  simp only [mkCast, ht.width, ok_bind, Shape.width] at made
  by_cases he : u = w
  · rw [if_pos he] at made
    cases made
    exact he ▸ ht
  rw [if_neg he] at made
  by_cases hlt : u < w
  · rw [if_pos hlt] at made
    exact mkExtract_settles ht hu (by omega) t' made
  rw [if_neg hlt] at made
  split at made <;> cases made
  · cases signed
    · exact .literal (Literal.width_zext _ u)
    · exact .literal (Literal.width_sext _ u)
  · exact .cast ht h

theorem mkFloat_settles {op : FloatOp} (hu : op.isUnary = false) (hl : l.Canonical (.float w))
    (hr : r.Canonical (.float w))
    (folded : ∀ a b : FloatLiteral, a.width = w → Settles s (FloatLiteral.apply op a b))
    (kept : mkFloat op l r = .ok (float op l r) → (float op l r).Canonical s) :
    Settles s (mkFloat op l r) := by
  intro t h
  have made := h
  unfold mkFloat at made
  simp only [hu, Bool.false_eq_true, hl.width, hr.width, ok_bind, Shape.width, ne_eq,
    not_true_eq_false, if_false] at made
  split at made
  next a b =>
    cases hl
    exact folded a b rfl t made
  next =>
    cases made
    exact kept h

theorem mkFloat_settles_arith {op : FloatOp} (ha : op ∈ FloatOp.arithmetic)
    (hu : op.isUnary = false) (hl : l.Canonical (.float w)) (hr : r.Canonical (.float w)) :
    Settles (.float w) (mkFloat op l r) := by
  refine mkFloat_settles hu hl hr ?_ (.floatArith ha hu hl hr)
  rintro a b rfl
  have node (c : FloatLiteral) (hc : c.width = a.width) :
      Settles (.float a.width) (.ok (fconst c)) := (hc ▸ Canonical.fconst c).settles
  cases op with
  | add | sub | mul | div => exact node _ (width_compute _ a b)
  | rem => exact node _ rfl
  | _ => simp [FloatOp.arithmetic, FloatOp.isUnary] at ha hu

theorem mkFloat_settles_compare {op : FloatOp} (hc : op.isCompare) (hl : l.Canonical (.float w))
    (hr : r.Canonical (.float w)) : Settles (.bits 1) (mkFloat op l r) := by
  have hu : op.isUnary = false := by
    cases op <;> first | rfl | simp [FloatOp.isCompare] at hc
  refine mkFloat_settles hu hl hr (fun a b _ => ?_) (.floatCompare hc hl hr)
  cases op with
  | eq | lt | le => exact (ofBool_canonical _).settles
  | _ => simp [FloatOp.isCompare] at hc

theorem mkFloat_settles_neg (ht : t.Canonical (.float w)) :
    Settles (.float w) (mkFloat .neg t hole) := by
  intro t' h
  have made := h
  unfold mkFloat at made
  simp only [FloatOp.isUnary, isHole, if_true, Bool.not_true, Bool.false_eq_true, if_false] at made
  split at made <;> cases made
  next a =>
    cases ht
    exact .fconst a.neg
  next _ =>
    cases ht with
    | neg ht => exact ht
    | floatArith _ hu => simp [FloatOp.isUnary] at hu
  next => exact .neg ht h

theorem width_ofDouble {n u : Nat} {d : FloatLiteral} (h : FloatLiteral.ofDouble n u = .ok d) :
    d.width = u := by
  unfold FloatLiteral.ofDouble at h
  split at h <;> cases h
  rfl

theorem width_ofSigned {u : Nat} {d : FloatLiteral} (h : FloatLiteral.ofSigned c u = .ok d) :
    d.width = u := by
  unfold FloatLiteral.ofSigned at h
  split at h
  next hu =>
    cases h
    exact hu.symm
  next => exact width_ofDouble h

theorem width_toSigned {u : Nat} {a : FloatLiteral} (h : a.toSigned u = .ok c) : c.width = u := by
  unfold FloatLiteral.toSigned at h
  split at h <;> cases h
  rfl

theorem map_eq_ok {α β : Type} {e : Except Defect α} {f : α → β} {b : β} (h : f <$> e = .ok b) :
    ∃ a, e = .ok a ∧ f a = b := by
  cases e with
  | error => cases h
  | ok a =>
    cases h
    exact ⟨a, rfl, rfl⟩

theorem mkConvert_settles_ofSigned {u : Nat} (ht : t.Canonical (.bits w)) :
    Settles (.float u) (mkConvert .ofSigned t u) := by
  intro t' h
  have made := h
  unfold mkConvert at made
  dsimp only at made
  split at made
  next =>
    obtain ⟨d, hd, rfl⟩ := map_eq_ok made
    exact width_ofSigned hd ▸ .fconst d
  next =>
    cases made
    exact .ofSigned ht h

theorem mkConvert_settles_toSigned {u : Nat} (ht : t.Canonical (.float w)) :
    Settles (.bits u) (mkConvert .toSigned t u) := by
  intro t' h
  have made := h
  unfold mkConvert at made
  dsimp only at made
  split at made
  next =>
    obtain ⟨d, hd, rfl⟩ := map_eq_ok made
    exact .literal (width_toSigned hd)
  next =>
    cases made
    exact .toSigned ht h

theorem mkConvert_settles_resize {u : Nat} (ht : t.Canonical (.float w)) :
    Settles (.float u) (mkConvert .resize t u) := by
  intro t' h
  have made := h
  simp only [mkConvert, ht.width, ok_bind, Shape.width] at made
  split at made
  next hw =>
    cases made
    exact hw ▸ ht
  next =>
    split at made
    next =>
      obtain ⟨d, hd, rfl⟩ := map_eq_ok made
      exact width_ofDouble hd ▸ .fconst d
    next =>
      cases made
      exact .resize ht h

theorem Built.canonical (h : t.Built s) : t.Canonical s := by
  induction h with
  | const c => exact .const c
  | fconst c => exact .fconst c
  | var hk => exact .var hk
  | extract _ hw ho h ih => exact mkExtract_settles ih hw ho _ h
  | not _ ih => exact mkNot_canonical ih
  | cast _ hw h ih => exact mkCast_settles ih hw _ h
  | isZero _ h ih => exact mkIsZero_settles ih _ h
  | ofSigned _ h ih => exact mkConvert_settles_ofSigned ih _ h
  | toSigned _ h ih => exact mkConvert_settles_toSigned ih _ h
  | resize _ h ih => exact mkConvert_settles_resize ih _ h
  | arith ha hs _ _ h ihl ihr => exact mkBinary_settles_arith ha hs ihl ihr _ h
  | shift hs _ _ h ihl ihr => exact mkBinary_settles_shift hs ihl ihr _ h
  | compare hc _ _ h ihl ihr => exact mkBinary_settles_compare hc ihl ihr _ h
  | floatArith ha hu _ _ h ihl ihr => exact mkFloat_settles_arith ha hu ihl ihr _ h
  | neg _ h ih => exact mkFloat_settles_neg ih _ h
  | floatCompare hc _ _ h ihl ihr => exact mkFloat_settles_compare hc ihl ihr _ h
  | ite _ _ _ h ihc ihy ihn => exact mkIte_settles ihc ihy ihn _ h

/-! Of literals the constructors make literals. -/

section Folded

variable {a b : Literal}

theorem mkXor_folded (a b : Literal) : (mkXor (const a) (const b)).isConstant := by
  change (if a.value = 0 then const b else const (a.xor b)).isConstant
  split <;> rfl

theorem mkBinary_folded (h : mkBinary op (const a) (const b) = .ok t) : t.isConstant := by
  cases op with
  | shl | lshr | ashr =>
    cases h
    rfl
  | unknown =>
    obtain ⟨w, -, h⟩ := bind_eq_ok h
    cases h
  | add =>
    obtain ⟨w, -, h⟩ := bind_eq_ok h
    dsimp only at h
    rw [mkAdd_literal, plus] at h
    split_ifs at h <;> cases h
    · exact mkXor_folded a b
    · exact mkXor_folded a b
    · rfl
    · rfl
  | sub =>
    obtain ⟨w, -, h⟩ := bind_eq_ok h
    dsimp only [mkSub] at h
    rw [minus] at h
    split at h <;> cases h <;> rfl
  | xor =>
    obtain ⟨w, -, h⟩ := bind_eq_ok h
    cases h
    exact mkXor_folded a b
  | udiv | sdiv | urem | srem =>
    obtain ⟨w, -, h⟩ := bind_eq_ok h
    obtain ⟨d, -, rfl⟩ := map_eq_ok h
    rfl
  | ne =>
    obtain ⟨w, -, h⟩ := bind_eq_ok h
    obtain ⟨e, he, h⟩ := bind_eq_ok h
    cases he
    obtain ⟨w, -, h⟩ := bind_eq_ok h
    cases h
    rfl
  | _ =>
    obtain ⟨w, -, h⟩ := bind_eq_ok h
    cases h
    rfl

theorem mkExtract_folded {o u : Nat} (h : mkExtract (const a) o u = .ok t) : t.isConstant := by
  unfold mkExtract at h
  obtain ⟨v, hv, h⟩ := bind_eq_ok h
  by_cases hu : u = 0
  · rw [if_pos hu] at h
    cases h
  rw [if_neg hu] at h
  by_cases ho : v < offsetSum o u
  · simp only [if_pos ho] at h
    cases h
  simp only [if_neg ho] at h
  split at h <;> cases h <;> rfl

theorem mkCast_folded {u : Nat} {signed : Bool} (h : mkCast (const a) u signed = .ok t) :
    t.isConstant := by
  obtain ⟨v, hv, h⟩ := bind_eq_ok h
  by_cases he : u = v
  · rw [if_pos he] at h
    cases h
    rfl
  rw [if_neg he] at h
  by_cases hlt : u < v
  · rw [if_pos hlt] at h
    exact mkExtract_folded h
  · rw [if_neg hlt] at h
    cases h
    rfl

theorem apply_folded {op : FloatOp} {a b : FloatLiteral} (h : FloatLiteral.apply op a b = .ok t) :
    t.isConstant := by
  cases op <;> cases h <;> rfl

theorem mkFloat_folded {op : FloatOp} {a b : FloatLiteral} (hu : op.isUnary = false)
    (h : mkFloat op (fconst a) (fconst b) = .ok t) : t.isConstant := by
  unfold mkFloat at h
  simp only [hu, Bool.false_eq_true, if_false, Term.width, ok_bind] at h
  split at h
  · cases h
  · exact apply_folded h

end Folded

namespace Canonical

theorem eq_const (h : t.Canonical (.bits w)) (hc : t.isConstant) : ∃ c, t = Term.const c := by
  cases t with
  | const c => exact ⟨c, rfl⟩
  | fconst => cases h
  | _ => cases hc

theorem eq_fconst (h : t.Canonical (.float w)) (hc : t.isConstant) : ∃ c, t = Term.fconst c := by
  cases t with
  | fconst c => exact ⟨c, rfl⟩
  | const => cases h
  | _ => cases hc

theorem isConstant (h : t.Canonical s) (hv : t.occurrences = []) : t.isConstant := by
  induction h with
  | const | fconst => rfl
  | var => simp [occurrences] at hv
  | extract ht _ kept ih =>
    obtain ⟨c, rfl⟩ := ht.eq_const (ih hv)
    cases mkExtract_folded kept
  | not ht kept ih =>
    obtain ⟨c, rfl⟩ := ht.eq_const (ih hv)
    cases kept
  | cast ht kept ih =>
    obtain ⟨c, rfl⟩ := ht.eq_const (ih hv)
    cases mkCast_folded kept
  | ofSigned ht kept ih =>
    obtain ⟨c, rfl⟩ := ht.eq_const (ih hv)
    obtain ⟨d, -, hd⟩ := map_eq_ok kept
    cases hd
  | toSigned ht kept ih =>
    obtain ⟨c, rfl⟩ := ht.eq_fconst (ih hv)
    obtain ⟨d, -, hd⟩ := map_eq_ok kept
    cases hd
  | resize ht kept ih =>
    obtain ⟨c, rfl⟩ := ht.eq_fconst (ih hv)
    obtain ⟨v, -, kept⟩ := bind_eq_ok kept
    split at kept
    · cases kept
    · obtain ⟨d, -, hd⟩ := map_eq_ok kept
      cases hd
  | arith _ _ hl hr kept ihl ihr | shift _ hl hr kept ihl ihr | compare _ hl hr kept ihl ihr =>
    obtain ⟨hvl, hvr⟩ := List.append_eq_nil_iff.mp hv
    obtain ⟨a, rfl⟩ := hl.eq_const (ihl hvl)
    obtain ⟨b, rfl⟩ := hr.eq_const (ihr hvr)
    cases mkBinary_folded kept
  | floatArith _ hu hl hr kept ihl ihr =>
    obtain ⟨hvl, hvr⟩ := List.append_eq_nil_iff.mp hv
    obtain ⟨a, rfl⟩ := hl.eq_fconst (ihl hvl)
    obtain ⟨b, rfl⟩ := hr.eq_fconst (ihr hvr)
    cases mkFloat_folded hu kept
  | neg ht kept ih =>
    obtain ⟨c, rfl⟩ := ht.eq_fconst (ih (by simpa [occurrences] using hv))
    cases kept
  | @floatCompare op _ _ _ hc hl hr kept ihl ihr =>
    have hu : op.isUnary = false := by
      cases op <;> first | rfl | simp [FloatOp.isCompare] at hc
    obtain ⟨hvl, hvr⟩ := List.append_eq_nil_iff.mp hv
    obtain ⟨a, rfl⟩ := hl.eq_fconst (ihl hvl)
    obtain ⟨b, rfl⟩ := hr.eq_fconst (ihr hvr)
    cases mkFloat_folded hu kept
  | ite hc _ _ kept ihc _ _ =>
    -- A conditional on a literal would be one of its own branches.
    obtain ⟨hv, -⟩ := List.append_eq_nil_iff.mp hv
    obtain ⟨c, rfl⟩ := hc.eq_const (ihc (List.append_eq_nil_iff.mp hv).1)
    simp only [mkIte, hc.width, ok_bind, Shape.width, ne_eq, not_true_eq_false, if_false] at kept
    have size := congrArg sizeOf (Except.ok.inj kept)
    rw [Term.ite.sizeOf_spec] at size
    split at size <;> omega

theorem isConstant_iff (h : t.Canonical s) : t.isConstant ↔ t.occurrences = [] := by
  refine ⟨fun hc => ?_, h.isConstant⟩
  cases t <;> first | rfl | cases hc

end Canonical

/-- What the constructors make is a literal or mentions an input, so that a branch on it is concrete
if and only if it mentions none, and putting it together again gives the same term. -/
theorem constructors_give_canonical_form {e : Term} {s : Shape} (h : e.Built s) :
    (e.isConstant ∨ e.occurrences ≠ []) ∧
    (∀ pos taken, (Branch.mk pos e taken).isConcrete ↔ e.occurrences = []) ∧
    e.rebuild = .ok e := by
  have canonical := h.canonical
  refine ⟨?_, fun _ _ => canonical.isConstant_iff, canonical.rebuild⟩
  rw [canonical.isConstant_iff]
  exact em _

def merged : Term :=
  ite (float .lt (var "a" .double) (fconst ⟨0x3ff0000000000000, 64⟩))
    (binary .sub (const ⟨8, 32⟩) (var "x" .int)) (var "x" .int)

theorem merged_built : merged.Built (.bits 32) := by
  have x : (var "x" .int).Built (.bits 32) := .var rfl
  have a : (var "a" .double).Built (.float 64) := .var rfl
  have difference : mkBinary .sub (const ⟨5, 32⟩) (var "x" .int) =
      .ok (binary .sub (const ⟨5, 32⟩) (var "x" .int)) := rfl
  have sum : mkBinary .add (const ⟨3, 32⟩) (binary .sub (const ⟨5, 32⟩) (var "x" .int)) =
      .ok (binary .sub (const ⟨8, 32⟩) (var "x" .int)) := rfl
  have below : mkFloat .lt (var "a" .double) (fconst ⟨0x3ff0000000000000, 64⟩) =
      .ok (float .lt (var "a" .double) (fconst ⟨0x3ff0000000000000, 64⟩)) := rfl
  exact .ite (.floatCompare rfl a (.fconst _) below)
    (.arith rfl rfl (.const ⟨3, 32⟩) (.arith rfl rfl (.const ⟨5, 32⟩) x difference) sum) x rfl

theorem constructors_give_canonical_form_merged :
    merged.Built (.bits 32) ∧ merged.occurrences ≠ [] ∧ merged.rebuild = .ok merged :=
  ⟨merged_built, by decide, (constructors_give_canonical_form merged_built).2.2⟩

end Term

end Concolic
