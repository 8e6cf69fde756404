import Mathlib
import Concolic.Proofs.Safety.Operation
import Concolic.Proofs.Simplify.Placement

namespace Concolic

namespace Literal

variable {a b c : Literal}

theorem width_udiv (a b : Literal) : (a.udiv b).width = a.width := by
  unfold udiv
  split <;> rfl

theorem width_urem (a b : Literal) : (a.urem b).width = a.width := by
  unfold urem
  split <;> rfl

theorem width_sdiv (h : a.sdiv b = .ok c) : c.width = a.width := by
  unfold sdiv at h
  split_ifs at h <;> cases h <;> rfl

theorem width_srem (h : a.srem b = .ok c) : c.width = a.width := by
  unfold srem at h
  split_ifs at h <;> cases h <;> rfl

theorem width_shl (a b : Literal) : (a.shl b).width = a.width := by
  unfold shl
  split <;> rfl

theorem width_lshr (a b : Literal) : (a.lshr b).width = a.width := by
  unfold lshr
  split <;> rfl

theorem width_zext (a : Literal) (w : Nat) : (a.zext w).width = w := by
  unfold zext
  split
  · assumption
  · rfl

theorem width_sext (a : Literal) (w : Nat) : (a.sext w).width = w := by
  unfold sext
  split
  · assumption
  · rfl

end Literal

namespace Term

/-- The term put together again from its leaves on, by the constructor of each node. An operand that
is missing stays missing. -/
def rebuild : Term → Except Defect Term
  | hole => return hole
  | const c => return const c
  | fconst c => return fconst c
  | var n k => return var n k
  | extract t o w => do mkExtract (← rebuild t) o w
  | not t => do return mkNot (← rebuild t)
  | cast t w signed => do mkCast (← rebuild t) w signed
  | convert op t w => do mkConvert op (← rebuild t) w
  | binary op l r => do mkBinary op (← rebuild l) (← rebuild r)
  | float op l r => do mkFloat op (← rebuild l) (← rebuild r)
  | ite c y n => do mkIte (← rebuild c) (← rebuild y) (← rebuild n)

inductive Built : Term → Shape → Prop
  | const (c : Literal) : Built (const c) (.bits c.width)
  | fconst (c : FloatLiteral) : Built (fconst c) (.float c.width)
  | var {n : String} {k : Kind} {s : Shape} : k.shape? = some s → Built (var n k) s
  | extract {t t' : Term} {o v w : Nat} :
    Built t (.bits v) → 0 < w → o + w ≤ v → mkExtract t o w = .ok t' → Built t' (.bits w)
  | not {t : Term} {w : Nat} : Built t (.bits w) → Built (mkNot t) (.bits w)
  | cast {t t' : Term} {v w : Nat} {signed : Bool} :
    Built t (.bits v) → 0 < w → mkCast t w signed = .ok t' → Built t' (.bits w)
  | isZero {t t' : Term} {w : Nat} : Built t (.bits w) → mkIsZero t = .ok t' → Built t' (.bits 1)
  | ofSigned {t t' : Term} {v w : Nat} :
    Built t (.bits v) → mkConvert .ofSigned t w = .ok t' → Built t' (.float w)
  | toSigned {t t' : Term} {v w : Nat} :
    Built t (.float v) → mkConvert .toSigned t w = .ok t' → Built t' (.bits w)
  | resize {t t' : Term} {v w : Nat} :
    Built t (.float v) → mkConvert .resize t w = .ok t' → Built t' (.float w)
  | arith {op : BinaryOp} {l r t : Term} {w : Nat} :
    op.isArithmetic → op.isShift = false → Built l (.bits w) → Built r (.bits w) →
      mkBinary op l r = .ok t → Built t (.bits w)
  | shift {op : BinaryOp} {l r t : Term} {v w : Nat} :
    op.isShift → Built l (.bits w) → Built r (.bits v) → mkBinary op l r = .ok t → Built t (.bits w)
  | compare {op : BinaryOp} {l r t : Term} {v : Nat} :
    op.isCompare → Built l (.bits v) → Built r (.bits v) → mkBinary op l r = .ok t →
      Built t (.bits 1)
  | floatArith {op : FloatOp} {l r t : Term} {w : Nat} :
    op ∈ FloatOp.arithmetic → op.isUnary = false → Built l (.float w) → Built r (.float w) →
      mkFloat op l r = .ok t → Built t (.float w)
  | neg {t t' : Term} {w : Nat} :
    Built t (.float w) → mkFloat .neg t hole = .ok t' → Built t' (.float w)
  | floatCompare {op : FloatOp} {l r t : Term} {v : Nat} :
    op.isCompare → Built l (.float v) → Built r (.float v) → mkFloat op l r = .ok t →
      Built t (.bits 1)
  | ite {c y n t : Term} {s : Shape} :
    Built c (.bits 1) → Built y s → Built n s → mkIte c y n = .ok t → Built t s

/-- At every node the constructor, given the operands as they stand, answers with the node. -/
inductive Canonical : Term → Shape → Prop
  | const (c : Literal) : Canonical (const c) (.bits c.width)
  | fconst (c : FloatLiteral) : Canonical (fconst c) (.float c.width)
  | var {n : String} {k : Kind} {s : Shape} : k.shape? = some s → Canonical (var n k) s
  | extract {t : Term} {o v w : Nat} :
    Canonical t (.bits v) → o + w ≤ v → mkExtract t o w = .ok (extract t o w) →
      Canonical (extract t o w) (.bits w)
  | not {t : Term} {w : Nat} :
    Canonical t (.bits w) → mkNot t = not t → Canonical (not t) (.bits w)
  | cast {t : Term} {v w : Nat} {signed : Bool} :
    Canonical t (.bits v) → mkCast t w signed = .ok (cast t w signed) →
      Canonical (cast t w signed) (.bits w)
  | ofSigned {t : Term} {v w : Nat} :
    Canonical t (.bits v) → mkConvert .ofSigned t w = .ok (convert .ofSigned t w) →
      Canonical (convert .ofSigned t w) (.float w)
  | toSigned {t : Term} {v w : Nat} :
    Canonical t (.float v) → mkConvert .toSigned t w = .ok (convert .toSigned t w) →
      Canonical (convert .toSigned t w) (.bits w)
  | resize {t : Term} {v w : Nat} :
    Canonical t (.float v) → mkConvert .resize t w = .ok (convert .resize t w) →
      Canonical (convert .resize t w) (.float w)
  | arith {op : BinaryOp} {l r : Term} {w : Nat} :
    op.isArithmetic → op.isShift = false → Canonical l (.bits w) → Canonical r (.bits w) →
      mkBinary op l r = .ok (binary op l r) → Canonical (binary op l r) (.bits w)
  | shift {op : BinaryOp} {l r : Term} {v w : Nat} :
    op.isShift → Canonical l (.bits w) → Canonical r (.bits v) →
      mkBinary op l r = .ok (binary op l r) → Canonical (binary op l r) (.bits w)
  | compare {op : BinaryOp} {l r : Term} {v : Nat} :
    op.isCompare → Canonical l (.bits v) → Canonical r (.bits v) →
      mkBinary op l r = .ok (binary op l r) → Canonical (binary op l r) (.bits 1)
  | floatArith {op : FloatOp} {l r : Term} {w : Nat} :
    op ∈ FloatOp.arithmetic → op.isUnary = false → Canonical l (.float w) → Canonical r (.float w) →
      mkFloat op l r = .ok (float op l r) → Canonical (float op l r) (.float w)
  | neg {t : Term} {w : Nat} :
    Canonical t (.float w) → mkFloat .neg t hole = .ok (float .neg t hole) →
      Canonical (float .neg t hole) (.float w)
  | floatCompare {op : FloatOp} {l r : Term} {v : Nat} :
    op.isCompare → Canonical l (.float v) → Canonical r (.float v) →
      mkFloat op l r = .ok (float op l r) → Canonical (float op l r) (.bits 1)
  | ite {c y n : Term} {s : Shape} :
    Canonical c (.bits 1) → Canonical y s → Canonical n s → mkIte c y n = .ok (ite c y n) →
      Canonical (ite c y n) s

variable {w v : Nat} {s : Shape} {t l r : Term} {c : Literal} {op : BinaryOp}

namespace Canonical

theorem rebuild (h : t.Canonical s) : t.rebuild = .ok t := by
  induction h with
  | const | fconst | var => rfl
  | extract _ _ kept ih | cast _ kept ih | ofSigned _ kept ih | toSigned _ kept ih
  | resize _ kept ih => simpa [Term.rebuild, ih] using kept
  | not _ kept ih => simpa [Term.rebuild, ih] using kept
  | arith _ _ _ _ kept ihl ihr | shift _ _ _ kept ihl ihr | compare _ _ _ kept ihl ihr
  | floatArith _ _ _ _ kept ihl ihr | floatCompare _ _ _ kept ihl ihr =>
    simpa [Term.rebuild, ihl, ihr] using kept
  | neg _ kept ih => simpa [Term.rebuild, ih] using kept
  | ite _ _ _ kept ihc ihy ihn => simpa [Term.rebuild, ihc, ihy, ihn] using kept

theorem width (h : t.Canonical s) : t.width = .ok s.width := by
  induction h with
  | const | fconst | extract | cast | ofSigned | toSigned | resize => rfl
  | var hk => simp [Term.width, Kind.width, Kind.width_of_shape hk]
  | not _ _ ih => exact ih
  | arith ha _ _ _ _ ih _ => simp [Term.width, BinaryOp.isCompare_of_isArithmetic ha, ih]
  | shift hs _ _ _ ih _ => simp [Term.width, BinaryOp.isCompare_of_isShift hs, ih]
  | compare hc => simp [Term.width, hc, Shape.width]
  | @floatArith op _ _ _ ha _ _ _ _ ih _ =>
    have hc : op.isCompare = false := by
      revert ha
      cases op <;> simp [FloatOp.arithmetic, FloatOp.isCompare]
    simp [Term.width, hc, ih]
  | neg _ _ ih => exact ih
  | floatCompare hc => simp [Term.width, hc, Shape.width]
  | ite _ _ _ _ _ ih _ => exact ih

theorem literal (hc : c.width = w) : (Term.const c).Canonical (.bits w) := hc ▸ .const c

theorem width_literal (h : (Term.const c).Canonical (.bits w)) : c.width = w := by
  cases h
  rfl

theorem const_or (h : t.Canonical (.bits w)) :
    (∃ c : Literal, t = Term.const c ∧ c.width = w) ∨ t.isConstant = false := by
  cases t with
  | const c => exact .inl ⟨c, rfl, h.width_literal⟩
  | fconst => cases h
  | _ => exact .inr rfl

theorem arith_inv (ha : op.isArithmetic) (hs : op.isShift = false)
    (h : (binary op l r).Canonical (.bits w)) : l.Canonical (.bits w) ∧ r.Canonical (.bits w) := by
  cases h with
  | arith _ _ hl hr => exact ⟨hl, hr⟩
  | shift hs' => simp [hs] at hs'
  | compare hc => simp [BinaryOp.isCompare_of_isArithmetic ha] at hc

theorem compare_inv (hc : op.isCompare) (h : (binary op l r).Canonical s) :
    s = .bits 1 ∧ ∃ v, l.Canonical (.bits v) ∧ r.Canonical (.bits v) := by
  cases h with
  | arith ha => simp [BinaryOp.isCompare_of_isArithmetic ha] at hc
  | shift hs => simp [BinaryOp.isCompare_of_isShift hs] at hc
  | compare _ hl hr => exact ⟨rfl, _, hl, hr⟩

end Canonical

def Settles (s : Shape) (e : Except Defect Term) : Prop := ∀ t, e = .ok t → t.Canonical s

theorem Canonical.settles (h : t.Canonical s) : Settles s (.ok t) := by
  rintro _ ⟨⟩
  exact h

theorem Settles.bind {u : Shape} {e : Except Defect Term} {f : Term → Except Defect Term}
    (h : Settles s e) (hf : ∀ t, t.Canonical s → Settles u (f t)) : Settles u (e >>= f) := by
  intro t ht
  obtain ⟨t', he, ht⟩ := bind_eq_ok ht
  exact hf t' (h t' he) t ht

theorem commonWidth_canonical (op : BinaryOp) (hl : l.Canonical (.bits w))
    (hr : r.Canonical (.bits w)) : commonWidth op l r = .ok w := by
  simp [commonWidth, hl.width, hr.width, Shape.width]

/-- A constructor that also folds literals. Of the node it makes one needs to know only that the
operands were its own, in either order. -/
theorem canonical_of_fold (op : BinaryOp) {f : Term → Term → Term} (ha : op.isArithmetic)
    (hs : op.isShift = false)
    (eq : ∀ {l r : Term}, l.Canonical (.bits w) → r.Canonical (.bits w) →
      mkBinary op l r = .ok (f l r))
    (fold : ∀ c d : Literal, c.width = w → d.width = w →
      (f (const c) (const d)).Canonical (.bits w))
    (swap : ∀ {t : Term} (c : Literal), t.isConstant = false → f t (const c) = f (const c) t)
    (left : ∀ {t : Term} (c : Literal), t.isConstant = false → (const c).Canonical (.bits w) →
      t.Canonical (.bits w) → (f (const c) t).Canonical (.bits w) ∨
        f (const c) t = binary op (const c) t ∨ f (const c) t = binary op t (const c))
    (plain : ∀ {l r : Term}, l.isConstant = false → r.isConstant = false →
      l.Canonical (.bits w) → r.Canonical (.bits w) →
        (f l r).Canonical (.bits w) ∨ f l r = binary op l r)
    (hl : l.Canonical (.bits w)) (hr : r.Canonical (.bits w)) : (f l r).Canonical (.bits w) := by
  have kept {a b : Term} (ha' : a.Canonical (.bits w)) (hb : b.Canonical (.bits w))
      (h : f a b = binary op a b) : (f a b).Canonical (.bits w) := by
    rw [h]
    exact .arith ha hs ha' hb (by rw [eq ha' hb, h])
  have literal (c : Literal) {t : Term} (hc : (const c).Canonical (.bits w))
      (ht : t.Canonical (.bits w)) : (f (const c) t).Canonical (.bits w) := by
    rcases ht.const_or with ⟨d, rfl, hd⟩ | hct
    · exact fold c d hc.width_literal hd
    · rcases left c hct hc ht with h | h | h
      · exact h
      · exact kept hc ht h
      · rw [← swap c hct] at h ⊢
        exact kept ht hc h
  rcases hl.const_or with ⟨c, rfl, hc⟩ | hcl
  · exact literal c hl hr
  · rcases hr.const_or with ⟨c, rfl, hc⟩ | hcr
    · rw [swap c hcl]
      exact literal c hr hl
    · rcases plain hcl hcr hl hr with h | h
      · exact h
      · exact kept hl hr h

theorem mkXor_canonical (hl : l.Canonical (.bits w)) (hr : r.Canonical (.bits w)) :
    (mkXor l r).Canonical (.bits w) := by
  refine canonical_of_fold .xor rfl rfl (fun hl hr => ?_) (fun c d hc hd => ?_) mkXor_swap
    (fun {t} c hct hc ht => ?_) (fun hcl hcr _ _ => .inr (mkXor_plain hcl hcr)) hl hr
  · simp [mkBinary, commonWidth_canonical _ hl hr]
  · change (if c.value = 0 then const d else const (c.xor d)).Canonical (.bits w)
    split
    · exact .literal hd
    · exact .literal hc
  · rw [mkXor_literal c hct]
    split
    · exact .inl ht
    · exact .inr (.inl rfl)

theorem mkAnd_canonical (hl : l.Canonical (.bits w)) (hr : r.Canonical (.bits w)) :
    (mkAnd l r).Canonical (.bits w) := by
  refine canonical_of_fold .and rfl rfl (fun hl hr => ?_) (fun c d hc hd => .literal hc)
    mkAnd_swap (fun {t} c hct hc ht => ?_) (fun hcl hcr _ _ => .inr (mkAnd_plain hcl hcr)) hl hr
  · simp [mkBinary, commonWidth_canonical _ hl hr]
  · rw [mkAnd_literal c hct]
    split_ifs
    · exact .inl ht
    · exact .inl hc
    · exact .inr (.inr rfl)

theorem mkOr_canonical (hl : l.Canonical (.bits w)) (hr : r.Canonical (.bits w)) :
    (mkOr l r).Canonical (.bits w) := by
  refine canonical_of_fold .or rfl rfl (fun hl hr => ?_) (fun c d hc hd => .literal hc)
    mkOr_swap (fun {t} c hct hc ht => ?_) (fun hcl hcr _ _ => .inr (mkOr_plain hcl hcr)) hl hr
  · simp [mkBinary, commonWidth_canonical _ hl hr]
  · rw [mkOr_literal c hct]
    split_ifs
    · exact .inl hc
    · exact .inl ht
    · exact .inr (.inr rfl)

theorem mkMul_canonical (hl : l.Canonical (.bits w)) (hr : r.Canonical (.bits w)) :
    (mkMul w l r).Canonical (.bits w) := by
  refine canonical_of_fold .mul rfl rfl (fun hl hr => ?_) (fun c d hc hd => .literal hc)
    mkMul_swap (fun {t} c hct hc ht => ?_) (fun {l r} hcl hcr hl hr => ?_) hl hr
  · simp [mkBinary, commonWidth_canonical _ hl hr]
  · rw [mkMul_literal c hct]
    split_ifs
    · exact .inl (mkAnd_canonical hc ht)
    · exact .inl ht
    · exact .inl hc
    · exact .inr (.inl rfl)
  · rw [mkMul_plain hcl hcr]
    split
    · exact .inl (mkAnd_canonical hl hr)
    · exact .inr rfl

theorem mkBinary_add (hl : l.Canonical (.bits w)) (hr : r.Canonical (.bits w)) :
    mkBinary .add l r = mkAdd w l r := by
  simp [mkBinary, commonWidth_canonical _ hl hr]

theorem mkBinary_sub (hl : l.Canonical (.bits w)) (hr : r.Canonical (.bits w)) :
    mkBinary .sub l r = mkSub w l r := by
  simp [mkBinary, commonWidth_canonical _ hl hr]

theorem plus_kept (hc : c.width = w) (ht : t.Canonical (.bits w)) (hw : w ≠ 1)
    (h : plus c t = .ok (binary .add (const c) t)) :
    (binary .add (const c) t).Canonical (.bits w) := by
  refine .arith rfl rfl (.literal hc) ht ?_
  rw [mkBinary_add (.literal hc) ht, mkAdd_literal, if_neg hw, h]

theorem minus_kept (hc : c.width = w) (ht : t.Canonical (.bits w))
    (h : minus c t = .ok (binary .sub (const c) t)) :
    (binary .sub (const c) t).Canonical (.bits w) := by
  refine .arith rfl rfl (.literal hc) ht ?_
  have hs : (const c).same t = false := by
    -- The difference of a literal and itself is folded.
    rw [← Bool.not_eq_true, same_iff]
    rintro rfl
    rw [minus] at h
    cases h
  rw [mkBinary_sub (.literal hc) ht]
  simp only [mkSub, hs, Bool.false_eq_true, if_false, h]

theorem Canonical.ne_mixed (ht : t.Canonical (.bits w)) (op : BinaryOp) (k : FloatLiteral)
    (z : Term) : t ≠ binary op (Term.fconst k) z := by
  rintro rfl
  cases ht with
  | arith _ _ hl => cases hl
  | shift _ hl => cases hl
  | compare _ hl => cases hl

theorem plus_settles_of {e : Except Defect Term} (hc : c.width = w) (ht : t.Canonical (.bits w))
    (h : w ≠ 1 → c.value ≠ 0 → Settles (.bits w) e) :
    Settles (.bits w) (if c.width = 1 then .ok (mkXor (const c) t) else
      if c.value = 0 then .ok t else e) := by
  split_ifs with hw h0
  · exact (mkXor_canonical (.literal hc) ht).settles
  · exact ht.settles
  · exact h (hc ▸ hw) h0

theorem minus_settles_of {e : Except Defect Term} (hc : c.width = w) (ht : t.Canonical (.bits w))
    (h : w ≠ 1 → Settles (.bits w) e) :
    Settles (.bits w) (if c.width = 1 then .ok (mkXor (const c) t) else e) := by
  split_ifs with hw
  · exact (mkXor_canonical (.literal hc) ht).settles
  · exact h (hc ▸ hw)

theorem plus_minus_settles (ht : t.Canonical (.bits w)) (c : Literal) (hc : c.width = w) :
    Settles (.bits w) (plus c t) ∧ Settles (.bits w) (minus c t) := by
  -- Both at once, since each turns to the other on a difference.
  induction hn : sizeOf t using Nat.strong_induction_on generalizing t c
  next n ih =>
  subst hn
  have literal {d : Literal} (hd : d.width = w) := Canonical.literal hd
  rcases headed ht.ne_mixed with ⟨d, rfl⟩ | ⟨k, z, rfl⟩ | ⟨k, z, rfl⟩ | ⟨hp, hm⟩
  · rw [plus, minus]
    exact ⟨plus_settles_of hc ht fun _ _ => (literal (d := c.add d) hc).settles,
      (literal (d := c.sub d) hc).settles⟩
  · obtain ⟨-, hz⟩ := ht.arith_inv rfl rfl
    have below := ih (sizeOf z) (by simp) hz
    rw [plus, minus, commonWidth_canonical _ (literal (d := c.add k) hc) hz,
      commonWidth_canonical _ (literal (d := c.sub k) hc) hz]
    exact ⟨plus_settles_of hc ht fun _ _ => (below (c.add k) hc rfl).1,
      minus_settles_of hc ht fun _ => (below (c.sub k) hc rfl).2⟩
  · obtain ⟨-, hz⟩ := ht.arith_inv rfl rfl
    have below := ih (sizeOf z) (by simp) hz
    rw [plus, minus, commonWidth_canonical _ (literal (d := c.add k) hc) hz,
      commonWidth_canonical _ (literal (d := c.sub k) hc) hz]
    exact ⟨plus_settles_of hc ht fun _ _ => (below (c.add k) hc rfl).2,
      minus_settles_of hc ht fun _ => (below (c.sub k) hc rfl).1⟩
  · rw [hp, hm]
    refine ⟨plus_settles_of hc ht fun hw h0 => (plus_kept hc ht hw ?_).settles,
      minus_settles_of hc ht fun hw => (minus_kept hc ht ?_).settles⟩
    · rw [hp, hc, if_neg hw, if_neg h0]
    · rw [hm, hc, if_neg hw]

theorem mkAdd_settles (hl : l.Canonical (.bits w)) (hr : r.Canonical (.bits w)) :
    Settles (.bits w) (mkAdd w l r) := by
  have literal (c : Literal) {t : Term} (hc : c.width = w) (ht : t.Canonical (.bits w)) :
      Settles (.bits w) (mkAdd w (const c) t) := by
    rw [mkAdd_literal]
    split
    · exact (mkXor_canonical (.literal hc) ht).settles
    · exact (plus_minus_settles ht c hc).1
  rcases hl.const_or with ⟨c, rfl, hc⟩ | hcl
  · exact literal c hc hr
  · rcases hr.const_or with ⟨c, rfl, hc⟩ | hcr
    · rw [mkAdd_swap c hcl]
      exact literal c hc hl
    · have e := mkAdd_plain (w := w) hcl hcr
      intro t h
      have made := mkBinary_add hl hr ▸ h
      rw [e] at h
      split at h <;> cases h
      · exact mkXor_canonical hl hr
      · exact .arith rfl rfl hl hr made

theorem mkSub_settles (hl : l.Canonical (.bits w)) (hr : r.Canonical (.bits w)) :
    Settles (.bits w) (mkSub w l r) := by
  intro t h
  have made := mkBinary_sub hl hr ▸ h
  unfold mkSub at h
  split at h
  · cases h
    exact .literal rfl
  · split at h
    next c _ => exact (plus_minus_settles hr c hl.width_literal).2 t h
    next d _ =>
      split at h
      · cases h
        exact mkXor_canonical hl hr
      · exact (plus_minus_settles hl _ rfl).1 t h
    next =>
      split at h <;> cases h
      · exact mkXor_canonical hl hr
      · exact .arith rfl rfl hl hr made

section Division

variable {fold : Literal → Literal → Except Defect Literal} (ha : op.isArithmetic)
  (hs : op.isShift = false) (hf : ∀ {a b c : Literal}, fold a b = .ok c → c.width = a.width)
  (hl : l.Canonical (.bits w)) (hr : r.Canonical (.bits w))

include ha hs hf hl hr

theorem mkDiv_settles (eq : mkBinary op l r = mkDiv op fold l r) :
    Settles (.bits w) (mkDiv op fold l r) := by
  intro t h
  have made := eq.trans h
  unfold mkDiv at h
  split at h
  next a b =>
    cases hc : fold a b with
    | error => simp [hc] at h
    | ok c =>
      rw [hc] at h
      cases h
      exact .literal ((hf hc).trans hl.width_literal)
  next =>
    split at h <;> cases h
    · exact hl
    · exact .arith ha hs hl hr made
  next =>
    cases h
    exact .arith ha hs hl hr made

theorem mkRem_settles (eq : mkBinary op l r = mkRem op fold l r) :
    Settles (.bits w) (mkRem op fold l r) := by
  intro t h
  have made := eq.trans h
  unfold mkRem at h
  split at h
  next a b =>
    cases hc : fold a b with
    | error => simp [hc] at h
    | ok c =>
      rw [hc] at h
      cases h
      exact .literal ((hf hc).trans hl.width_literal)
  next =>
    split at h <;> cases h
    · exact .literal hr.width_literal
    · exact .arith ha hs hl hr made
  next =>
    cases h
    exact .arith ha hs hl hr made

end Division

theorem mkShift_settles {fold : Literal → Literal → Literal} (hs : op.isShift)
    (hf : ∀ a b : Literal, (fold a b).width = a.width) (eq : mkBinary op l r = mkShift op fold l r)
    (hl : l.Canonical (.bits w)) (hr : r.Canonical (.bits v)) :
    Settles (.bits w) (mkShift op fold l r) := by
  intro t h
  have made := eq.trans h
  unfold mkShift at h
  split at h
  next a b =>
    cases h
    exact .literal ((hf a b).trans hl.width_literal)
  next =>
    split at h <;> cases h
    · exact hl
    · exact .shift hs hl hr made
  next => cases hr
  next =>
    cases h
    exact .shift hs hl hr made

end Term

end Concolic
