import Mathlib
import Concolic.Proofs.Agreement

namespace Concolic

structure Symbolic where
  kind : Kind
  width : Nat
  term : Term
  exact : kind.isFloat = false
  sized : kind.width? = some width
  typed : term.Typed width

namespace Input

def Within (i j : Input) : Prop := ∀ n v, i.get? n = some v → j.get? n = some v

theorem Within.binds {i j : Input} (h : i.Within j) {t : Term} (hb : i.Binds t) : j.Binds t := by
  intro p hp
  obtain ⟨v, hv, hk⟩ := Option.map_eq_some_iff.mp (hb p hp)
  rw [h _ _ hv, Option.map_some, hk]

theorem Within.denote {i j : Input} (h : i.Within j) {t : Term} {w : Nat} (ht : t.Typed w)
    (hb : i.Binds t) : t.denote i w = t.denote j w := by
  apply Term.denote_congr ht
  intro p hp w _
  obtain ⟨v, hv, -⟩ := Option.map_eq_some_iff.mp (hb p hp)
  simp [pattern, hv, h _ _ hv]

end Input

namespace Symbolic

variable {s : Symbolic} {i j : Input}

def value (s : Symbolic) (i : Input) : Value :=
  Value.withTerm ⟨s.kind, (s.term.denote i s.width).toNat, none⟩ (some s.term)

def Bound (s : Symbolic) (i : Input) : Prop := i.Binds s.term

@[simp] theorem value_kind (s : Symbolic) (i : Input) : (s.value i).kind = s.kind := rfl

@[simp] theorem value_bits (s : Symbolic) (i : Input) :
    (s.value i).bits = (s.term.denote i s.width).toNat := rfl

@[simp] theorem isConcrete_value (s : Symbolic) (i : Input) :
    (s.value i).isConcrete = s.term.isConstant := by
  cases h : s.term.isConstant <;> simp [value, Value.withTerm, Value.isConcrete, Option.filter, h]

theorem value_fits (s : Symbolic) (i : Input) : (s.value i).Fits s.width :=
  Value.withTerm_fits s.exact s.sized s.typed

@[simp] theorem isValid_value (s : Symbolic) (i : Input) : (s.value i).isValid = true := by
  have hw := s.sized
  simp only [Value.isValid, value_kind, bne_iff_ne, ne_eq]
  intro h
  rw [h] at hw
  cases hw

@[simp] theorem symbol_value (s : Symbolic) (i : Input) : (s.value i).symbol s.width = s.term := by
  rw [value, Value.symbol_withTerm]
  split
  next hc =>
    obtain ⟨x, hx⟩ := s.typed.eq_const hc
    rw [hx, Term.denote_const]
  next => rfl

theorem term_value (s : Symbolic) (i : Input) : (s.value i).term = .ok s.term := by
  rw [(s.value_fits i).term, symbol_value]

theorem literal_value (s : Symbolic) (i : Input) :
    (s.value i).literal = .ok (.const (Literal.ofBits (s.term.denote i s.width))) := by
  rw [(s.value_fits i).literal, value_bits, BitVec.ofNat_toNat, BitVec.setWidth_eq]

theorem Bound.value (h : s.Bound i) : (s.value i).Bound i := by
  intro t ht
  obtain ⟨rfl, -⟩ : s.term = t ∧ t.isConstant = false := by
    simpa [Symbolic.value, Value.withTerm] using ht
  exact h

theorem Bound.at (h : s.Bound i) : (s.value i).At i (s.value i).concrete := by
  rw [(s.value_fits i).at_iff h.value, symbol_value]
  rfl

theorem Bound.mono (h : s.Bound i) (hw : i.Within j) : s.Bound j := hw.binds h

theorem Bound.value_eq (h : s.Bound i) (hw : i.Within j) : s.value i = s.value j := by
  simp only [Symbolic.value, hw.denote s.typed h]

theorem toBool_value (hs : s.width = 1) (i : Input) :
    (s.value i).toBool = decide (s.term.denote i 1 = 1#1) := by
  rw [Value.toBool, value_bits, hs]
  generalize s.term.denote i 1 = x
  revert x
  decide

def ofBits (k : Kind) {w : Nat} (hf : k.isFloat = false) (hw : k.width? = some w) (x : BitVec w) :
    Symbolic :=
  ⟨k, w, .const (Literal.ofBits x), hf, hw,
    Term.typed_const (Kind.width_bounds hw).1 (Kind.width_bounds hw).2 x⟩

theorem value_ofBits {k : Kind} {w : Nat} (hf : k.isFloat = false) (hw : k.width? = some w)
    (x : BitVec w) (i : Input) : (ofBits k hf hw x).value i = ⟨k, x.toNat, none⟩ := by
  simp [ofBits, value, Value.withTerm, Option.filter, Term.isConstant]

theorem ofBits_bound {k : Kind} {w : Nat} (hf : k.isFloat = false) (hw : k.width? = some w)
    (x : BitVec w) (i : Input) : (ofBits k hf hw x).Bound i := by
  simp [Bound, ofBits, Input.Binds, Term.occurrences]

def var (n : String) (k : Kind) {w : Nat} (hf : k.isFloat = false) (hw : k.width? = some w) :
    Symbolic :=
  ⟨k, w, .var n k, hf, hw, .var hf hw⟩

theorem value_var {n : String} {k : Kind} {w : Nat} (hf : k.isFloat = false)
    (hw : k.width? = some w) {v : Value} (hi : i.get? n = some v) (hv : v.bits < 2 ^ w) :
    (var n k hf hw).value i = Value.withTerm ⟨k, v.bits, none⟩ (some (.var n k)) := by
  simp [value, var, Term.denote, hi, Nat.mod_eq_of_lt hv]

end Symbolic

def Symbolic.variables (ss : List Symbolic) : List (String × Kind) :=
  ss.flatMap fun s => s.term.occurrences

theorem Symbolic.bound_of_subset {r : Symbolic} {ss : List Symbolic} {i : Input}
    (hr : r.term.occurrences ⊆ Symbolic.variables ss) (hs : ∀ s ∈ ss, s.Bound i) : r.Bound i := by
  intro p hp
  obtain ⟨s, hs', hp'⟩ := List.mem_flatMap.mp (hr hp)
  exact hs s hs' p hp'

namespace Operation

open Term

variable {op : Operation} {kind : Kind} {a x : Value} {rest : List Value} {l l' s s' t : Term}

def isExact (op : Operation) : Bool := !([i2f, i2d, l2f, l2d].contains op)

theorem resultOf_exact {k k' : Kind} {w : Nat} (ho : op.isExact) (hk : k.isFloat = false)
    (hw : k.width? = some w) (h : op.resultOf k k' = .ok kind) :
    kind.isFloat = false ∧ ∃ u, kind.width? = some u := by
  rcases resultOf_family h with hc | ht | hn | ha
  · obtain ⟨-, rfl⟩ := resultOf_compare hc h
    exact ⟨rfl, _, rfl⟩
  · obtain ⟨-, -, rfl⟩ := resultOf_threeWay ht hk h
    exact ⟨rfl, _, rfl⟩
  · obtain ⟨⟨source, target⟩, hs⟩ := Option.isSome_iff_exists.mp hn
    obtain ⟨rfl, rfl⟩ := resultOf_convert hs h
    cases op with
    | i2f | i2d | l2f | l2d => cases ho
    | f2i | f2l | f2d | d2i | d2l | d2f =>
      cases hs
      cases hk
    | i2l | l2i | i2b | i2c | i2s | b2i | c2i | s2i | z2i =>
      cases hs
      exact ⟨rfl, _, rfl⟩
    | _ => cases hs
  · obtain ⟨rfl, -⟩ := resultOf_arithmetic ha h
    exact ⟨hk, w, hw⟩

theorem apply_of (hk : op.resultKind ((a :: rest).map (·.kind)) = .ok kind)
    (hz : (op.isDivision && rest.any fun b => !b.kind.isFloat && b.bits = 0) = false)
    (hl : a.literal = .ok l) (hs : secondTerm Value.literal (a :: rest) = .ok s)
    (hx : op.fold kind a.kind l s = .ok x) (hl' : a.term = .ok l')
    (hs' : secondTerm Value.term (a :: rest) = .ok s') (ht : op.build a.kind l' s' = .ok t) :
    op.apply (a :: rest) =
      .ok (if (a :: rest).all Value.isConcrete then x else x.withTerm (some t)) := by
  unfold apply
  rw [hk]
  simp only [hz, hl, hs, hl', hs', Bool.false_eq_true, if_false]
  change (do
    let result ← (liftM (op.fold kind a.kind l s) : Except (Failure OperationError) Value)
    if (a :: rest).all Value.isConcrete = true then pure result
      else do
        let t ← liftM (op.build a.kind l' s')
        pure (result.withTerm (some t))) = _
  rw [hx, ht]
  split <;> rfl

section Operands

variable {a b : Symbolic} {rest : List Symbolic} {u : Nat}
  {g : BitVec a.width → BitVec (rest.headD a).width → BitVec u}

theorem secondTerm_map (a : Symbolic) (rest : List Symbolic) {f : Value → Except Defect Term}
    {q : Symbolic → Term} {i : Input} (hf : ∀ s : Symbolic, f (s.value i) = .ok (q s))
    (hn : rest.length + 1 = op.arity) (k : Kind) (l : Term) :
    ∃ s, secondTerm f ((a :: rest).map (·.value i)) = .ok s ∧
      op.build k l s = op.build k l (q (rest.headD a)) := by
  cases rest with
  | nil => exact ⟨.hole, rfl, build_unary hn.symm k l _ _⟩
  | cons b rest => exact ⟨q b, hf b, rfl⟩

theorem apply_value (hg : Computes (op.build a.kind) g) (hn : rest.length + 1 = op.arity)
    (hk : op.resultKind ((a :: rest).map (·.kind)) = .ok kind) (hf : kind.isFloat = false)
    (hu : kind.width? = some u) (ht : op.build a.kind a.term (rest.headD a).term = .ok t) {i : Input}
    (hz : (op.isDivision && rest.any fun b => (b.value i).bits = 0) = false) :
    op.apply ((a :: rest).map (·.value i)) =
      .ok (Value.withTerm ⟨kind, (t.denote i u).toNat, none⟩ (some t)) := by
  have kinds : ((a :: rest).map (·.value i)).map (·.kind) = (a :: rest).map (·.kind) := by simp
  have zero : (op.isDivision &&
      (rest.map (·.value i)).any fun b => !b.kind.isFloat && b.bits = 0) = false := by
    simpa [Symbolic.exact] using hz
  obtain ⟨s, hs, hls⟩ := secondTerm_map a rest (f := Value.literal)
    (fun s => s.literal_value i) hn a.kind (.const (Literal.ofBits (a.term.denote i a.width)))
  obtain ⟨s', hs', hts⟩ := secondTerm_map a rest (f := Value.term)
    (fun s => s.term_value i) hn a.kind a.term
  obtain ⟨t', ht', -, -, hd, hc⟩ := hg _ _ a.typed (rest.headD a).typed
  cases ht.symm.trans ht'
  -- The literals of the operands fold to the literal of the term's bits.
  obtain ⟨c, hbc, htc, -, hdc, hcc⟩ := hg _ _
    (typed_const a.typed.pos a.typed.le (a.term.denote i a.width))
    (typed_const (rest.headD a).typed.pos (rest.headD a).typed.le
      ((rest.headD a).term.denote i (rest.headD a).width))
  obtain ⟨x, rfl⟩ := htc.eq_const (hcc rfl rfl)
  obtain rfl : x = t.denote i u := by simpa [hd] using hdc ∅
  have fold : op.fold kind a.kind (.const (Literal.ofBits (a.term.denote i a.width))) s =
      .ok ⟨kind, (t.denote i u).toNat, none⟩ := by
    simp only [Operation.fold, hls.trans hbc, ok_bind, Value.ofTerm_const hf hu]
    rfl
  have h := apply_of (kinds ▸ hk) zero (a.literal_value i) hs fold (a.term_value i) hs' (hts.trans ht)
  refine h.trans (congrArg _ ?_)
  split
  next hall =>
    have constant : ∀ s ∈ a :: rest, s.term.isConstant := by simpa using hall
    have : t.isConstant := hc (constant a (by simp)) (constant _ (by cases rest <;> simp))
    simp [Value.withTerm, Option.filter, this]
  next => rfl

end Operands

/-- An operation on open values fails for a reason that their kinds give, or for a zero divisor, or
has an open value as its result. -/
theorem apply_symbolic (ho : op.isExact) (ss : List Symbolic) :
    (∃ e, ∀ i, op.apply (ss.map (·.value i)) = .error (.error e)) ∨
    ∃ r : Symbolic, r.term.occurrences ⊆ Symbolic.variables ss ∧
      op.resultKind (ss.map (·.kind)) = .ok r.kind ∧ ∀ i, op.apply (ss.map (·.value i)) =
        if op.isDivision && (ss.tail.any fun b => (b.value i).bits = 0)
        then .error (.error (.zeroDivisor op)) else .ok (r.value i) := by
  have kinds : ∀ i, (ss.map (·.value i)).map (·.kind) = ss.map (·.kind) := by
    intro i
    simp
  cases hk : op.resultKind (ss.map (·.kind)) with
  | error e =>
    refine .inl ⟨e, fun i => ?_⟩
    rw [apply, kinds, hk]
    rfl
  | ok kind =>
    obtain ⟨v, vs, hv, hn, hr⟩ := resultKind_ok ((congrArg op.resultKind (kinds ∅)).trans hk)
    obtain ⟨a, rest, rfl, rfl, rfl⟩ := List.map_eq_cons_iff.mp hv
    rw [List.length_map] at hn
    have hb : ((rest.map (·.value ∅)).headD (a.value ∅)).kind = (rest.headD a).kind := by
      cases rest <;> rfl
    rw [hb] at hr
    obtain ⟨hf, u, hu⟩ := resultOf_exact ho a.exact a.sized hr
    obtain ⟨g, hg⟩ := build_computes hr a.exact hf a.sized (rest.headD a).sized hu
    obtain ⟨t, ht, htt, hot, -⟩ := hg _ _ a.typed (rest.headD a).typed
    refine .inr ⟨⟨kind, u, t, hf, hu, htt⟩, ?_, rfl, fun i => ?_⟩
    · refine List.Subset.trans hot (List.append_subset.mpr ⟨?_, ?_⟩)
      · exact List.subset_append_left _ _
      · cases rest with
        | nil => exact List.subset_append_left _ _
        | cons b rest => simp [Symbolic.variables]
    · cases hz : op.isDivision && rest.any fun b => (b.value i).bits = 0 with
      | false =>
        rw [apply_value hg hn hk hf hu ht hz, List.tail_cons, hz]
        rfl
      | true =>
        have zero : (op.isDivision &&
            (rest.map (·.value i)).any fun b => !b.kind.isFloat && b.bits = 0) = true := by
          simpa [Symbolic.exact] using hz
        rw [apply, kinds, hk]
        simp only [List.map_cons, zero, List.tail_cons, hz, if_true]
        rfl

theorem ne_zero_symbolic (x : Symbolic) : ∃ z, Value.zero x.kind = .ok z ∧
    ∃ r : Symbolic, r.term.occurrences ⊆ x.term.occurrences ∧ ∀ i,
      Operation.ne.apply [x.value i, z] = .ok (r.value i) ∧
      (r.value i).toBool = decide ((x.value i).bits ≠ 0) := by
  refine ⟨⟨x.kind, 0, none⟩, ?_, ?_⟩
  · simp [Value.zero, Value.ofBits, Kind.width, x.sized, wrap]
  let z := Symbolic.ofBits x.kind x.exact x.sized 0
  have computes : Computes (Operation.ne.build x.kind) fun a b : BitVec x.width =>
      BitVec.ofBool (BinaryOp.ne.test a b) := by
    intro l r hl hr
    simpa [Operation.build, buildCompare, isCompare, x.exact] using computes_compare rfl l r hl hr
  obtain ⟨t, ht, htt, hot, hd, -⟩ := computes _ _ x.typed z.typed
  refine ⟨⟨.bool, 1, t, rfl, rfl, htt⟩, ?_, fun i => ⟨?_, ?_⟩⟩
  · simpa [z, Symbolic.ofBits, occurrences] using hot
  · have valid : x.kind ≠ .invalid := by simpa [Value.isValid] using x.isValid_value i
    have kind : Operation.ne.resultKind ([x, z].map (·.kind)) = .ok .bool := by
      simp [resultKind, resultOf, conversion?, arity, isConvert, z, Symbolic.ofBits, valid]
    have h := apply_value (a := x) computes rfl kind rfl rfl ht (i := i) rfl
    rwa [List.map_cons, List.map_cons, Symbolic.value_ofBits] at h
  · rw [Symbolic.toBool_value rfl, hd, Symbolic.value_bits]
    simp [ofBool_eq_one, BinaryOp.test, z, Symbolic.ofBits, ← Literal.toNat_eq_zero_iff]

end Operation

end Concolic
