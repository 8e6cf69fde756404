import Mathlib
import Concolic.Proofs.Operation
import Concolic.Proofs.Value

namespace Concolic

namespace Operation

open Term

variable {op : Operation} {w v u : Nat} {a r : Value} {rest args : List Value} {kind : Kind}

theorem arity_cases (op : Operation) : op.arity = 1 ∨ op.arity = 2 := by
  unfold arity
  split <;> simp

theorem resultKind_ok (h : op.resultKind (args.map (·.kind)) = .ok kind) :
    ∃ a rest, args = a :: rest ∧ rest.length + 1 = op.arity ∧
      op.resultOf a.kind (rest.headD a).kind = .ok kind := by
  simp only [resultKind] at h
  split at h
  next k he =>
    cases h
    obtain ⟨hn, he⟩ := ite_error_iff.mp he
    rw [List.length_map, not_not] at hn
    obtain ha | ha := op.arity_cases
    · obtain ⟨a, rfl⟩ := List.length_eq_one_iff.mp (hn.trans ha)
      exact ⟨a, [], rfl, ha.symm, he⟩
    · obtain ⟨a, b, rfl⟩ := List.length_eq_two.mp (hn.trans ha)
      exact ⟨a, [b], rfl, ha.symm, he⟩
  next => cases h

theorem secondTerm_ok {f : Value → Except Defect Term} (hn : rest.length + 1 = op.arity) {s s' : Term}
    (hs : f (rest.headD a) = .ok s) (h : secondTerm f (a :: rest) = .ok s') (k : Kind) (l : Term) :
    op.build k l s' = op.build k l s := by
  cases rest with
  | nil => exact build_unary hn.symm k l s' s
  | cons b rest =>
    cases hs.symm.trans h
    rfl

theorem apply_ok (h : op.apply args = .ok r) :
    ∃ a rest kind l s x, args = a :: rest ∧ rest.length + 1 = op.arity ∧
      op.resultOf a.kind (rest.headD a).kind = .ok kind ∧ a.literal = .ok l ∧
      secondTerm Value.literal args = .ok s ∧ op.fold kind a.kind l s = .ok x ∧
      (args.all Value.isConcrete = true ∧ r = x ∨ ∃ l' s' t, a.term = .ok l' ∧
        secondTerm Value.term args = .ok s' ∧ op.build a.kind l' s' = .ok t ∧
        r = x.withTerm (some t)) := by
  unfold apply at h
  obtain ⟨kind, hk, h⟩ := bind_eq_ok h
  obtain ⟨a, rest, rfl, hn, hr⟩ := resultKind_ok (liftM_error_eq_ok hk)
  dsimp only at h
  split at h
  · cases h
  obtain ⟨l, hl, h⟩ := bind_eq_ok h
  obtain ⟨s, hs, h⟩ := bind_eq_ok h
  obtain ⟨x, hx, h⟩ := bind_eq_ok h
  refine ⟨a, rest, kind, l, s, x, rfl, hn, hr, liftM_eq_ok hl, liftM_eq_ok hs, liftM_eq_ok hx, ?_⟩
  split at h
  next hc =>
    cases h
    exact .inl ⟨hc, rfl⟩
  next =>
    obtain ⟨l', hl', h⟩ := bind_eq_ok h
    obtain ⟨s', hs', h⟩ := bind_eq_ok h
    obtain ⟨t, ht, h⟩ := bind_eq_ok h
    cases h
    exact .inr ⟨l', s', t, liftM_eq_ok hl', liftM_eq_ok hs', liftM_eq_ok ht, rfl⟩

theorem fold_ok {k : Kind} {l s t : Term} {x : Value} (hb : op.build k l s = .ok t)
    (h : op.fold kind k l s = .ok x) : Value.ofTerm kind t = .ok x := by
  simp only [fold, hb, ok_bind] at h
  split at h
  next hv =>
    cases h
    exact hv
  next => cases h
  next => cases h

section Computes

variable {g : BitVec w → BitVec v → BitVec u} (hg : Computes (op.build a.kind) g) (ha : a.Fits w)
  (hb : (rest.headD a).Fits v) (hf : kind.isFloat = false) (hu : kind.width? = some u)
  (hk : op.resultOf a.kind (rest.headD a).kind = .ok kind) (h : op.apply (a :: rest) = .ok r)

include hg ha hb hf hu hk h

theorem apply_computes :
    ∃ t : Term, t.Typed u ∧
      t.occurrences ⊆ (a.symbol w).occurrences ++ ((rest.headD a).symbol v).occurrences ∧
      (∀ i, t.denote i u = g ((a.symbol w).denote i w) (((rest.headD a).symbol v).denote i v)) ∧
      r = Value.withTerm ⟨kind, (g (.ofNat w a.bits) (.ofNat v (rest.headD a).bits)).toNat, none⟩
        (some t) := by
  obtain ⟨_, _, _, l, s, x, he, hn, hr, hl, hs, hx, hc⟩ := apply_ok h
  cases he
  cases hk.symm.trans hr
  cases ha.literal.symm.trans hl
  obtain ⟨c, hbc, htc, -, hdc, -⟩ := hg _ _ (typed_const ha.pos ha.le _) (typed_const hb.pos hb.le _)
  have hfc : Value.ofTerm kind c = .ok x := fold_ok ((secondTerm_ok hn hb.literal hs _ _).trans hbc) hx
  obtain ⟨y, rfl⟩ := Value.literal_of_ofTerm htc hfc
  obtain rfl : y = g (.ofNat w a.bits) (.ofNat v (rest.headD a).bits) := by simpa using hdc ∅
  cases (Value.ofTerm_const hf hu _).symm.trans hfc
  rcases hc with ⟨hall, rfl⟩ | ⟨l, s, t, hl, hs, ht, rfl⟩
  · rw [List.all_eq_true] at hall
    rw [Value.symbol_of_isConcrete (hall a (by simp)),
      Value.symbol_of_isConcrete (hall (rest.headD a) (by cases rest <;> simp))]
    exact ⟨_, htc, by simp [occurrences], hdc, rfl⟩
  · cases ha.term.symm.trans hl
    obtain ⟨t', hbt, htt, hot, hdt, -⟩ := hg _ _ ha.symbol_typed hb.symbol_typed
    rw [secondTerm_ok hn hb.term hs, hbt] at ht
    cases ht
    exact ⟨t, htt, hot, hdt, rfl⟩

theorem apply_literal : r.literal =
      .ok (.const (Literal.ofBits (g (.ofNat w a.bits) (.ofNat v (rest.headD a).bits)))) := by
  obtain ⟨t, ht, -, -, rfl⟩ := apply_computes hg ha hb hf hu hk h
  rw [(Value.withTerm_fits hf hu ht).literal]
  simp [Value.withTerm]

end Computes

theorem forall₂_headD {α : Type} {R : α → α → Prop} {a : α} {rest cs : List α}
    (h : List.Forall₂ R (a :: rest) cs) :
    ∃ c rest', cs = c :: rest' ∧ R a c ∧ R (rest.headD a) (rest'.headD c) := by
  cases h with
  | @cons _ c _ rest' hac hrest =>
    refine ⟨c, rest', rfl, hac, ?_⟩
    cases hrest with
    | nil => exact hac
    | cons hb _ => exact hb

theorem exists_forall₂ {α β : Type} {R : α → β → Prop} {l : List α} (h : ∀ a ∈ l, ∃ b, R a b) :
    ∃ bs, List.Forall₂ R l bs := by
  induction l with
  | nil => exact ⟨[], .nil⟩
  | cons a l ih =>
    obtain ⟨b, hb⟩ := h a List.mem_cons_self
    obtain ⟨bs, hbs⟩ := ih fun c hc => h c (List.mem_cons_of_mem _ hc)
    exact ⟨b :: bs, .cons hb hbs⟩

theorem headD_mem (a : Value) (rest : List Value) : rest.headD a ∈ a :: rest := by
  cases rest <;> simp

theorem apply_kind (h : op.apply args = .ok r) :
    ∃ a rest u, args = a :: rest ∧ op.resultOf a.kind (rest.headD a).kind = .ok r.kind ∧
      r.kind.width? = some u := by
  obtain ⟨a, rest, kind, l, s, x, rfl, -, hk, -, -, hx, hc⟩ := apply_ok h
  obtain ⟨t, hb, -⟩ := bind_eq_ok hx
  obtain ⟨rfl, u, hu⟩ := Value.ofTerm_ok (fold_ok hb hx)
  have hkind : r.kind = x.kind := by
    rcases hc with ⟨-, rfl⟩ | ⟨-, -, t, -, -, -, rfl⟩ <;> rfl
  rw [hkind]
  exact ⟨a, rest, u, rfl, hk, hu⟩

/-- The law of agreement. A result whose term was a literal says nothing about other inputs unless
some input gives the operands their own bits. -/
theorem apply_agrees (hargs : ∀ a ∈ args, a.WellFormed) (h : op.apply args = .ok r)
    (hr : r.kind.isFloat = false) :
    r.WellFormed ∧ ∀ i : Input, (∀ a ∈ args, a.Bound i) →
      r.Bound i ∧ (∃ cs, List.Forall₂ (Value.At i) args cs) ∧
      (∀ cs r', List.Forall₂ (Value.At i) args cs → op.apply cs = .ok r' →
        (r.expr.isSome ∨ ∃ j : Input, ∀ a ∈ args, a.Bound j ∧ a.At j a.concrete) →
        ∃ c, r.evaluate i = .ok c ∧ r'.literal = .ok c) ∧
      ((∀ a ∈ args, a.At i a.concrete) → r.At i r.concrete) := by
  obtain ⟨a, rest, u, rfl, hk, hu⟩ := apply_kind h
  have hmem : a ∈ a :: rest ∧ rest.headD a ∈ a :: rest := ⟨List.mem_cons_self, headD_mem a rest⟩
  obtain ⟨w, ha⟩ := hargs a hmem.1
  obtain ⟨v, hb⟩ := hargs _ hmem.2
  obtain ⟨g, hg⟩ := build_computes hk ha.exact hr ha.width hb.width hu
  obtain ⟨t, ht, ho, hd, e⟩ := apply_computes hg ha hb hr hu hk h
  generalize r.kind = kind at *
  subst e
  have hfits := Value.withTerm_fits (x := g (.ofNat w a.bits) (.ofNat v (rest.headD a).bits)) hr hu ht
  have own : ∀ j : Input, (∀ b ∈ a :: rest, b.Bound j ∧ b.At j b.concrete) →
      t.denote j u = g (.ofNat w a.bits) (.ofNat v (rest.headD a).bits) := fun j hj => by
    rw [hd, ha.denote_of_at (hj a hmem.1).1 (hj a hmem.1).2,
      hb.denote_of_at (hj _ hmem.2).1 (hj _ hmem.2).2]
  refine ⟨⟨u, hfits⟩, fun i hi => ?_⟩
  have hbinds : i.Binds t := fun p hp => (List.mem_append.mp (ho hp)).elim
    (Value.Fits.binds (hi a hmem.1) p) (Value.Fits.binds (hi _ hmem.2) p)
  have hbound : (Value.withTerm ⟨kind, (g (.ofNat w a.bits) (.ofNat v (rest.headD a).bits)).toNat,
      none⟩ (some t)).Bound i := fun s hs => by
    obtain ⟨rfl, -⟩ : t = s ∧ s.isConstant = false := by simpa [Value.withTerm] using hs
    exact hbinds
  refine ⟨hbound, ?_, ?_, ?_⟩
  · refine exists_forall₂ fun b hb => ?_
    obtain ⟨w, hw⟩ := hargs b hb
    exact ⟨_, (hw.at_iff (hi b hb)).mpr rfl⟩
  · intro cs r' hcs hr' hor
    obtain ⟨c, rest', rfl, hac, hbc⟩ := forall₂_headD hcs
    obtain rfl := (ha.at_iff (hi a hmem.1)).mp hac
    have hc := (hb.at_iff (hi _ hmem.2)).mp hbc
    have hl := apply_literal (a := ⟨a.kind, _, none⟩) hg (Value.concrete_fits ha)
      (hc ▸ Value.concrete_fits hb) hr hu (by rw [hc]; exact hk) hr'
    refine ⟨_, hfits.evaluate hbound, ?_⟩
    rw [hl, hc, Value.denote_withTerm]
    simp only [BitVec.ofNat_toNat, BitVec.setWidth_eq, ← hd i]
    split
    next hcon =>
      obtain ⟨y, rfl⟩ := ht.const_or.resolve_right (by simp [hcon])
      rcases hor with hsome | ⟨j, hj⟩
      · simp [Value.withTerm, Term.isConstant] at hsome
      · rw [← own j hj, denote_const, denote_const]
    next => rfl
  · intro hat
    refine (hfits.at_iff hbound).mpr ?_
    rw [Value.denote_withTerm]
    split
    · rfl
    · rw [own i fun b hb => ⟨hi b hb, hat b hb⟩]
      rfl

theorem apply_agrees_shl :
    let x : Value := ⟨.long, 0x8000000000000005, some (.var "x" .long)⟩
    let n : Value := ⟨.int, 65, some (.var "n" .int)⟩
    let i : Input := ⟨[("n", ⟨.int, 65, none⟩), ("x", ⟨.long, 0x8000000000000005, none⟩)]⟩
    (∀ a ∈ [x, n], a.WellFormed ∧ a.Bound i ∧ a.At i a.concrete) ∧
      ∃ r, Operation.shl.apply [x, n] = .ok r ∧ r.bits = 10 ∧ r.WellFormed ∧
        r.At i r.concrete := by
  intro x n i
  have hx : x.WellFormed ∧ x.Bound i ∧ x.At i x.concrete :=
    ⟨⟨64, rfl, rfl, by decide, fun t ht => by cases ht; exact ⟨.var rfl rfl, rfl⟩⟩,
      fun t ht => by cases ht; decide, .const ⟨0x8000000000000005, 64⟩, by decide, by decide⟩
  have hn : n.WellFormed ∧ n.Bound i ∧ n.At i n.concrete :=
    ⟨⟨32, rfl, rfl, by decide, fun t ht => by cases ht; exact ⟨.var rfl rfl, rfl⟩⟩,
      fun t ht => by cases ht; decide, .const ⟨65, 32⟩, by decide, by decide⟩
  have hargs : ∀ a ∈ [x, n], a.WellFormed ∧ a.Bound i ∧ a.At i a.concrete := by
    simp [hx, hn]
  have happly : Operation.shl.apply [x, n] = .ok ⟨.long, 10, some (.binary .shl (.var "x" .long)
      (.binary .and (.cast (.var "n" .int) 64 false) (.const ⟨63, 64⟩)))⟩ := by decide
  obtain ⟨hr, hi⟩ := apply_agrees (fun a ha => (hargs a ha).1) happly rfl
  exact ⟨hargs, _, happly, rfl, hr,
    (hi i fun a ha => (hargs a ha).2.1).2.2.2 fun a ha => (hargs a ha).2.2⟩

/-- Two values of one unknown that no input gives their bits. -/
theorem apply_disagrees :
    let x : Nat → Value := fun n => ⟨.int, n, some (.var "x" .int)⟩
    let i : Input := ⟨[("x", ⟨.int, 5, none⟩)]⟩
    let c : Value := ⟨.int, 5, none⟩
    (∀ a ∈ [x 1, x 2], a.WellFormed ∧ a.Bound i) ∧ List.Forall₂ (Value.At i) [x 1, x 2] [c, c] ∧
      ∃ r r', Operation.sub.apply [x 1, x 2] = .ok r ∧ r.kind = .int ∧
        Operation.sub.apply [c, c] = .ok r' ∧
        r.evaluate i = .ok (.const ⟨0xFFFFFFFF, 32⟩) ∧ r'.literal = .ok (.const ⟨0, 32⟩) := by
  intro x i c
  have hx : ∀ n < 2 ^ 32, (x n).WellFormed ∧ (x n).Bound i := fun n hn =>
    ⟨⟨32, rfl, rfl, hn, fun t ht => by cases ht; exact ⟨.var rfl rfl, rfl⟩⟩,
      fun t ht => by cases ht; decide⟩
  have hc : ∀ n, (x n).At i c := fun n =>
    ⟨.const ⟨5, 32⟩, rfl, show Value.ofTerm .int _ = _ by decide⟩
  refine ⟨?_, .cons (hc 1) (.cons (hc 2) .nil), ⟨.int, 0xFFFFFFFF, none⟩, ⟨.int, 0, none⟩,
    by decide, rfl, by decide, by decide, by decide⟩
  simp [hx]

end Operation

end Concolic
