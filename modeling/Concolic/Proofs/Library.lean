import Mathlib
import Concolic.Library.Standard
import Concolic.Proofs.Symbolic

namespace Concolic

namespace Library

variable {name other : String} {m : Model} {vars : List (String × Kind)}

theorem lookup_register (l : Library) :
    (l.register name m).lookup other = if name = other then some m else l.lookup other :=
  Entries.lookup_place name other m l.entries

def Answers (vars : List (String × Kind)) (f : Input → Except Defect ModelResult) : Prop :=
  (∃ m : ModelResult, m.error?.isSome ∧ ∀ i, f i = .ok m) ∨
    ∃ r : Symbolic, r.term.occurrences ⊆ vars ∧ ∀ i, f i = .ok (.ok (r.value i))

theorem Answers.unsupported (reason : String) :
    Answers vars fun _ => .ok (.unsupported reason) :=
  .inl ⟨_, rfl, fun _ => rfl⟩

theorem onWords_answers {count : Nat} {ss : List Symbolic}
    {body : Input → Kind → Except Defect ModelResult}
    (h : ∀ kind, ss.length = count → (∀ s ∈ ss, s.kind = kind) →
      Answers vars fun i => body i kind) :
    Answers vars fun i => onWords name count (ss.map (·.value i)) (body i) := by
  have kinds : ∀ i, ((ss.map (·.value i)).head?.map Value.kind).getD .invalid =
      (ss.head?.map Symbolic.kind).getD .invalid := by
    intro i
    cases ss <;> rfl
  have all : ∀ i k, ((ss.map (·.value i)).all fun v => v.kind == k && k.isWord) =
      ss.all fun s => s.kind == k && k.isWord := by
    intro i k
    simp [List.all_map, Function.comp_def]
  simp only [onWords, List.length_map, kinds, all]
  split
  next => exact .unsupported _
  next hn =>
    split
    next hs =>
      apply h _ (not_not.mp hn)
      intro s hmem
      have := List.all_eq_true.mp hs s hmem
      simp_all
    next => exact .unsupported _

theorem applying_answers {op : Operation} {a : Symbolic} (rest : List Symbolic)
    {next : Input → Value → Except Defect ModelResult} (ho : op.isExact)
    (hd : op.isDivision = false) (hv : Symbolic.variables (a :: rest) ⊆ vars)
    (h : ∀ r : Symbolic, r.term.occurrences ⊆ vars →
      op.resultOf a.kind (rest.headD a).kind = .ok r.kind → Answers vars fun i => next i (r.value i)) :
    Answers vars fun i => applying name op ((a :: rest).map (·.value i)) (next i) := by
  unfold applying
  rcases op.apply_symbolic ho (a :: rest) with ⟨e, he⟩ | ⟨r, hr, hk, hi⟩
  · simp only [he]
    exact .inl ⟨_, rfl, fun _ => rfl⟩
  · simp only [hi, hd, Bool.false_and, Bool.false_eq_true, if_false]
    apply h r (List.Subset.trans hr hv)
    have kinds : op.resultKind (((a :: rest).map (·.value ∅)).map (·.kind)) = .ok r.kind := by
      simpa [Function.comp_def] using hk
    obtain ⟨v, vs, hvs, -, hk⟩ := Operation.resultKind_ok kinds
    cases hvs
    cases rest <;> exact hk

section Choose

variable {c a b : Symbolic}

/-- Where a choice is settled without a term, the term folds to what is chosen. -/
theorem choose_eq {c a b : Value} {w : Nat} {t : Term} (hc : c.Fits 1) (ha : a.Fits w)
    (hb : b.Fits w) (ht : Term.mkIte (c.symbol 1) (a.symbol w) (b.symbol w) = .ok t) :
    choose c a b = .ok ((if c.toBool then a else b).concrete.withTerm (some t)) := by
  have settled (h : t = if c.toBool then a.symbol w else b.symbol w) :
      (if c.toBool then a else b).concrete.withTerm (some t) = if c.toBool then a else b := by
    rw [h]
    split
    · exact ha.concrete_withTerm
    · exact hb.concrete_withTerm
  unfold choose
  by_cases hcc : c.isConcrete
  · rw [Value.symbol_of_isConcrete hcc, Term.mkIte_literal] at ht
    rw [if_pos hcc, settled]
    simpa [hc.toBool] using (Except.ok.inj ht).symm
  rw [if_neg hcc]
  split
  next hab =>
    simp only [Bool.and_eq_true, beq_iff_eq] at hab
    have same : a.symbol w = b.symbol w := by
      rw [Value.symbol_of_isConcrete hab.1.1, Value.symbol_of_isConcrete hab.1.2, hab.2]
    rw [settled]
    rw [← same, Term.mkIte_same hc.symbol_typed] at ht
    rw [← same, ite_self, Except.ok.inj ht]
  next => simp only [hc.term, ha.term, hb.term, ok_bind, ht, pure_eq_ok]

theorem choose_symbolic (hc : c.width = 1) (hk : b.kind = a.kind) :
    ∃ r : Symbolic, r.term.occurrences ⊆ Symbolic.variables [c, a, b] ∧
      ∀ i, choose (c.value i) (a.value i) (b.value i) = .ok (r.value i) := by
  have hb : b.width = a.width := Option.some.inj (b.sized.symm.trans (hk ▸ a.sized))
  obtain ⟨t, ht, hi⟩ := Term.mkIte_yields (hc ▸ c.typed) a.typed (hb ▸ b.typed)
  refine ⟨⟨a.kind, a.width, t, a.exact, a.sized, hi.typed⟩, ?_, fun i => ?_⟩
  · simpa [Symbolic.variables, Term.occurrences] using hi.bound
  · have built : Term.mkIte ((c.value i).symbol 1) ((a.value i).symbol a.width)
        ((b.value i).symbol a.width) = .ok t := by
      rw [← hc, c.symbol_value, a.symbol_value, ← hb, b.symbol_value, ht]
    rw [choose_eq (hc ▸ c.value_fits i) (a.value_fits i) (hb ▸ b.value_fits i) built,
      Symbolic.toBool_value hc]
    have width : (b.term.denote i b.width).toNat = (b.term.denote i a.width).toNat := by rw [hb]
    by_cases h : c.term.denote i 1 = 1#1
    · simp [h, Symbolic.value, hi.means, Term.denote_ite, Value.concrete, Value.withTerm]
    · simp [h, hk, width, Symbolic.value, hi.means, Term.denote_ite, Value.concrete, Value.withTerm]

end Choose

/-- A model that only looks at its arguments, and answers over open ones. -/
def Tame (m : Model) : Prop :=
  ∃ f, m = .ofFunction f ∧
    ∀ ss : List Symbolic, Answers (Symbolic.variables ss) fun i => f (ss.map (·.value i))

theorem zero_answers {x : Symbolic} {next : Input → Value → Except Defect ModelResult}
    (h : ∀ z : Symbolic, z.term.occurrences = [] → Answers vars fun i => next i (z.value i)) :
    Answers vars fun i => Value.zero x.kind >>= next i := by
  have zero : ∀ i, Value.zero x.kind = .ok ((Symbolic.ofBits x.kind x.exact x.sized 0).value i) := by
    intro i
    rw [Symbolic.value_ofBits]
    simp [Value.zero, Value.ofBits, Kind.width, x.sized, wrap]
  have bound : (fun i => Value.zero x.kind >>= next i) = fun i =>
      next i ((Symbolic.ofBits x.kind x.exact x.sized 0).value i) := by
    funext i
    rw [zero i, ok_bind]
  rw [bound]
  exact h _ rfl

theorem chosen_answers {c a b : Symbolic} (hc : c.kind = .bool) (hk : b.kind = a.kind)
    (hv : Symbolic.variables [c, a, b] ⊆ vars) :
    Answers vars fun i => do return .ok (← choose (c.value i) (a.value i) (b.value i)) := by
  have width : c.width = 1 := by
    have := c.sized
    rw [hc] at this
    exact (Option.some.inj this).symm
  obtain ⟨r, hr, hi⟩ := choose_symbolic width hk
  refine .inr ⟨r, List.Subset.trans hr hv, fun i => ?_⟩
  simp only [hi, ok_bind, pure_eq_ok]

theorem abs_tame : Tame (.ofFunction abs) := by
  refine ⟨_, rfl, fun ss => onWords_answers ?_⟩
  intro kind hn hk
  obtain ⟨x, rfl⟩ := List.length_eq_one_iff.mp hn
  obtain rfl := hk x (by simp)
  refine zero_answers fun z hz => ?_
  refine applying_answers [z] rfl rfl (by simp [Symbolic.variables, hz]) fun c hc hck => ?_
  refine applying_answers [] rfl rfl (List.Subset.refl _) fun m hm hmk => ?_
  obtain ⟨-, hc'⟩ := Operation.resultOf_compare rfl hck
  obtain ⟨hm', -⟩ := Operation.resultOf_arithmetic rfl hmk
  apply chosen_answers hc' hm'.symm
  simp_all [Symbolic.variables]

theorem select_tame {op : Operation} (ho : op.isCompare) (name : String) :
    Tame (.ofFunction (select name op)) := by
  have exact : op.isExact ∧ op.isDivision = false := by
    cases op <;> first | exact ⟨rfl, rfl⟩ | cases ho
  refine ⟨_, rfl, fun ss => onWords_answers ?_⟩
  intro kind hn hk
  obtain ⟨x, y, rfl⟩ := List.length_eq_two.mp hn
  refine applying_answers [y] exact.1 exact.2 (List.Subset.refl _) fun c hc hck => ?_
  obtain ⟨hy, hc'⟩ := Operation.resultOf_compare ho hck
  apply chosen_answers hc' hy
  simp_all [Symbolic.variables]

theorem signum_tame : Tame (.ofFunction signum) := by
  refine ⟨_, rfl, fun ss => onWords_answers ?_⟩
  intro kind hn hk
  obtain ⟨x, rfl⟩ := List.length_eq_one_iff.mp hn
  obtain rfl := hk x (by simp)
  refine zero_answers fun z hz => ?_
  refine applying_answers [z] rfl rfl (by simp [Symbolic.variables, hz]) fun r hr _ => ?_
  exact .inr ⟨r, hr, fun _ => rfl⟩

theorem matcherFind_tame : Tame (.ofFunction matcherFind) :=
  ⟨_, rfl, fun _ => .unsupported _⟩

def AllTame (l : Library) : Prop := ∀ name m, l.lookup name = some m → Tame m

theorem AllTame.register {l : Library} (hl : l.AllTame) (hm : Tame m) :
    (l.register name m).AllTame := by
  intro other k hk
  rw [lookup_register] at hk
  split at hk
  · cases hk
    exact hm
  · exact hl other k hk

theorem AllTame.invoke {l : Library} (hl : l.AllTame) (name : String) :
    ∃ f : List Value → Except Defect ModelResult,
      (∀ args s, l.invoke name args s = { result := f args, state := s }) ∧
      ∀ ss : List Symbolic, Answers (Symbolic.variables ss) fun i => f (ss.map (·.value i)) := by
  unfold Library.invoke
  cases hm : l.lookup name with
  | none => exact ⟨fun _ => .ok (.unsupported _), fun _ _ => rfl, fun _ => .unsupported _⟩
  | some m =>
    obtain ⟨f, rfl, hf⟩ := hl name m hm
    exact ⟨f, fun _ _ => rfl, hf⟩

theorem empty_allTame : empty.AllTame := by
  intro name m hm
  cases hm

theorem standard_allTame : standard.AllTame :=
  (((((empty_allTame.register abs_tame).register (select_tame rfl _)).register
    (select_tame rfl _)).register signum_tame).register signum_tame).register matcherFind_tame

theorem allTame_of {l : Library} (hl : l = standard ∨ l = empty) : l.AllTame := by
  rcases hl with rfl | rfl
  · exact standard_allTame
  · exact empty_allTame

end Library

end Concolic
