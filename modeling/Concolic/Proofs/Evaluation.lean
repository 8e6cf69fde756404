import Mathlib
import Concolic.Proofs.Denotation
import Concolic.Proofs.Variables

namespace Concolic

namespace Input

def AgreeAt (i j : Input) (n : String) : Prop :=
  (i.get? n).map Value.concrete = (j.get? n).map Value.concrete

instance (i j : Input) (n : String) : Decidable (i.AgreeAt j n) :=
  inferInstanceAs (Decidable ((i.get? n).map Value.concrete = (j.get? n).map Value.concrete))

end Input

namespace Term

variable {i j : Input} {t : Term} {ts : List Term} {w : Nat} {n : String} {k : Kind}
  {vs : List (String × Kind)}

theorem eval_var_congr (h : i.AgreeAt j n) : (var n k).eval i = (var n k).eval j := by
  have literal (v : Value) : v.literal = v.concrete.literal := rfl
  have kind (v : Value) : v.kind = v.concrete.kind := rfl
  unfold Input.AgreeAt at h
  simp only [eval]
  cases hi : i.get? n with
  | none =>
    cases hj : j.get? n with
    | none => rfl
    | some v => simp [hi, hj] at h
  | some v =>
    cases hj : j.get? n with
    | none => simp [hi, hj] at h
    | some u =>
      rw [hi, hj, Option.map_some, Option.map_some, Option.some.injEq] at h
      simp only [literal v, literal u, kind v, kind u, h]

theorem eval_congr (h : ∀ p ∈ t.occurrences, i.AgreeAt j p.1) : t.eval i = t.eval j := by
  induction t with
  | hole => rfl
  | const => rfl
  | fconst => rfl
  | var n k => exact eval_var_congr (h (n, k) List.mem_cons_self)
  | extract s _ _ ih => rw [eval, eval, ih h]
  | not s ih => rw [eval, eval, ih h]
  | cast s _ _ ih => rw [eval, eval, ih h]
  | convert _ s _ ih => rw [eval, eval, ih h]
  | binary _ l r ihl ihr =>
    rw [eval, eval, ihl fun p hp => h p (List.mem_append_left _ hp),
      ihr fun p hp => h p (List.mem_append_right _ hp)]
  | float _ l r ihl ihr =>
    rw [eval, eval, ihl fun p hp => h p (List.mem_append_left _ hp),
      ihr fun p hp => h p (List.mem_append_right _ hp)]
  | ite c y n ihc ihy ihn =>
    rw [eval, eval, ihc fun p hp => h p (by simp [occurrences, hp]),
      ihy fun p hp => h p (by simp [occurrences, hp]),
      ihn fun p hp => h p (by simp [occurrences, hp])]

theorem isWhole_of_vars (h : vars ts = .ok vs) : ∀ t ∈ ts, t.isWhole := by
  rw [vars_eq] at h
  split at h
  next hw => exact List.all_eq_true.mp hw
  next => cases h

theorem mem_vars_iff (h : vars ts = .ok vs) :
    (n, k) ∈ vs ↔ (ts.flatMap occurrences).lookup n = some k := by
  obtain ⟨us, hu, -, first⟩ := vars_first (isWhole_of_vars h)
  obtain rfl : us = vs := Except.ok.inj (hu.symm.trans h)
  exact first n k

theorem mem_names_iff_lookup {ps : List (String × Kind)} :
    n ∈ ps.map Prod.fst ↔ ∃ k, ps.lookup n = some k := by
  constructor
  · intro hm
    obtain ⟨p, hp, rfl⟩ := List.mem_map.mp hm
    refine Option.ne_none_iff_exists'.mp fun hn => ?_
    simpa using List.lookup_eq_none_iff.mp hn p hp
  · rintro ⟨k, hk⟩
    exact List.mem_map.mpr ⟨(n, k), Entries.mem_of_lookup hk, rfl⟩

theorem mem_names_iff (h : vars ts = .ok vs) :
    n ∈ vs.map Prod.fst ↔ n ∈ (ts.flatMap occurrences).map Prod.fst := by
  refine List.mem_map.trans (Iff.trans ?_ mem_names_iff_lookup.symm)
  constructor
  · rintro ⟨⟨_, k⟩, hp, rfl⟩
    exact ⟨k, (mem_vars_iff h).mp hp⟩
  · rintro ⟨k, hk⟩
    exact ⟨(n, k), (mem_vars_iff h).mpr hk, rfl⟩

theorem Consistent.mem_vars (hc : Consistent ts) (h : vars ts = .ok vs) (ht : t ∈ ts)
    {p : String × Kind} (hp : p ∈ t.occurrences) : p ∈ vs := by
  have occurs : p ∈ ts.flatMap occurrences := List.mem_flatMap.mpr ⟨t, ht, hp⟩
  obtain ⟨k, hk⟩ := mem_names_iff_lookup.mp (List.mem_map.mpr ⟨p, occurs, rfl⟩)
  obtain ⟨s, hs, hq⟩ := List.mem_flatMap.mp (Entries.mem_of_lookup hk)
  have same : k = p.2 := hc s hs _ hq t ht p hp rfl
  exact (mem_vars_iff h).mpr (same ▸ hk)

/-- The variables are found in the order of names, each once and as it occurs first; two inputs that
agree on them give the same value or the same error, and one that binds them all gives a literal of
the width of the term. -/
theorem evaluation_reads_variables :
    (∀ ts : List Term, (∀ t ∈ ts, t.isWhole) → ∃ vs, vars ts = .ok vs ∧
      vs.Pairwise (fun p q => p.1 < q.1) ∧
      (∀ n, n ∈ vs.map Prod.fst ↔ n ∈ (ts.flatMap occurrences).map Prod.fst) ∧
      ∀ p ∈ vs, (ts.flatMap occurrences).lookup p.1 = some p.2) ∧
    (∀ e vs, vars [e] = .ok vs → ∀ i j : Input, (∀ p ∈ vs, i.AgreeAt j p.1) →
      e.eval i = e.eval j) ∧
    ∀ e w, e.Typed w → Consistent [e] → ∃ vs, vars [e] = .ok vs ∧
      ∀ i : Input, (∀ p ∈ vs, (i.get? p.1).map Value.kind = some p.2) →
        ∃ c : Literal, e.eval i = .ok (const c) ∧ e.width = .ok c.width ∧
          c.value < 2 ^ c.width := by
  refine ⟨fun ts hw => ?_, fun e vs hv i j agree => ?_, fun e w ht hc => ?_⟩
  · obtain ⟨vs, hv, ascending, first⟩ := vars_first hw
    exact ⟨vs, hv, ascending, fun n => mem_names_iff hv, fun p hp => (first p.1 p.2).mp hp⟩
  · apply eval_congr
    intro p hp
    have named : p.1 ∈ vs.map Prod.fst := by
      rw [mem_names_iff hv, List.flatMap_singleton]
      exact List.mem_map_of_mem hp
    obtain ⟨q, hq, hqp⟩ := List.mem_map.mp named
    exact hqp ▸ agree q hq
  · have whole : ∀ t ∈ [e], t.isWhole := by simp [ht.isWhole]
    obtain ⟨vs, hv, -, -⟩ := vars_first whole
    refine ⟨vs, hv, fun i bound => ?_⟩
    have binds : i.Binds e := fun p hp => bound p (hc.mem_vars hv List.mem_cons_self hp)
    exact ⟨_, eval_eq ht binds, ht.width, (e.denote i w).isLt⟩

def above : Term :=
  ite (binary .slt (var "y" .int) (var "x" .int)) (var "x" .int) (const ⟨7, 32⟩)

theorem above_typed : above.Typed 32 :=
  .ite (.compare rfl (.var rfl rfl) (.var rfl rfl)) (.var rfl rfl)
    (.const (by decide) (by decide) (by decide))

def aboveInput (unread : Value) : Input :=
  .ofList [("x", ⟨.int, 9, none⟩), ("y", ⟨.int, 4, none⟩), ("z", unread)]

theorem evaluation_reads_variables_above :
    (∃ vs, vars [above, var "a" .long] = .ok vs ∧
      ∀ p ∈ vs, ([above, var "a" .long].flatMap occurrences).lookup p.1 = some p.2) ∧
    (∀ u v, above.eval (aboveInput u) = above.eval (aboveInput v)) ∧
    ∃ c : Literal, above.eval (aboveInput .unset) = .ok (const c) ∧ c.value < 2 ^ c.width := by
  have found : vars [above] = .ok [("x", .int), ("y", .int)] := rfl
  obtain ⟨lists, agree, total⟩ := evaluation_reads_variables
  refine ⟨?_, fun u v => agree above _ found _ _ ?_, ?_⟩
  · obtain ⟨vs, hv, -, -, first⟩ := lists [above, var "a" .long] (by decide)
    exact ⟨vs, hv, first⟩
  · simp [Input.AgreeAt, aboveInput, Input.ofList]
  · obtain ⟨vs, hv, bound⟩ := total above 32 above_typed (by decide)
    obtain rfl : vs = [("x", .int), ("y", .int)] := Except.ok.inj (hv.symm.trans found)
    obtain ⟨c, hc, -, hlt⟩ := bound (aboveInput .unset) (by decide)
    exact ⟨c, hc, hlt⟩

end Term

end Concolic
