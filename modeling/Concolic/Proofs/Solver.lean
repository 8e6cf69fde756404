import Mathlib
import Concolic.Solver.BitVector
import Concolic.Proofs.Circuit.Encoding
import Concolic.Proofs.Variables

namespace Concolic

open Builder Builder.Circuit Binary

namespace Sat

theorem solved_assuming {p : Problem} {roots : List Lit} {nodes : Nat → Bool} :
    (p.assuming roots).Solved nodes ↔ (∀ l ∈ roots, l.value nodes = true) ∧ p.Solved nodes := by
  simp [Problem.Solved, Problem.assuming, Clause.holds, or_imp, forall_and]

open Classical in
noncomputable def oracle : Engine := fun p _ =>
  if h : ∃ nodes, p.Solved nodes then .sat h.choose else .unsat

theorem oracle_decides : oracle.Decides where
  solved p _ nodes h := by
    unfold oracle at h
    split at h
    next hn =>
      cases h
      exact hn.choose_spec
    next => cases h
  refuted p _ h nodes hn := by
    rw [oracle, dif_pos ⟨nodes, hn⟩] at h
    cases h
  answered p _ h := by
    unfold oracle at h
    split at h <;> cases h

end Sat

def Input.Satisfies (i : Input) (ts : List Term) : Prop :=
  ∀ t ∈ ts, i.Binds t ∧ t.eval i = .ok (.ofBool true)

theorem Input.satisfies_iff {i : Input} {ts : List Term} (ht : ∀ t ∈ ts, t.Typed 1) :
    i.Satisfies ts ↔ ∀ t ∈ ts, i.Binds t ∧ t.denote i 1 = 1#1 := by
  refine forall₂_congr fun t hmem => and_congr_right fun hb => ?_
  rw [Term.eval_bool (ht t hmem) hb]
  by_cases h : t.denote i 1 = 1#1
  · simp [h]
  · simp [h, Term.ofBool, Literal.ofBool]

namespace BitVector

open Encoder

variable {B : Builder} [B.Interpretation] {K : String → Kind} {enc enc' : Encoder B} {t : Term}
  {l : Lit} {done ts : List Term} {roots : List Lit} {inputs : Lit → Bool}

theorem root_runs [B.Lawful] (hK : ∀ p ∈ t.occurrences, K p.1 = p.2) :
    Runs K (do single t (← encode t)) enc (t.Typed 1) fun enc' l => enc'.Means t [l] := by
  refine ((encode_runs hK).weaken fun h => ⟨1, h⟩).bind fun xs enc₁ _ _ hx => ?_
  refine (single_runs hx).imp id fun l enc₂ _ _ ⟨he, hl⟩ => ?_
  rwa [he, ← hl]

theorem value_root (hm : enc.Means t [l]) (ht : t.Typed 1) :
    enc.circuit.value inputs l = decide (t.denote (enc.reading inputs) 1 = 1#1) := by
  have h := hm.reads 1 ht inputs
  rw [toBits_one] at h
  cases h with
  | cons hl _ => exact hl.2

structure Rooted (enc : Encoder B) (done : List Term) (roots : List Lit) : Prop where
  typed : ∀ t ∈ done, t.Typed 1
  bound : ∀ t ∈ done, ∀ p ∈ t.occurrences, (enc.bound.lookup p.1).isSome
  scope : ∀ l ∈ roots, enc.circuit.Has l
  holds : ∀ inputs, (∀ l ∈ roots, enc.circuit.value inputs l = true) ↔
    ∀ t ∈ done, t.denote (enc.reading inputs) 1 = 1#1

namespace Rooted

theorem mono [B.Lawful] (h : Rooted enc done roots) (hs : enc.Sound K) (hg : enc.Grows enc') :
    Rooted enc' done roots where
  typed := h.typed
  bound t ht p hp := by
    obtain ⟨xs, hx⟩ := Option.isSome_iff_exists.mp (h.bound t ht p hp)
    exact Option.isSome_iff_exists.mpr ⟨xs, hg.bound _ _ hx⟩
  scope l hl := hg.circuit.has (h.scope l hl)
  holds inputs := by
    have same : ∀ t ∈ done, t.denote (enc'.reading inputs) 1 = t.denote (enc.reading inputs) 1 :=
      fun t ht => Term.denote_congr (h.typed t ht) fun p hp _ _ => by
        rw [hg.pattern hs (h.bound t ht p hp)]
    have roots_iff : (∀ l ∈ roots, enc'.circuit.value inputs l = true) ↔
        ∀ l ∈ roots, enc.circuit.value inputs l = true :=
      forall₂_congr fun l hl => by rw [hg.circuit.value (h.scope l hl)]
    rw [roots_iff, h.holds]
    exact forall₂_congr fun t ht => by rw [same t ht]

theorem reverse (h : Rooted enc done roots) : Rooted enc done roots.reverse where
  typed := h.typed
  bound := h.bound
  scope l hl := h.scope l (List.mem_reverse.mp hl)
  holds inputs := by simpa using h.holds inputs

theorem push (h : Rooted enc done roots) (ht : t.Typed 1) (hm : enc.Means t [l]) :
    Rooted enc (done ++ [t]) (l :: roots) where
  typed := List.forall_mem_append.mpr ⟨h.typed, by simpa using ht⟩
  bound := List.forall_mem_append.mpr ⟨h.bound, by simpa using hm.bound 1 ht⟩
  scope := List.forall_mem_cons.mpr ⟨hm.scope l List.mem_cons_self, h.scope⟩
  holds inputs := by
    rw [List.forall_mem_cons, List.forall_mem_append, List.forall_mem_singleton, h.holds,
      value_root hm ht, decide_eq_true_iff, and_comm]

theorem skip [B.Lawful] (h : Rooted enc done (B.top :: roots)) (hv : enc.circuit.Valid) :
    Rooted enc done roots where
  typed := h.typed
  bound := h.bound
  scope := (List.forall_mem_cons.mp h.scope).2
  holds inputs := by
    rw [← h.holds, List.forall_mem_cons, (Holds.top hv).2]
    simp

end Rooted

def Outcome (K : String → Kind) (done ts : List Term) :
    Except (Failure CircuitError) (Encoding B) → Prop
  | .error _ => ∃ t ∈ ts, t.hasFloat = true
  | .ok .contradiction => ∃ before t after, ts = before ++ t :: after ∧
      (∀ s ∈ before, s.hasFloat = false) ∧ t.Typed 1 ∧ ∀ i, t.denote i 1 ≠ 1#1
  | .ok (.literals enc roots) => enc.Sound K ∧ Rooted enc (done ++ ts) roots

theorem Outcome.cons {r : Except (Failure CircuitError) (Encoding B)} (hp : t.hasFloat = false)
    (h : Outcome K (done ++ [t]) ts r) : Outcome K done (t :: ts) r := by
  match r, h with
  | .error _, ⟨s, hs, hf⟩ => exact ⟨s, List.mem_cons_of_mem _ hs, hf⟩
  | .ok .contradiction, ⟨before, s, after, he, hb, hs⟩ =>
    refine ⟨t :: before, s, after, by rw [he, List.cons_append], ?_, hs⟩
    exact List.forall_mem_cons.mpr ⟨hp, hb⟩
  | .ok (.literals enc roots), h => simpa [Outcome] using h

theorem denote_ne_of_bottom [B.Lawful] (hs : enc.Sound K) (hK : ∀ p ∈ t.occurrences, K p.1 = p.2)
    (ht : t.Typed 1) (hm : enc.Means t [B.bottom]) (i : Input) : t.denote i 1 ≠ 1#1 := by
  obtain ⟨inputs, h⟩ := hs.exists_assigns i
  have ha := h t (hm.bound 1 ht)
  have hv : enc.circuit.value inputs B.bottom = _ := value_root hm ht
  rw [(Holds.bottom hs.valid).2, ha.denote_eq hs hK ht] at hv
  exact of_decide_eq_false hv.symm

theorem encodeFrom_outcome [B.Lawful] (hs : enc.Sound K) (hr : Rooted enc done roots)
    (hK : ∀ t ∈ ts, ∀ p ∈ t.occurrences, K p.1 = p.2)
    (hts : ∀ t ∈ ts, t.Typed 1 ∨ t.hasFloat = true) :
    Outcome K done ts (encodeFrom enc roots ts) := by
  induction ts generalizing enc roots done with
  | nil => exact ⟨hs, by simpa using hr.reverse⟩
  | cons t ts ih =>
    obtain ⟨hKt, hK⟩ := List.forall_mem_cons.mp hK
    obtain ⟨htt, hts⟩ := List.forall_mem_cons.mp hts
    obtain ⟨ok, total⟩ := root_runs hKt hs
    rw [encodeFrom]
    cases h : (do single t (← encode t) : EncodeM B Lit).run enc with
    | error e =>
      rcases htt with ht | hf
      · obtain ⟨r, hr⟩ := total ht
        exact absurd (h.symm.trans hr) (by simp)
      · exact ⟨t, List.mem_cons_self, hf⟩
    | ok r =>
      obtain ⟨l, enc₁⟩ := r
      obtain ⟨hg, hs₁, hm⟩ := ok l enc₁ h
      -- It has a circuit, so it is not of floating point.
      have ht : t.Typed 1 := htt.resolve_right (by simp [hm.plain])
      have hr₁ := (hr.mono hs hg).push ht hm
      rw [ok_bind]
      dsimp only
      split
      next hl =>
        subst hl
        exact ⟨[], t, ts, rfl, by simp, ht, denote_ne_of_bottom hs₁ hKt ht hm⟩
      split
      next hl =>
        subst hl
        exact (ih hs₁ (hr₁.skip hs₁.valid) hK hts).cons hm.plain
      next => exact (ih hs₁ hr₁ hK hts).cons hm.plain

def readValue (nodes : Nat → Bool) (v : String × Kind × Bits) : Value :=
  ⟨v.2.1, v.2.2.toNat fun l => l.value nodes, none⟩

def bindVar (nodes : Nat → Bool) (i : Input) (v : String × Kind × Bits) : Except Defect Input := do
  return i.insert v.1 (← Value.ofBits v.2.1 (v.2.2.toNat fun l => l.value nodes))

theorem bindVar_eq {nodes : Nat → Bool} {b : List (String × Value)} {v : String × Kind × Bits}
    (hw : v.2.1.width? = some v.2.2.length) (hb : ∀ e ∈ b, e.1 < v.1) :
    bindVar nodes ⟨b⟩ v = .ok ⟨b ++ [(v.1, readValue nodes v)]⟩ := by
  have hlt : v.2.2.toNat (fun l => l.value nodes) < patterns v.2.2.length := by
    rw [patterns_of_le (Kind.width_bounds hw).2, twoPow_eq]
    exact Bits.toNat_lt _ _
  rw [bindVar, Value.ofBits, Kind.width, hw]
  simp [wrap_of_lt hlt, Input.insert, Entries.place, Entries.alter_of_lt hb, readValue]

theorem bindings_eq {nodes : Nat → Bool} {vs : List (String × Kind × Bits)}
    (hw : ∀ v ∈ vs, v.2.1.width? = some v.2.2.length) (ha : vs.Pairwise fun v u => v.1 < u.1) :
    bindings nodes vs = .ok ⟨vs.map fun v => (v.1, readValue nodes v)⟩ := by
  have run : ∀ b : List (String × Value), (∀ e ∈ b, ∀ v ∈ vs, e.1 < v.1) →
      vs.foldlM (bindVar nodes) ⟨b⟩ = .ok ⟨b ++ vs.map fun v => (v.1, readValue nodes v)⟩ := by
    induction vs with
    | nil => simp
    | cons v vs ih =>
      intro b hb
      obtain ⟨hv, hw⟩ := List.forall_mem_cons.mp hw
      obtain ⟨hav, ha⟩ := List.pairwise_cons.mp ha
      have hb' : ∀ e ∈ b ++ [(v.1, readValue nodes v)], ∀ u ∈ vs, e.1 < u.1 := by
        intro e he u hu
        rcases List.mem_append.mp he with he | he
        · exact hb e he u (List.mem_cons_of_mem v hu)
        · obtain rfl := List.mem_singleton.mp he
          exact hav u hu
      rw [List.foldlM_cons, bindVar_eq hv fun e he => hb e he v List.mem_cons_self, ok_bind,
        ih hw ha _ hb', List.append_assoc]
      rfl
  exact run [] (by simp)

omit [B.Interpretation] in
theorem exists_bindings {nodes : Nat → Bool} {vs : List (String × Kind)} (ha : Entries.Ascending vs)
    (hv : ∀ p ∈ vs, ∃ xs, enc.bound.lookup p.1 = some xs ∧ p.2.width? = some xs.length) :
    ∃ i, bindings nodes (vs.map fun v => (v.1, v.2, (enc.bound.lookup v.1).getD [])) = .ok i ∧
      i.entries.map (fun b => (b.1, b.2.kind)) = vs ∧ ∀ p ∈ vs, ∀ xs,
        enc.bound.lookup p.1 = some xs → i.get? p.1 = some (readValue nodes (p.1, p.2, xs)) := by
  generalize hm : (vs.map fun v => (v.1, v.2, (enc.bound.lookup v.1).getD [])) = us
  have hw : ∀ u ∈ us, u.2.1.width? = some u.2.2.length := by
    intro u hu
    obtain ⟨p, hp, rfl⟩ := List.mem_map.mp (hm ▸ hu)
    obtain ⟨xs, hx, hl⟩ := hv p hp
    simpa [hx] using hl
  have hau : us.Pairwise fun u v => u.1 < v.1 := by
    rw [← hm, List.pairwise_map]
    exact ha
  refine ⟨_, bindings_eq hw hau, by simp [← hm, readValue, Function.comp_def], fun p hp xs hx => ?_⟩
  refine Entries.Ascending.lookup_of_mem (List.pairwise_map.mpr hau) ?_
  refine List.mem_map.mpr ⟨(p.1, p.2, xs), ?_, rfl⟩
  rw [← hm]
  exact List.mem_map.mpr ⟨p, hp, by rw [hx]; rfl⟩

theorem variableBits_spec (hs : enc.Sound K) (hr : Rooted enc ts roots)
    (hK : ∀ t ∈ ts, ∀ p ∈ t.occurrences, K p.1 = p.2) :
    ∃ us, variableBits enc ts = .ok us ∧ ∀ nodes, ∃ i, bindings nodes us = .ok i ∧
      Term.vars ts = .ok (i.entries.map fun b => (b.1, b.2.kind)) ∧
      ∀ t ∈ ts, ∀ p ∈ t.occurrences, ∀ xs, enc.bound.lookup p.1 = some xs →
        i.get? p.1 = some (readValue nodes (p.1, p.2, xs)) := by
  obtain ⟨vs, hvs, ha, hv⟩ := Term.vars_spec (fun t hmem => ⟨1, hr.typed t hmem⟩) hK
  have found : ∀ p ∈ vs, ∃ xs, enc.bound.lookup p.1 = some xs ∧ p.2.width? = some xs.length := by
    intro p hp
    obtain ⟨t, ht, hp⟩ := (hv p).mp hp
    obtain ⟨xs, hx⟩ := Option.isSome_iff_exists.mp (hr.bound t ht p hp)
    exact ⟨xs, hx, hK t ht p hp ▸ hs.widths _ (Entries.mem_of_lookup hx)⟩
  refine ⟨_, by rw [variableBits, hvs, ok_bind]; rfl, fun nodes => ?_⟩
  obtain ⟨i, hb, hvars, hget⟩ := exists_bindings ha found
  exact ⟨i, hb, by rw [hvs, hvars], fun t ht p hp => hget p ((hv p).mpr ⟨t, ht, hp⟩)⟩

theorem satisfies_of_solved [B.Lawful] {nodes : Nat → Bool} {i : Input} (hs : enc.Sound K)
    (hr : Rooted enc done roots) (hn : ((B.problem enc.circuit).assuming roots).Solved nodes)
    (hi : ∀ t ∈ done, ∀ p ∈ t.occurrences, ∀ xs, enc.bound.lookup p.1 = some xs →
      i.get? p.1 = some (readValue nodes (p.1, p.2, xs))) : i.Satisfies done := by
  obtain ⟨htrue, hn⟩ := Sat.solved_assuming.mp hn
  obtain ⟨inputs, value⟩ := Lawful.solved hs.valid hn
  refine (Input.satisfies_iff hr.typed).mpr fun t ht => ⟨fun p hp => ?_, ?_⟩
  · obtain ⟨xs, hx⟩ := Option.isSome_iff_exists.mp (hr.bound t ht p hp)
    rw [hi t ht p hp xs hx]
    rfl
  · have denoted : t.denote (enc.reading inputs) 1 = 1#1 := by
      refine (hr.holds inputs).mp (fun l hl => ?_) t ht
      rw [value l (hr.scope l hl), htrue l hl]
    rw [← denoted]
    refine Term.denote_congr (hr.typed t ht) fun p hp _ _ => ?_
    obtain ⟨xs, hx⟩ := Option.isSome_iff_exists.mp (hr.bound t ht p hp)
    rw [pattern_reading hx, Input.pattern, hi t ht p hp xs hx,
      Bits.toNat_congr fun l hl => value l (hs.scope (Entries.mem_of_lookup hx) l hl)]
    rfl

theorem exists_solved [B.Lawful] {i : Input} (hs : enc.Sound K) (hr : Rooted enc done roots)
    (hK : ∀ t ∈ done, ∀ p ∈ t.occurrences, K p.1 = p.2) (hi : i.Satisfies done) :
    ∃ nodes, ((B.problem enc.circuit).assuming roots).Solved nodes := by
  obtain ⟨inputs, h⟩ := hs.exists_assigns i
  obtain ⟨nodes, hn, value⟩ := Lawful.solution hs.valid inputs
  refine ⟨nodes, Sat.solved_assuming.mpr ⟨fun l hl => ?_, hn⟩⟩
  rw [value l (hr.scope l hl)]
  refine (hr.holds inputs).mpr (fun t ht => ?_) l hl
  rw [(h t (hr.bound t ht)).denote_eq hs (hK t ht) (hr.typed t ht)]
  exact ((Input.satisfies_iff hr.typed).mp hi t ht).2

theorem rooted_start (hash : Term → UInt64) : Rooted ({ hash } : Encoder B) [] [] where
  typed := by simp
  bound := by simp
  scope := by simp
  holds := by simp

section Solve

variable [B.Lawful] {engine : Sat.Engine} {hash : Term → UInt64}

theorem outcome (hash : Term → UInt64) (hK : ∀ t ∈ ts, ∀ p ∈ t.occurrences, K p.1 = p.2)
    (hts : ∀ t ∈ ts, t.Typed 1 ∨ t.hasFloat = true) :
    Outcome K [] ts (encodeFrom ({ hash } : Encoder B) [] ts) :=
  encodeFrom_outcome (sound_start hash) (rooted_start hash) hK hts

theorem solveBy_typed (he : engine.Decides) (hK : ∀ t ∈ ts, ∀ p ∈ t.occurrences, K p.1 = p.2)
    (ht : ∀ t ∈ ts, t.Typed 1) :
    (∃ i, solveBy B engine hash ts = .ok (.sat i) ∧ i.Satisfies ts ∧
      Term.vars ts = .ok (i.entries.map fun b => (b.1, b.2.kind))) ∨
    solveBy B engine hash ts = .ok .unsat ∧ ∀ i : Input, ¬ i.Satisfies ts := by
  have h := outcome (B := B) hash hK fun t hmem => .inl (ht t hmem)
  unfold solveBy
  cases hr : encodeFrom ({ hash } : Encoder B) [] ts with
  | error e =>
    rw [hr] at h
    obtain ⟨t, hmem, hf⟩ := h
    simp [(ht t hmem).plain] at hf
  | ok r =>
    rw [hr] at h
    cases r with
    | contradiction =>
      obtain ⟨before, t, after, rfl, -, htt, hne⟩ := h
      refine .inr ⟨rfl, fun i hi => ?_⟩
      exact hne i ((Input.satisfies_iff ht).mp hi t (by simp)).2
    | literals enc roots =>
      obtain ⟨hs, hr⟩ := h
      rw [List.nil_append] at hr
      obtain ⟨us, hus, hbind⟩ := variableBits_spec hs hr hK
      simp only [hus, ok_bind]
      cases hd : engine ((B.problem enc.circuit).assuming roots) (smallest us) with
      | unsat =>
        refine .inr ⟨rfl, fun i hi => ?_⟩
        obtain ⟨nodes, hn⟩ := exists_solved hs hr hK hi
        exact he.refuted _ _ hd nodes hn
      | gaveUp => exact absurd hd (he.answered _ _)
      | sat nodes =>
        obtain ⟨i, hb, hvars, hget⟩ := hbind nodes
        refine .inl ⟨i, ?_, satisfies_of_solved hs hr (he.solved _ _ _ hd) hget, hvars⟩
        simp only [hb, ok_bind, pure_eq_ok]

/-- Constraints of floating point are never solved. They are refuted only by those before them. -/
theorem solveBy_float {solution : Solution} (hK : ∀ t ∈ ts, ∀ p ∈ t.occurrences, K p.1 = p.2)
    (hts : ∀ t ∈ ts, t.Typed 1 ∨ t.hasFloat = true) (hf : ∃ t ∈ ts, t.hasFloat = true)
    (hsol : solveBy B engine hash ts = .ok solution) :
    solution.status ≠ .sat ∧ (solution.status = .unsat → ∃ before t after,
      ts = before ++ t :: after ∧ (∀ s ∈ before, s.hasFloat = false) ∧ t.Typed 1 ∧
        ∀ i, t.denote i 1 ≠ 1#1) := by
  have h := outcome (B := B) hash hK hts
  unfold solveBy at hsol
  cases hr : encodeFrom ({ hash } : Encoder B) [] ts with
  | error e =>
    rw [hr] at hsol
    cases e with
    | defect d => cases hsol
    | error e =>
      cases hsol
      exact ⟨by simp [Solution.unknown], by simp [Solution.unknown]⟩
  | ok r =>
    rw [hr] at h hsol
    cases r with
    | contradiction =>
      cases hsol
      exact ⟨by simp [Solution.unsat], fun _ => h⟩
    | literals enc roots =>
      obtain ⟨t, hmem, hf⟩ := hf
      have ht := h.2.typed t hmem
      simp [ht.plain] at hf

omit [B.Interpretation] [B.Lawful] in
theorem solverBy_eq_ok {engine : Option Nat → Sat.Engine} {allowance : Allowance}
    {solution : Solution} (ha : allowance.refusal? = none) :
    solverBy B engine hash allowance ts () = (.ok solution, ()) ↔
      solveBy B (engine allowance.timeout) hash ts = .ok solution := by
  rw [solverBy, ha]
  dsimp only
  split <;> simp_all

/-- A lawful library of circuits and an engine that decides make a solver that decides. Constraints
without floating point are solved or refuted, and a solution binds their variables. -/
theorem solverBy_decides (B : Builder) [B.Interpretation] [B.Lawful]
    (engine : Option Nat → Sat.Engine) (hash : Term → UInt64) {allowance : Allowance}
    {constraints : List Term} (he : (engine allowance.timeout).Decides)
    (ha : allowance.refusal? = none) (hw : ∀ t ∈ constraints, t.Typed 1 ∨ t.hasFloat = true)
    (hc : Term.Consistent constraints) :
    ((∀ t ∈ constraints, t.hasFloat = false) →
      ∃ solution, solverBy B engine hash allowance constraints () = (.ok solution, ()) ∧
        (solution.status = .sat ∨ solution.status = .unsat) ∧
        (solution.status = .sat ↔ ∃ i : Input, i.Satisfies constraints) ∧
        (solution.status = .sat → solution.bindings.Satisfies constraints ∧
          Term.vars constraints = .ok (solution.bindings.entries.map fun b => (b.1, b.2.kind)))) ∧
    ((∃ t ∈ constraints, t.hasFloat = true) → ∀ solution,
      solverBy B engine hash allowance constraints () = (.ok solution, ()) →
        solution.status ≠ .sat ∧ (solution.status = .unsat → ∃ before t after,
          constraints = before ++ t :: after ∧ (∀ s ∈ before ++ [t], s.hasFloat = false) ∧
            ∀ i : Input, i.Binds t → t.eval i = .ok (.ofBool false))) := by
  obtain ⟨K, hK⟩ := hc.exists_kinds
  refine ⟨fun hf => ?_, fun hf solution hsol => ?_⟩
  · have ht : ∀ t ∈ constraints, t.Typed 1 := fun t hmem =>
      (hw t hmem).resolve_right (by simp [hf t hmem])
    rcases solveBy_typed (B := B) he hK ht with ⟨i, h, hi, hvars⟩ | ⟨h, hi⟩
    · refine ⟨.sat i, (solverBy_eq_ok ha).mpr h, .inl rfl, ?_, fun _ => ⟨hi, hvars⟩⟩
      exact ⟨fun _ => ⟨i, hi⟩, fun _ => rfl⟩
    · refine ⟨.unsat, (solverBy_eq_ok ha).mpr h, .inr rfl, ?_, fun h => nomatch h⟩
      exact ⟨fun h => (nomatch h), fun ⟨i, h⟩ => absurd h (hi i)⟩
  · obtain ⟨hne, hunsat⟩ := solveBy_float hK hw hf ((solverBy_eq_ok ha).mp hsol)
    refine ⟨hne, fun h => ?_⟩
    obtain ⟨before, t, after, rfl, hb, ht, hfalse⟩ := hunsat h
    refine ⟨before, t, after, rfl, ?_, fun i hi => ?_⟩
    · exact List.forall_mem_append.mpr ⟨hb, by simpa using ht.plain⟩
    · rw [Term.eval_bool ht hi, decide_eq_false (hfalse i)]

theorem solverBy_decides_product :
    let x := Term.var "x" .byte
    let y := Term.var "y" .byte
    let ts := [Term.binary .slt x y, .binary .eq (.binary .mul x y) (.const ⟨6, 8⟩)]
    let solve := solverBy Gates.builder (fun _ => Sat.oracle) (fun _ => 0) {}
    (∃ solution, solve ts () = (.ok solution, ()) ∧ solution.status = .sat ∧
      solution.bindings.Satisfies ts ∧
      Term.vars ts = .ok (solution.bindings.entries.map fun b => (b.1, b.2.kind))) ∧
    ∀ solution, solve (.var "z" .double :: ts) () = (.ok solution, ()) →
      solution.status ≠ .sat := by
  intro x y ts solve
  have hx : x.Typed 8 := .var rfl rfl
  have hy : y.Typed 8 := .var rfl rfl
  have ht : ∀ t ∈ ts, t.Typed 1 ∨ t.hasFloat = true := by
    have hp : (Term.binary .mul x y).Typed 8 := .arith rfl rfl hx hy
    have hc : (Term.const ⟨6, 8⟩).Typed 8 := .const (by decide) (by decide) (by decide)
    simpa [ts] using ⟨.inl (.compare rfl hx hy), .inl (.compare rfl hp hc)⟩
  have hi : Input.Satisfies ⟨[("x", ⟨.byte, 2, none⟩), ("y", ⟨.byte, 3, none⟩)]⟩ ts := by
    simpa [ts, Input.Satisfies] using ⟨⟨by decide, rfl⟩, by decide, rfl⟩
  have ha : ({} : Allowance).refusal? = none := rfl
  obtain ⟨solution, hs, -, hsat, hmodel⟩ := (solverBy_decides Gates.builder (fun _ => Sat.oracle)
    (fun _ => 0) Sat.oracle_decides ha ht (by decide)).1 (by decide)
  have hstatus := hsat.mpr ⟨_, hi⟩
  refine ⟨⟨solution, hs, hstatus, hmodel hstatus⟩, fun solution hs => ?_⟩
  refine ((solverBy_decides _ _ _ Sat.oracle_decides ha ?_ (by decide)).2 ?_ solution hs).1
  · exact List.forall_mem_cons.mpr ⟨.inr rfl, ht⟩
  · exact ⟨_, List.mem_cons_self, rfl⟩

end Solve

end BitVector

end Concolic
