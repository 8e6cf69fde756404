import Mathlib
import Concolic.Proofs.Lockstep.Machine

/-!
Whole runs abreast: two runs take the same branches to the same end, or they part at a symbolic
branch. A run abreast of itself cannot part, so that its own states are in order all along.
-/

namespace Concolic

namespace Machine

def interrupted : Ending := some (.error { cause := .cancelled })

/-- The ends of two runs. Only one that was called off may stop while the other goes on. -/
inductive Together : Configuration × Ending → Configuration × Ending → Prop
  | same {c d : Configuration} {e : Ending} : c.Twin d → Together (c, e) (d, e)
  | forked {x y : Configuration × Ending} : x.1.Forked y.1 → Together x y
  | left {c : Configuration} {y : Configuration × Ending} :
    c.cancelled = true → y.1.cancelled = false → Together (c, interrupted) y
  | right {x : Configuration × Ending} {d : Configuration} :
    x.1.cancelled = false → d.cancelled = true → Together x (d, interrupted)

def complete (setup : Setup) (fuel number : Nat) :
    Configuration ⊕ (Configuration × Ending) → Configuration × Ending
  | .inl c => runFrom setup fuel number c
  | .inr ended => ended

def reached : Configuration ⊕ (Configuration × Ending) → Configuration
  | .inl c => c
  | .inr ended => ended.1

inductive StepTogether : Configuration ⊕ (Configuration × Ending) →
    Configuration ⊕ (Configuration × Ending) → Prop
  | on {c d : Configuration} : c.Twin d → StepTogether (.inl c) (.inl d)
  | ended {c d : Configuration} {e : Ending} : c.Twin d → StepTogether (.inr (c, e)) (.inr (d, e))
  | forked {x y : Configuration ⊕ (Configuration × Ending)} :
    (reached x).Forked (reached y) → StepTogether x y
  | left {c : Configuration} {y : Configuration ⊕ (Configuration × Ending)} :
    c.cancelled = true → (reached y).cancelled = false → StepTogether (.inr (c, interrupted)) y
  | right {x : Configuration ⊕ (Configuration × Ending)} {d : Configuration} :
    (reached x).cancelled = false → d.cancelled = true → StepTogether x (.inr (d, interrupted))

variable {setup : Setup} {c d : Configuration}

def perform (setup : Setup) (a : Activation) (rest : List Activation) (c : Configuration) :
    Configuration ⊕ (Configuration × Ending) :=
  match a.function.code[a.pc]? with
  | none => .inr ({ c with calls := a :: rest },
      some (.error { cause := .misuse (.missingReturn a.function.name) }))
  | some i =>
    match exec setup a.function a.pc i { c with calls := { a with pc := a.pc + 1 } :: rest } with
    | (.ok (), c) => .inl c
    | (.error e, c) => .inr (c, some (locate a.function i.line e))

theorem step_eq_perform {a : Activation} {rest : List Activation} {number : Nat}
    (hc : c.calls = a :: rest) (hm : ¬setup.maxSteps < number)
    (hx : (number % 1024 = 0 && c.cancelled) = false) :
    step setup number c = perform setup a rest c := by
  obtain ⟨calls, s, x, y⟩ := c
  obtain rfl : calls = a :: rest := hc
  simp only at hx
  simp only [step, hm, hx, if_false, Bool.false_eq_true]
  rfl

theorem step_eq_interrupted {a : Activation} {rest : List Activation} {number : Nat}
    (hc : c.calls = a :: rest) (hm : ¬setup.maxSteps < number)
    (hx : (number % 1024 = 0 && c.cancelled) = true) : step setup number c = .inr (c, interrupted) := by
  obtain ⟨calls, s, x, y⟩ := c
  obtain rfl : calls = a :: rest := hc
  simp only at hx
  simp only [step, hm, hx, if_false, if_true]
  rfl

theorem perform_together (hs : setup.Exact) (h : c.Twin d) {a : Activation} {rest : List Activation}
    (hc : c.calls = a :: rest) : StepTogether (perform setup a rest c) (perform setup a rest d) := by
  obtain ⟨i, j, h⟩ := h
  have exact := h.exact
  rw [hc] at exact
  unfold perform
  cases hi : a.function.code[a.pc]? with
  | none => exact .ended ⟨i, j, rfl, exact, h.state⟩
  | some instr =>
    have moved : Configuration.Twin { c with calls := { a with pc := a.pc + 1 } :: rest }
        { d with calls := { a with pc := a.pc + 1 } :: rest } :=
      ⟨i, j, rfl, by simpa using exact, h.state⟩
    have hx := exact a (by simp) instr (Array.mem_of_getElem? hi)
    have hex := exec_abreast hs a.function a.pc hx moved
    dsimp only
    generalize exec setup a.function a.pc instr { c with calls := _ } = x at hex ⊢
    generalize exec setup a.function a.pc instr { d with calls := _ } = y at hex ⊢
    cases hex with
    | ok ht => exact .on ht
    | error ht => exact .ended ht
    | @forked x y c d hf => cases x <;> cases y <;> exact .forked hf

theorem perform_later (hl : setup.library.AllTame) (a : Activation) (rest : List Activation)
    (c : Configuration) : c.Later (reached (perform setup a rest c)) := by
  unfold perform
  cases hi : a.function.code[a.pc]? with
  | none => exact .refl c
  | some instr =>
    have hex := exec_later hl a.function a.pc instr { c with calls := { a with pc := a.pc + 1 } :: rest }
    dsimp only
    generalize exec setup a.function a.pc instr { c with calls := _ } = x at hex ⊢
    obtain ⟨_ | _, _⟩ := x <;> exact hex

theorem step_later (hl : setup.library.AllTame) (number : Nat) (c : Configuration) :
    c.Later (reached (step setup number c)) := by
  by_cases hm : setup.maxSteps < number
  · obtain ⟨_ | ⟨a, rest⟩, s, x, y⟩ := c
    · exact .refl _
    · rw [step, if_pos hm]
      exact .refl _
  · cases hc : c.calls with
    | nil =>
      obtain ⟨calls, s, x, y⟩ := c
      cases hc
      exact .refl _
    | cons a rest =>
      cases hx : (number % 1024 = 0 && c.cancelled) with
      | true =>
        rw [step_eq_interrupted hc hm hx]
        exact .refl c
      | false =>
        rw [step_eq_perform hc hm hx]
        exact perform_later hl a rest c

theorem step_together (hs : setup.Exact) (number : Nat) (h : c.Twin d) :
    StepTogether (step setup number c) (step setup number d) := by
  have hcalls : c.calls = d.calls := h.choose_spec.choose_spec.calls
  cases hc : c.calls with
  | nil =>
    obtain ⟨calls, s, x, y⟩ := c
    obtain ⟨calls', t, x', y'⟩ := d
    cases hc
    cases hcalls
    exact .ended h
  | cons a rest =>
    have hd : d.calls = a :: rest := hcalls ▸ hc
    by_cases hm : setup.maxSteps < number
    · obtain ⟨calls, s, x, y⟩ := c
      obtain ⟨calls', t, x', y'⟩ := d
      cases hc
      cases hcalls
      rw [step, step, if_pos hm, if_pos hm]
      exact .ended h
    · cases hx : (number % 1024 = 0 && c.cancelled) <;> cases hy : (number % 1024 = 0 && d.cancelled)
      · rw [step_eq_perform hc hm hx, step_eq_perform hd hm hy]
        exact perform_together hs h hc
      · have flags : c.cancelled = false ∧ d.cancelled = true := by simp_all
        rw [step_eq_perform hc hm hx, step_eq_interrupted hd hm hy]
        exact .right ((perform_later hs.library a rest c).2.trans flags.1) flags.2
      · have flags : c.cancelled = true ∧ d.cancelled = false := by simp_all
        rw [step_eq_interrupted hc hm hx, step_eq_perform hd hm hy]
        exact .left flags.1 ((perform_later hs.library a rest d).2.trans flags.2)
      · rw [step_eq_interrupted hc hm hx, step_eq_interrupted hd hm hy]
        exact .ended h

theorem runFrom_succ (fuel number : Nat) (c : Configuration) :
    runFrom setup (fuel + 1) number c = complete setup fuel (number + 1) (step setup number c) := by
  rw [runFrom]
  cases step setup number c <;> rfl

theorem runFrom_later (hl : setup.library.AllTame) (fuel number : Nat) (c : Configuration) :
    c.Later (runFrom setup fuel number c).1 := by
  induction fuel generalizing number c with
  | zero => exact .refl c
  | succ fuel ih =>
    have h := step_later hl number c
    rw [runFrom_succ]
    cases hx : step setup number c with
    | inl d =>
      rw [hx] at h
      exact .trans _ _ _ h (ih (number + 1) d)
    | inr ended =>
      rw [hx] at h
      exact h

theorem complete_later (hl : setup.library.AllTame) (fuel number : Nat)
    (x : Configuration ⊕ (Configuration × Ending)) :
    (reached x).Later (complete setup fuel number x).1 := by
  cases x with
  | inl c => exact runFrom_later hl fuel number c
  | inr ended => exact .refl _

theorem runFrom_together (hs : setup.Exact) (fuel number : Nat) (h : c.Twin d) :
    Together (runFrom setup fuel number c) (runFrom setup fuel number d) := by
  induction fuel generalizing number c d with
  | zero => exact .same h
  | succ fuel ih =>
    have later := complete_later hs.library fuel (number + 1)
    have hst := step_together hs number h
    rw [runFrom_succ, runFrom_succ]
    generalize step setup number c = x at hst ⊢
    generalize step setup number d = y at hst ⊢
    cases hst with
    | on h => exact ih (number + 1) h
    | ended h => exact .same h
    | forked hf => exact .forked (hf.later (later x) (later y))
    | left hc hd => exact .left hc ((later _).2.trans hd)
    | right hc hd => exact .right ((later _).2.trans hc) hd

theorem start_twin (hs : setup.Exact) {i j : Input} {s t : RunState} (h : s.Twin i j t)
    {f : Function} (hf : setup.program.function? setup.program.entry = some f) (x y : Bool) :
    Configuration.Twin { calls := [{ function := f }], state := s, cancelled := x }
      { calls := [{ function := f }], state := t, cancelled := y } := by
  refine ⟨i, j, rfl, ?_, h⟩
  simpa using hs.functions f (List.mem_of_find?_eq_some hf)

theorem run_together (hs : setup.Exact) {i j : Input} {s t : RunState} (h : s.Twin i j t)
    (x y : Bool) : Together (run setup x s) (run setup y t) := by
  unfold run
  cases hf : setup.program.function? setup.program.entry with
  | none => exact .same ⟨i, j, rfl, by simp, h⟩
  | some f => exact runFrom_together hs _ _ (start_twin hs h hf x y)

theorem run_kept (hl : setup.library.AllTame) (x : Bool) (s : RunState) :
    (run setup x s).1.cancelled = x ∧ (run setup x s).1.state.given = s.given ∧
      (run setup x s).1.state.frozen = s.frozen := by
  unfold run
  split
  · exact ⟨rfl, rfl, rfl⟩
  next f _ =>
    have later := runFrom_later hl (setup.maxSteps + 1) 1
      { calls := [{ function := f }], state := s, cancelled := x }
    exact ⟨later.2, later.1.2⟩

theorem not_forked_self (c : Configuration) : ¬c.Forked c := by
  rintro ⟨before, b, -, hp, hq⟩
  exact Branch.not_prefix_flip hp hq

theorem run_self (hs : setup.Exact) {i : Input} {s : RunState} (h : s.Twin i i s) (x : Bool) :
    (run setup x s).1.Twin (run setup x s).1 := by
  have ht := run_together hs h x x
  generalize run setup x s = r at ht ⊢
  cases ht with
  | same h => exact h
  | forked hf => exact absurd hf (not_forked_self _)
  | left hc hd => cases hc.symm.trans hd
  | right hc hd => cases hc.symm.trans hd

inductive Reaches (setup : Setup) (x : Bool) (s : RunState) : Nat → Configuration → Prop
  | start {f : Function} : setup.program.function? setup.program.entry = some f →
    Reaches setup x s 1 { calls := [{ function := f }], state := s, cancelled := x }
  | step {n : Nat} {c d : Configuration} :
    Reaches setup x s n c → Machine.step setup n c = .inl d → Reaches setup x s (n + 1) d

theorem Reaches.self (hs : setup.Exact) {i : Input} {s : RunState} (h : s.Twin i i s) {x : Bool}
    {n : Nat} (hc : Reaches setup x s n c) : c.Twin c := by
  induction hc with
  | start hf => exact start_twin hs h hf x x
  | @step n c d _ hd ih =>
    have ht := step_together hs n ih
    rw [hd] at ht
    cases ht with
    | on h => exact h
    | forked hf => exact absurd hf (not_forked_self d)

end Machine

end Concolic
