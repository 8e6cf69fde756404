import Mathlib
import Concolic.Proofs.Exploration.Yield

/-!
The path condition of a run is true of the run. At every step the values that a run works with are
what their terms evaluate to under the inputs declared so far, and so the recorded branches, the
constraints of the run and the questions at its branch points hold as they say.
-/

namespace Concolic

namespace Term

variable {t : Term} {i : Input}

theorem evalBool_eq (ht : t.Typed 1) (hb : i.Binds t) :
    t.evalBool i = .ok (decide (t.denote i 1 = 1#1)) := by
  rw [evalBool, eval_bool ht hb]
  cases decide (t.denote i 1 = 1#1) <;> rfl

theorem evalBool_mkNot (ht : t.Typed 1) (hb : i.Binds t) :
    t.mkNot.evalBool i = .ok (!decide (t.denote i 1 = 1#1)) := by
  obtain ⟨s, hs, himp⟩ := mkNot_yields ht
  cases hs
  have binds : i.Binds t.mkNot := fun p hp => hb p (himp.bound hp)
  rw [evalBool_eq himp.typed binds, himp.means, denote_not]
  generalize t.denote i 1 = x
  revert x
  decide

end Term

namespace Branch.Holds

variable {b : Branch} {i : Input}

theorem evalBool (h : b.Holds i) : b.cond.evalBool i = .ok b.taken := by
  rw [Term.evalBool_eq h.typed h.binds, h.taken]

theorem mkNot (h : b.Holds i) : b.cond.mkNot.evalBool i = .ok !b.taken := by
  rw [Term.evalBool_mkNot h.typed h.binds, h.taken]

theorem constraint (h : b.Holds i) : b.constraint.evalBool i = .ok true := by
  unfold Branch.constraint
  split
  next ht => rw [h.evalBool, ht]
  next ht =>
    rw [h.mkNot]
    simp [ht]

theorem negated (h : b.Holds i) : b.negated.evalBool i = .ok false := by
  unfold Branch.negated
  split
  next ht =>
    rw [h.mkNot]
    simp [ht]
  next ht =>
    rw [h.evalBool]
    simp [ht]

end Branch.Holds

theorem pathCondition_holds {path : List Branch} {i : Input} (h : ∀ b ∈ path, b.Holds i) :
    ∀ t ∈ pathCondition path, t.evalBool i = .ok true := by
  intro t ht
  obtain ⟨b, hb, rfl⟩ := List.mem_map.mp ht
  exact (h b (List.mem_of_mem_filter hb)).constraint

structure Value.Realised (i : Input) (v : Value) : Prop where
  wellFormed : v.WellFormed
  bound : v.Bound i
  evaluates : v.At i v.concrete

theorem Value.Twin.realised {i j : Input} {v u : Value} (h : Value.Twin i j v u) :
    v.Realised i := by
  obtain ⟨s, hs, -, rfl, -⟩ := h
  exact ⟨⟨s.width, s.value_fits i⟩, hs.value, hs.at⟩

namespace RunState

structure Sound (s : RunState) : Prop where
  stack : ∀ f ∈ s.frame :: s.callers, ∀ v ∈ f.stack, v.Realised s.declared
  slots : ∀ f ∈ s.frame :: s.callers, ∀ n v, f.slots.get? n = some v → v.Realised s.declared
  path : ∀ b ∈ s.path, b.cond.evalBool s.declared = .ok b.taken

theorem Twin.sound {i j : Input} {s : RunState} (h : s.Twin i j s) : s.Sound := by
  obtain rfl := h.fst
  have frames : ∀ f ∈ s.frame :: s.callers, f.Twin s.declared j f := by
    intro f hf
    rcases List.mem_cons.mp hf with rfl | hf
    · exact h.frame
    · exact List.forall₂_same.mp h.callers f hf
  refine ⟨?_, ?_, ?_⟩
  · intro f hf v hv
    exact (List.forall₂_same.mp (frames f hf).stack v hv).realised
  · intro f hf n v hv
    have found := (frames f hf).slots.lookup n
    rw [show f.slots.entries.lookup n = some v from hv] at found
    cases found with
    | some twin => exact twin.realised
  · intro b hb
    exact (h.left.holds b hb).evalBool

end RunState

open Machine in
/-- However a run ends, its states are sound at every step, its branches evaluate to what they
recorded, its constraints are true, and the question at a symbolic branch is false in its last
constraint only. -/
theorem path_condition_true_of_run {setup : Setup} (hf : setup.FloatFree) {e : Explorer}
    (he : e.subject = setup.subject) {input : Input} (hi : input.Masked) :
    (∀ cancelled id n c, Reaches setup cancelled (e.initial id input) n c → c.state.Sound) ∧
    (∀ cancelled id, (run setup cancelled (e.initial id input)).1.state.Sound) ∧
    ∀ (x : Exploration) (origin : Option BranchPoint),
      (x.cancelled = false → ∃ r, (x.execute e input origin).1 = some r) ∧
      ∀ r, (x.execute e input origin).1 = some r →
      (∀ b ∈ r.path, b.cond.evalBool r.input = .ok b.taken) ∧
      (∀ t ∈ r.constraints, t.evalBool r.input = .ok true) ∧
      ∀ n b key, r.path[n]? = some b → b.isConcrete = false →
        ∃ before last, BranchPoint.constraints ⟨r, n, key⟩ = .ok (before ++ [last]) ∧
          (∀ t ∈ before, t.evalBool r.input = .ok true) ∧ last.evalBool r.input = .ok false := by
  refine ⟨?_, ?_, ?_⟩
  · intro cancelled id n c hc
    obtain ⟨_, _, h⟩ := hc.self hf.exact (e.initial_twin id id hi hi)
    exact h.state.sound
  · intro cancelled id
    obtain ⟨_, _, h⟩ := run_self hf.exact (e.initial_twin id id hi hi) cancelled
    exact h.state.sound
  · intro x origin
    refine ⟨fun hx => ?_, fun r hr => ?_⟩
    · obtain ⟨r, hr, -⟩ := Explorer.exists_yields ⟨setup, hf, he⟩ input origin hx
      exact ⟨r, hr⟩
    obtain ⟨holds, -, -⟩ := (Explorer.Yields.of_execute hr).sound ⟨setup, hf, he⟩ hi
    refine ⟨fun b hb => (holds b hb).evalBool, pathCondition_holds holds, ?_⟩
    intro n b key hb _
    refine ⟨pathCondition (r.path.take n), b.negated, ?_, ?_, ?_⟩
    · simp [BranchPoint.constraints, BranchPoint.branch?, hb]
    · exact pathCondition_holds fun b hb => holds b (List.mem_of_mem_take hb)
    · exact (holds b (List.mem_of_getElem? hb)).negated

namespace Machine

def ratioExplorer : Explorer := { subject := ratio.subject }

def ratioInput : Input := ⟨[("x", ⟨.int, 9, none⟩), ("y", ⟨.int, 2, none⟩)]⟩

end Machine

open Machine in
theorem path_condition_true_of_ratio :
    ratio.FloatFree ∧ ratioInput.Masked ∧
    (∀ n c, Reaches ratio false (ratioExplorer.initial "r" ratioInput) n c → c.state.Sound) ∧
    ∃ r, (Exploration.execute ratioExplorer ratioInput none
        { frontier := { maxRetries := 0 } }).1 = some r ∧
      (∀ b ∈ r.path, b.cond.evalBool r.input = .ok b.taken) ∧
      ∀ t ∈ r.constraints, t.evalBool r.input = .ok true := by
  have masked : ratioInput.Masked := by decide
  obtain ⟨states, -, runs⟩ :=
    path_condition_true_of_run ratio_floatFree (e := ratioExplorer) rfl masked
  obtain ⟨exists_run, holds⟩ := runs { frontier := { maxRetries := 0 } } none
  obtain ⟨r, hr⟩ := exists_run rfl
  obtain ⟨branches, constraints, -⟩ := holds r hr
  exact ⟨ratio_floatFree, masked, states false "r", r, hr, branches, constraints⟩

end Concolic
