import Mathlib
import Concolic.Proofs.PathCondition

namespace Concolic

namespace Term

variable {i j : Input} {t : Term}

/-- A term that evaluates under an input evaluates alike under one that honours it and binds all the
variables. The first may leave variables open that the term does not come to look at. -/
theorem eval_of_honours (h : i.Honours j) (hb : j.Binds t) {r : Term} (hr : t.eval i = .ok r) :
    t.eval j = .ok r := by
  induction t generalizing r with
  | hole => cases hr
  | const c => exact hr
  | fconst c => exact hr
  | var n k =>
    obtain ⟨u, hu, rfl⟩ := Option.map_eq_some_iff.mp (hb (n, k) (by simp [occurrences]))
    rw [eval] at hr ⊢
    split at hr
    · cases hr
    next v hv =>
      split at hr
      next hk =>
        simp only [hu, if_true]
        rwa [h n v u hv hu hk]
      next => cases hr
  | binary op s t ihs iht =>
    rw [eval] at hr ⊢
    obtain ⟨a, ha, hr⟩ := bind_eq_ok hr
    obtain ⟨b, hb', hr⟩ := bind_eq_ok hr
    rw [ihs hb.left ha, ok_bind, iht hb.right hb', ok_bind]
    exact hr
  | float op s t ihs iht =>
    rw [eval] at hr ⊢
    obtain ⟨a, ha, hr⟩ := bind_eq_ok hr
    rw [ihs (hb.mono (List.subset_append_left _ _)) ha, ok_bind]
    split at hr
    next hole =>
      rw [if_pos hole]
      exact hr
    next hole =>
      obtain ⟨b, hb', hr⟩ := bind_eq_ok hr
      rw [if_neg hole, iht (hb.mono (List.subset_append_right _ _)) hb', ok_bind]
      exact hr
  | cast s w signed ih =>
    rw [eval] at hr ⊢
    obtain ⟨a, ha, hr⟩ := bind_eq_ok hr
    rw [ih hb ha, ok_bind]
    exact hr
  | convert op s w ih =>
    rw [eval] at hr ⊢
    obtain ⟨a, ha, hr⟩ := bind_eq_ok hr
    rw [ih hb ha, ok_bind]
    exact hr
  | extract s o w ih =>
    rw [eval] at hr ⊢
    obtain ⟨a, ha, hr⟩ := bind_eq_ok hr
    rw [ih hb ha, ok_bind]
    exact hr
  | not s ih =>
    rw [eval] at hr ⊢
    obtain ⟨a, ha, hr⟩ := bind_eq_ok hr
    rw [ih hb ha, ok_bind]
    exact hr
  | ite c y n ihc ihy ihn =>
    rw [eval] at hr ⊢
    obtain ⟨a, ha, hr⟩ := bind_eq_ok hr
    rw [ihc hb.cond ha, ok_bind]
    split at hr
    next hc =>
      rw [if_pos hc]
      exact ihy hb.yes hr
    next hc =>
      rw [if_neg hc]
      exact ihn hb.no hr

theorem evalBool_of_honours (h : i.Honours j) (hb : j.Binds t) {b : Bool}
    (hr : t.evalBool i = .ok b) : t.evalBool j = .ok b := by
  obtain ⟨r, hev, hr⟩ := bind_eq_ok hr
  rw [evalBool, eval_of_honours h hb hev, ok_bind]
  exact hr

end Term

namespace Branch.Holds

variable {i j : Input} {b : Branch} {v : Bool}

theorem binds_mkNot (h : b.Holds j) : j.Binds b.cond.mkNot := by
  obtain ⟨s, hs, himp⟩ := Term.mkNot_yields h.typed
  cases hs
  exact fun p hp => h.binds p (himp.bound hp)

theorem negated_of_honours (h : b.Holds j) (hi : i.Honours j)
    (hv : b.negated.evalBool i = .ok v) : v = false := by
  have binds : j.Binds b.negated := by
    unfold Branch.negated
    split
    · exact h.binds_mkNot
    · exact h.binds
  have := (Term.evalBool_of_honours hi binds hv).symm.trans h.negated
  exact Except.ok.inj this

end Branch.Holds

theorem objection?_none {i : Input} {ts : List Term} (h : objection? i ts = .ok none) :
    ∀ t ∈ ts, t.evalBool i = .ok true := by
  induction ts with
  | nil => simp
  | cons t ts ih =>
    unfold objection? at h
    split at h
    next ht =>
      intro s hs
      rcases List.mem_cons.mp hs with rfl | hs
      · exact ht
      · exact ih h s hs
    all_goals cases h

namespace BranchPoint

variable {p : BranchPoint} {policy : DefaultPolicy} {answer sol : Solution} {i : Input}

theorem constraints_eq {b : Branch} (hb : p.run.path[p.index]? = some b) :
    p.constraints = .ok (pathCondition (p.run.path.take p.index) ++ [b.negated]) := by
  simp only [constraints, branch?, hb]

theorem derive_some (h : p.derive policy answer = .ok (sol, some i)) :
    sol = answer ∧ sol.status = .sat ∧ i = p.inputOf policy sol.bindings ∧
      ∃ cs, p.constraints = .ok cs ∧ ∀ t ∈ cs, t.evalBool i = .ok true := by
  unfold derive at h
  split at h
  next hs =>
    obtain ⟨cs, hcs, h⟩ := bind_eq_ok h
    obtain ⟨objection, ho, h⟩ := bind_eq_ok h
    split at h
    · cases h
    · cases h
      exact ⟨rfl, hs, rfl, cs, hcs, objection?_none ho⟩
  next => cases h

theorem inputOf_masked (policy : DefaultPolicy) {model : Input} (hp : p.run.input.Masked)
    (hm : model.Masked) : (p.inputOf policy model).Masked := by
  unfold inputOf
  split
  · exact hp.merge hm
  · exact hm

theorem derive_none (h : p.derive policy answer = .ok (sol, none)) :
    sol.status ≠ .sat ∧ (sol.status = .unsat → sol = answer) := by
  unfold derive at h
  split at h
  next =>
    obtain ⟨cs, -, h⟩ := bind_eq_ok h
    obtain ⟨objection, -, h⟩ := bind_eq_ok h
    split at h
    · cases h
      exact ⟨nofun, nofun⟩
    · cases h
  next hs =>
    cases h
    exact ⟨hs, fun _ => rfl⟩

end BranchPoint

namespace Exploration

variable {x : Exploration} {e : Explorer} {p : BranchPoint} {answer : Except SolverFailure Solution}
  {duration : Int} {sol : Solution} {i : Input}

theorem derive_answer {out : Solution × Option Input}
    (h : (x.derive e p answer duration).1 = .ok out) :
    ∃ s, p.derive e.settings.policy s = .ok out ∧ (answer = .ok s ∨ s.status = .unknown) := by
  match answer with
  | .ok s => exact ⟨s, h, .inl rfl⟩
  | .error (.error message) => exact ⟨.unknown message, h, .inr rfl⟩
  | .error (.defect d) => cases h

theorem derive_some (h : (x.derive e p answer duration).1 = .ok (sol, some i)) :
    answer = .ok sol ∧ sol.status = .sat ∧ i = p.inputOf e.settings.policy sol.bindings ∧
      ∃ cs, p.constraints = .ok cs ∧ ∀ t ∈ cs, t.evalBool i = .ok true := by
  obtain ⟨s, hs, hanswer⟩ := derive_answer h
  obtain ⟨rfl, hsat, input⟩ := BranchPoint.derive_some hs
  refine ⟨hanswer.resolve_right fun unknown => ?_, hsat, input⟩
  cases hsat.symm.trans unknown

theorem derive_none (h : (x.derive e p answer duration).1 = .ok (sol, none)) :
    sol.status ≠ .sat ∧ (sol.status = .unsat → answer = .ok sol) := by
  obtain ⟨s, hs, hanswer⟩ := derive_answer h
  obtain ⟨hsat, hunsat⟩ := BranchPoint.derive_none hs
  refine ⟨hsat, fun unsat => ?_⟩
  obtain rfl := hunsat unsat
  refine hanswer.resolve_right fun unknown => ?_
  cases unsat.symm.trans unknown

end Exploration

namespace Explorer

variable {e : Explorer} {i j : Input} {r s : Run}

/-- The run on an input that satisfies the question at a symbolic branch takes the other way there. -/
theorem Yields.progress (he : e.IsFloatFree) (hi : i.Masked) (hj : j.Masked) (hr : e.Yields i r)
    (hs : e.Yields j s) {n : Nat} {b : Branch} (hb : r.path[n]? = some b)
    (hc : ∀ t ∈ pathCondition (r.path.take n), t.evalBool j = .ok true)
    (hn : b.negated.evalBool j = .ok true) : r.path.take n ++ [b.flip] <+: s.path := by
  obtain ⟨holds, honours, -⟩ := hs.sound he hj
  -- The branch itself is not on the path of the new run.
  have missing : b ∉ s.path := by
    intro hmem
    cases (holds b hmem).negated_of_honours honours hn
  rcases hr.alike_or_forked he hi hj hs with alike | ⟨before, c, hcs, ⟨rest, hp⟩, hq⟩
  · exact absurd (alike.path ▸ List.mem_of_getElem? hb) missing
  rw [← hp] at hb hc ⊢
  rcases lt_trichotomy before.length n with hlt | rfl | hgt
  · -- The runs cannot part earlier, where the new input satisfies what the old one did.
    exfalso
    have mem : c ∈ (before ++ [c] ++ rest).take n := by
      apply List.mem_of_getElem? (i := before.length)
      simp [hlt]
    have constraint : c.constraint.evalBool j = .ok true := by
      apply hc
      apply List.mem_map_of_mem
      simpa [hcs] using mem
    rw [← Branch.flip_flip c, Branch.constraint_flip] at constraint
    have flipped : c.flip ∈ s.path := hq.subset (by simp)
    cases (holds _ flipped).negated_of_honours honours constraint
  · obtain rfl : c = b := by simpa using hb
    simpa using hq
  · -- Nor later, since the branch would be common to both.
    exfalso
    apply missing
    apply hq.subset
    rw [List.append_assoc, List.getElem?_append_left hgt] at hb
    exact List.mem_append_left _ (List.mem_of_getElem? hb)

end Explorer

end Concolic
