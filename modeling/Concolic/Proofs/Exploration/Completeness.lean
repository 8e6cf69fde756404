import Mathlib
import Concolic.Proofs.Exploration.Guarantees

/-!
An exploration that is exhausted has missed nothing. Every target of every run so far was taken, is
still to be explored or is infeasible, unless some point was given up; and an input whose run is like
none so far forks off some run at a target that was not taken.
-/

namespace Concolic

def Explorer.Infeasible (e : Explorer) (ds : List Direction) : Prop :=
  ∀ (j : Input) (s : Run), j.Masked → e.Yields j s → ¬ds <+: s.directions

def CorrectUnsat (answers : BranchPoint → Except SolverFailure Solution → Prop) : Prop :=
  ∀ p s cs, answers p (.ok s) → s.status = .unsat → p.constraints = .ok cs →
    ∀ j : Input, j.Masked → ¬∀ t ∈ cs, t.evalBool j = .ok true

theorem Explorer.Yields.infeasible {e : Explorer} {i : Input} {p : BranchPoint}
    (he : e.IsFloatFree) (hi : i.Masked) (hr : e.Yields i p.run) (hp : p ∈ p.run.points)
    (unsat : ∀ cs, p.constraints = .ok cs →
      ∀ j : Input, j.Masked → ¬∀ t ∈ cs, t.evalBool j = .ok true) :
    e.Infeasible p.target := by
  intro j s hj hs htaken
  obtain ⟨b, hb, hpath⟩ := hr.branches_of_target he hi hj hs hp htaken
  obtain ⟨holds, -, masked⟩ := hs.sound he hj
  refine unsat _ (BranchPoint.constraints_eq hb) s.input masked ?_
  intro t ht
  rcases List.mem_append.mp ht with ht | ht
  · refine pathCondition_holds (fun c hc => holds c (hpath.subset ?_)) t ht
    exact List.mem_append_left _ hc
  · rw [List.mem_singleton.mp ht, ← Branch.constraint_flip]
    exact (holds b.flip (hpath.subset (by simp))).constraint

def Settled (e : Explorer) (f : Frontier) (flying : List BranchPoint) (history : List Run)
    (ds : List Direction) : Prop :=
  (∃ r ∈ history, ds <+: r.directions) ∨ (∃ q ∈ f.waiting ++ flying, q.target = ds) ∨
    e.Infeasible ds

def AllSettled (e : Explorer) (f : Frontier) (flying : List BranchPoint) (history : List Run) :
    Prop :=
  ∀ r ∈ history, ∀ p ∈ r.points, Settled e f flying history p.target

namespace AllSettled

variable {e : Explorer} {f g : Frontier} {flying flying' : List BranchPoint} {history : List Run}
  {r : Run}

theorem mono (h : AllSettled e f flying history)
    (live : ∀ q ∈ f.waiting ++ flying, Settled e g flying' history q.target) :
    AllSettled e g flying' history := by
  intro s hs p hp
  rcases h s hs p hp with taken | ⟨q, hq, heq⟩ | infeasible
  · exact .inl taken
  · exact heq ▸ live q hq
  · exact .inr (.inr infeasible)

theorem record (h : AllSettled e f flying history) (free : NoCollision (history ++ [r]))
    (live : ∀ q ∈ f.waiting ++ flying, q ∈ g.waiting ++ flying' ∨ q.target <+: r.directions)
    (sources : ∀ k ∈ g.seen, ∃ s ∈ history, ∃ p ∈ s.points, p.key = k)
    (covered : ∀ k ∈ g.covered, ∃ s ∈ history, k ∈ s.takenKeys) :
    AllSettled e (g.expand r).2 flying' (history ++ [r]) := by
  obtain ⟨new, adds⟩ := g.expand_adds r
  generalize (g.expand r).2 = g' at adds
  have keep {q : BranchPoint} (hq : q ∈ g.waiting ++ flying' ∨ q ∈ new) :
      q ∈ g'.waiting ++ flying' := by
    rw [adds.frame]
    simp only [Frontier.waiting, Frontier.cover, List.mem_append] at hq ⊢
    tauto
  have grow {ds : List Direction} (hds : Settled e f flying history ds) :
      Settled e g' flying' (history ++ [r]) ds := by
    rcases hds with ⟨s, hs, hds⟩ | ⟨q, hq, rfl⟩ | infeasible
    · exact .inl ⟨s, List.mem_append_left _ hs, hds⟩
    · rcases live q hq with hq | taken
      · exact .inr (.inl ⟨q, keep (.inl hq), rfl⟩)
      · exact .inl ⟨r, by simp, taken⟩
    · exact .inr (.inr infeasible)
  intro s hs p hp
  rcases List.mem_append.mp hs with old | new_run
  · exact grow (h s old p hp)
  cases List.mem_singleton.mp new_run
  rcases adds.known p hp with hk | hk
  · left
    rcases Frontier.mem_cover.mp hk with hk | hk
    · obtain ⟨t, ht, hk⟩ := covered _ hk
      exact ⟨t, List.mem_append_left _ ht, free.taken hs hp (List.mem_append_left _ ht) hk⟩
    · exact ⟨r, hs, free.taken hs hp hs hk⟩
  · rcases (adds.seen _).mp hk with hk | hk
    · obtain ⟨t, ht, q, hq, hk⟩ := sources _ hk
      rw [← free.target_eq (List.mem_append_left _ ht) hq hs hp hk]
      exact grow (h t ht q hq)
    · obtain ⟨q, hq, hk⟩ := List.mem_map.mp hk
      refine .inr (.inl ⟨q, keep (.inr hq), ?_⟩)
      exact free.target_eq hs (adds.offered q hq) hs hp hk

end AllSettled

namespace Exploration

/-- Nothing was missed so far, unless the exploration was called off, a point was given up or keys
collide. -/
def Complete (e : Explorer) (x : Exploration) : Prop :=
  x.cancelled = false → x.frontier.counters.abandoned = 0 → NoCollision x.history.toList →
    AllSettled e x.frontier x.inFlight x.history.toList

variable {e : Explorer} {x y : Exploration} {p : BranchPoint}

theorem mem_erase_or_eq (p : BranchPoint) {waiting flying : List BranchPoint} {q : BranchPoint}
    (hq : q ∈ waiting ++ flying) : q ∈ waiting ++ flying.erase p ∨ q = p := by
  by_cases heq : q = p
  · exact .inr heq
  · simp only [List.mem_append, List.mem_erase_of_ne heq] at hq ⊢
    exact .inl hq

theorem Complete.keeps (h : x.Complete e) (hx : Keeps x y) : y.Complete e := by
  intro hc
  rw [hx.frontier, hx.inFlight, hx.history]
  exact h (hx.uncancelled hc)

theorem Complete.dispatch (hs : x.Sound e) (h : x.Complete e) : (x.dispatch e).2.Complete e := by
  rcases x.dispatch_cases e with hd | ⟨found, g, -, hn, hd⟩
  · rwa [hd]
  rw [hd]
  intro hc ha free
  obtain ⟨dropped, draws⟩ := Frontier.next_draws hn
  obtain ⟨turn, frame⟩ := draws.frame
  have abandoned : g.counters.abandoned = x.frontier.counters.abandoned :=
    congrArg (·.counters.abandoned) frame
  refine (h hc (abandoned.symm.trans ha) free).mono fun q hq => .inr (.inl ⟨q, ?_, rfl⟩)
  have perm := draws.perm
  rw [hs.draws_nil free draws, List.nil_append] at perm
  rw [List.mem_append, ← perm.mem_iff] at hq
  simp only [List.mem_append] at hq ⊢
  tauto

theorem Complete.record (h : x.Complete e) {r : Run} {origin : Option BranchPoint}
    (cancelled : y.cancelled = x.cancelled) (history : y.history = x.history)
    (abandoned : y.frontier.counters.abandoned = x.frontier.counters.abandoned)
    (live : ∀ q ∈ x.frontier.waiting ++ x.inFlight,
      q ∈ y.frontier.waiting ++ y.inFlight ∨ q.target <+: r.directions)
    (sources : ∀ k ∈ y.frontier.seen, ∃ s ∈ x.history.toList, ∃ p ∈ s.points, p.key = k)
    (covered : ∀ k ∈ y.frontier.covered, ∃ s ∈ x.history.toList, k ∈ s.takenKeys) :
    (y.record r origin).Complete e := by
  have records := y.record_records r origin
  intro hc ha free
  rw [records.cancelled, cancelled] at hc
  rw [records.frontier, Frontier.counters_expand, abandoned] at ha
  rw [records.history, history, Array.toList_push] at free
  rw [records.frontier, records.inFlight, records.history, history, Array.toList_push]
  exact (h hc ha free.of_append).record free live sources covered

theorem Complete.resolve {answers : BranchPoint → Except SolverFailure Solution → Prop}
    (he : e.IsFloatFree) (correct : CorrectUnsat answers) (hs : x.Sound e) (h : x.Complete e)
    (hp : p ∈ x.inFlight) {status : Satisfiability}
    (hd : (Stage.done status none).Sound e answers x.cancelled p) :
    Complete e { x with
      inFlight := x.inFlight.erase p, frontier := x.frontier.resolve p status } := by
  intro hc ha free
  have resolves := x.frontier.resolve_resolves p status
  dsimp only at hc ha free ⊢
  generalize x.frontier.resolve p status = g at ha resolves
  cases resolves with
  | answered answer _ abandoned =>
    refine (h hc (abandoned.symm.trans ha) free).mono fun q hq => ?_
    rcases mem_erase_or_eq p hq with hq | rfl
    · exact .inr (.inl ⟨q, hq, rfl⟩)
    · rcases answer with rfl | rfl
      · cases hc.symm.trans (hd.1 rfl)
      · obtain ⟨s, hanswer, hunsat⟩ := hd.2 rfl
        obtain ⟨hrun, hpoint⟩ := hs.coherent.points q hq
        obtain ⟨i, hi, hr⟩ := hs.coherent.yields q.run hrun
        refine .inr (.inr (hr.infeasible he hi hpoint fun cs hcs => ?_))
        exact correct q s cs hanswer hunsat hcs
  | abandoned _ abandoned => cases abandoned.symm.trans ha
  | deferred _ abandoned =>
    refine (h hc (abandoned.symm.trans ha) free).mono fun q hq => .inr (.inl ⟨q, ?_, rfl⟩)
    have := mem_erase_or_eq p hq
    simp only [Frontier.waiting, List.mem_append, List.mem_singleton] at this ⊢
    tauto

theorem Complete.receive {answers : BranchPoint → Except SolverFailure Solution → Prop}
    (he : e.IsFloatFree) (correct : CorrectUnsat answers) (hs : x.Sound e) (h : x.Complete e)
    (hp : p ∈ x.inFlight) {status : Satisfiability} {run : Option Run}
    (hd : (Stage.done status run).Sound e answers x.cancelled p) :
    (x.receive p status run).Complete e := by
  cases run with
  | none =>
    simp only [Exploration.receive, hs.eraseP_inFlight hp]
    exact h.resolve he correct hs hp hd
  | some r =>
    obtain ⟨rfl, i, hi, hr, target⟩ := hd
    simp only [Exploration.receive, hs.eraseP_inFlight hp]
    refine h.record rfl rfl rfl (fun q hq => ?_) hs.coherent.sources fun k hk => ?_
    · rcases mem_erase_or_eq p hq with hq | rfl
      · exact .inl hq
      · exact .inr target
    · exact (hs.coherent.covered k).mp hk

theorem Fresh.begin_complete {input : Input} (hx : x.Fresh e) : (x.begin e input).Complete e := by
  obtain ⟨y, hy, ⟨hc, heq⟩ | ⟨z, r, hr, heq⟩⟩ := hx.begin_cases input
  all_goals rw [heq]
  · intro hc'
    cases hc.symm.trans hc'
  · have complete : y.Complete e := by
      intro _ _ _ s hs
      simp [hy.history] at hs
    refine complete.record rfl rfl rfl (fun q hq => .inl hq) ?_ ?_
    · simp [hy.frontier]
    · simp [hy.frontier]

end Exploration

namespace Moment

variable {e : Explorer} {answers : BranchPoint → Except SolverFailure Solution → Prop}
  {m m' : Moment} {input : Input}

theorem Step.complete (he : e.IsFloatFree) (correct : CorrectUnsat answers)
    (sound : m.Sound e answers) (h : m.now.Complete e) (next : Step e answers m m') :
    m'.now.Complete e := by
  cases next with
  | dispatch => exact h.dispatch sound.now
  | @hear p answer duration => exact h.keeps (m.now.hear_keeps e p answer duration)
  | @execute p _ input => exact h.keeps (m.now.execute_keeps e input (some p))
  | @receive p status run flying done =>
    have hd := sound.stages p
    rw [done] at hd
    exact h.receive he correct sound.now flying hd
  | cancel => exact h.keeps (.cancel m.now)
  | elapse remaining => exact h.keeps (.elapse m.now remaining)
  | publish topic r => exact h.keeps (m.now.publish_noted topic r).keeps

theorem Reached.complete (he : e.IsFloatFree) (masked : MaskedAnswers answers)
    (correct : CorrectUnsat answers) (hi : input.Masked) (h : Reached e answers input m) :
    m.now.Complete e := by
  induction h with
  | begin fresh => exact fresh.begin_complete
  | step h next ih => exact next.complete he correct (h.sound he masked hi) ih

end Moment

namespace AllSettled

variable {e : Explorer} {f : Frontier} {history : List Run} {j : Input} {s : Run}

/-- If nothing is left to explore, every run is like one of those so far. Some run has the first `n`
directions in common with it; where they fork, another one goes on. -/
theorem exists_alike (he : e.IsFloatFree) (h : AllSettled e f [] history) (done : f.waiting = [])
    (yields : ∀ r ∈ history, ∃ i : Input, i.Masked ∧ e.Yields i r) (begun : history ≠ [])
    (hj : j.Masked) (hs : e.Yields j s) : ∃ r ∈ history, r.Alike s := by
  by_contra none
  have common (n : Nat) :
      n ≤ s.directions.length ∧ ∃ r ∈ history, s.directions.take n <+: r.directions := by
    induction n with
    | zero =>
      obtain ⟨r, hr⟩ := List.exists_mem_of_ne_nil _ begun
      exact ⟨Nat.zero_le _, r, hr, by simp⟩
    | succ n ih =>
      obtain ⟨-, r, hr, hn⟩ := ih
      obtain ⟨i, hi, hy⟩ := yields r hr
      have forked := (hy.alike_or_forked he hi hj hs).resolve_left fun ha => none ⟨r, hr, ha⟩
      obtain ⟨p, hp, target⟩ := forked.point
      obtain ⟨d, hd⟩ := Run.getElem?_of_mem_points hp
      have index : n ≤ p.index := by
        by_contra hlt
        have turned := Direction.getElem?_of_prefix_of_some target (Direction.getElem?_turn_self hd)
        have first : (s.directions.take n)[p.index]? = some d.flip := by
          rw [List.getElem?_take_of_lt (by omega), turned]
        have same := Direction.getElem?_of_prefix_of_some hn first
        rw [← (Run.mem_points.mp hp).1, hd] at same
        exact Direction.flip_ne d (Option.some.inj same).symm
      have length : n + 1 ≤ p.target.length := by
        rw [BranchPoint.target, Direction.length_turn hd]
        omega
      refine ⟨length.trans target.length_le, ?_⟩
      rcases h r hr p hp with ⟨r', hr', taken⟩ | ⟨q, hq, -⟩ | infeasible
      · refine ⟨r', hr', .trans ?_ taken⟩
        refine List.prefix_of_prefix_length_le (List.take_prefix _ _) target ?_
        exact (List.length_take_le _ _).trans length
      · simp [done] at hq
      · exact absurd target (infeasible j s hj hs)
  have := (common (s.directions.length + 1)).1
  omega

end AllSettled

theorem Exploration.reason_exhausted {x : Exploration} (h : x.reason = .exhausted) :
    x.cancelled = false ∧ x.frontier.waiting = [] := by
  unfold Exploration.reason at h
  split at h
  · cases h
  next hc =>
    refine ⟨Bool.not_eq_true _ ▸ hc, List.eq_nil_of_length_eq_zero ?_⟩
    split at h
    · cases h
    split at h
    · cases h
    split at h
    next hs => rw [Frontier.waiting, List.length_append, ← hs, Frontier.size]
    next => cases h

/-- If an exploration ends exhausted, then every input has a run like one in the history of its
report; in particular no input makes the program fault if no run did. -/
theorem Explorer.exhausted_exploration_misses_nothing {e : Explorer} (he : e.IsFloatFree)
    {answers : BranchPoint → Except SolverFailure Solution → Prop} (masked : MaskedAnswers answers)
    (correct : CorrectUnsat answers) {input : Input} (hi : input.Masked) {report : Report}
    (h : e.Reports answers input report) (exhausted : report.reason = .exhausted)
    (abandoned : report.frontier.abandoned = 0) (free : NoCollision report.history) :
    ∀ j : Input, j.Masked → ∀ (x : Exploration) (origin : Option BranchPoint),
      x.cancelled = false → ∃ s, (x.execute e j origin).1 = some s ∧
        (∃ r ∈ report.history, r.Alike s) ∧ (report.faulted = 0 → s.status ≠ .faulted) := by
  obtain ⟨m, elapsed, reached, idle, rfl⟩ := h
  intro j hj x origin hx
  have sound := (reached.sound he masked hi).now
  obtain ⟨cancelled, done⟩ := Exploration.reason_exhausted exhausted
  have settled := reached.complete he masked correct hi cancelled abandoned free
  rw [idle] at settled
  obtain ⟨s, hs, yields⟩ := Explorer.exists_yields he j origin hx
  obtain ⟨r, hr, alike⟩ := settled.exists_alike he done sound.coherent.yields
    (sound.begun cancelled) hj yields
  refine ⟨s, hs, ⟨r, hr, alike⟩, fun none fault => ?_⟩
  have count : m.now.history.toList.countP (·.status = .faulted) = 0 := sound.faulted.symm.trans none
  have := List.countP_eq_zero.mp count r hr
  simp [alike.status, fault] at this

namespace Machine

def againText : String :=
  "func main\n input a bool\n jumpif on\n input a bool\n jumpif never\n return\n" ++
  "on:\n return\nnever:\n fault never\nend\n"

def again : Setup where
  program := {
    functions := [
      { name := "main", labels := [("on", 5), ("never", 6)], code := #[
          { opcode := .input, line := 2, name := "a", kind := .bool },
          { opcode := .jumpif, line := 3, name := "on", target := 5 },
          { opcode := .input, line := 4, name := "a", kind := .bool },
          { opcode := .jumpif, line := 5, name := "never", target := 6 },
          { opcode := .ret, line := 6 },
          { opcode := .ret, line := 8 },
          { opcode := .fault, line := 10, name := "never" }] }]
    entry := "main" }
  library := .empty

theorem again_floatFree : again.FloatFree where
  assembled := ⟨againText, by decide +kernel⟩
  const := by decide +kernel
  input := by decide +kernel
  apply := by decide +kernel
  library := .inr rfl

def againExplorer : Explorer := { subject := again.subject }

def againSolver : Solver Unit := fun _ cs s =>
  if cs = [(Term.var "a" .bool).mkNot, .var "a" .bool] then (.ok .unsat, s)
  else (.ok (.sat ⟨[("a", ⟨.bool, 1, none⟩)]⟩), s)

theorem againSolver_masked : againSolver.IsMasked := by
  intro allowance cs s sol h
  unfold againSolver at h
  split at h <;> cases h <;> decide

theorem againSolver_correct : CorrectUnsat (Explorer.Answers againSolver) := by
  rintro p sol cs ⟨allowance, s, ha⟩ hunsat hcs j hj holds
  simp only [BranchPoint.ask, hcs, againSolver] at ha
  split at ha
  next heq =>
    subst heq
    have yes := holds (.var "a" .bool) (by simp)
    have no := holds (Term.mkNot (.var "a" .bool)) (by simp)
    have binds : j.Binds (.var "a" .bool) := by
      intro b hb
      cases List.mem_singleton.mp hb
      obtain ⟨t, ht, -⟩ := bind_eq_ok yes
      unfold Term.eval at ht
      split at ht
      · cases ht
      next v hv =>
        split at ht
        next hk => rw [hv, Option.map_some, hk]
        next => cases ht
    have typed : (Term.var "a" .bool).Typed 1 := .var rfl rfl
    rw [Term.evalBool_eq typed binds] at yes
    rw [Term.evalBool_mkNot typed binds, Except.ok.inj yes] at no
    cases no
  next =>
    cases ha
    cases hunsat

end Machine

open Machine in
theorem exhausted_exploration_misses_nothing_again :
    againExplorer.IsFloatFree ∧ MaskedAnswers (Explorer.Answers againSolver) ∧
    CorrectUnsat (Explorer.Answers againSolver) ∧
    (againExplorer.explore againSolver ∅ (againExplorer.start false [] false) ()).1.frontier.unsat = 1 ∧
    ∀ j : Input, j.Masked → ∀ (x : Exploration) (origin : Option BranchPoint),
      x.cancelled = false →
        ∃ s, (x.execute againExplorer j origin).1 = some s ∧ s.status ≠ .faulted := by
  have floatFree : againExplorer.IsFloatFree := ⟨again, again_floatFree, rfl⟩
  have reports : againExplorer.Reports (Explorer.Answers againSolver) ∅
      (againExplorer.explore againSolver ∅ (againExplorer.start false [] false) ()).1 :=
    Explorer.explore_reports (Explorer.start_fresh _ _ _ _)
  refine ⟨floatFree, againSolver_masked.answers, againSolver_correct, by decide +kernel,
    fun j hj x origin hx => ?_⟩
  obtain ⟨s, hs, -, safe⟩ := Explorer.exhausted_exploration_misses_nothing floatFree
    againSolver_masked.answers againSolver_correct (by decide) reports (by decide +kernel)
    (by decide +kernel) (by decide +kernel) j hj x origin hx
  exact ⟨s, hs, safe (by decide +kernel)⟩

end Concolic
