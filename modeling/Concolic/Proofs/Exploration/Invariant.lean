import Mathlib
import Concolic.Proofs.Exploration.Antichain
import Concolic.Proofs.Exploration.Schedule

namespace Concolic

/-- The sequences whose keys an exploration works with: beginnings of runs and targets of points. -/
def occurring (history : List Run) : List (List Direction) :=
  history.flatMap fun r => r.directions.inits.filter (· ≠ []) ++ r.points.map BranchPoint.target

def NoCollision (history : List Run) : Prop :=
  ∀ ds ∈ occurring history, ∀ es ∈ occurring history, keyOf ds = keyOf es → ds = es

instance (history : List Run) : Decidable (NoCollision history) :=
  inferInstanceAs (Decidable (∀ ds ∈ occurring history, ∀ es ∈ occurring history, _))

section Occurring

variable {history history' : List Run} {r s : Run} {p q : BranchPoint} {ds : List Direction}

theorem beginning_occurs (hr : r ∈ history) (hne : ds ≠ []) (h : ds <+: r.directions) :
    ds ∈ occurring history := by
  refine List.mem_flatMap.mpr ⟨r, hr, List.mem_append_left _ ?_⟩
  simpa [hne] using h

theorem target_occurs (hr : r ∈ history) (hp : p ∈ r.points) : p.target ∈ occurring history :=
  List.mem_flatMap.mpr ⟨r, hr, List.mem_append_right _ (List.mem_map_of_mem hp)⟩

theorem NoCollision.of_append (h : NoCollision (history ++ history')) : NoCollision history := by
  intro ds hds es hes
  have grow : occurring history ⊆ occurring (history ++ history') := by
    rw [occurring, occurring, List.flatMap_append]
    exact List.subset_append_left _ _
  exact h ds (grow hds) es (grow hes)

theorem NoCollision.taken (h : NoCollision history) (hr : r ∈ history) (hp : p ∈ r.points)
    (hs : s ∈ history) (hk : p.key ∈ s.takenKeys) : p.target <+: s.directions := by
  obtain ⟨ds, hne, hds, hkey⟩ := Run.mem_takenKeys.mp hk
  rw [(Run.mem_points.mp hp).2.1] at hkey
  have heq := h ds (beginning_occurs hs hne hds) p.target (target_occurs hr hp) hkey
  exact heq ▸ hds

theorem NoCollision.target_eq (h : NoCollision history) (hr : r ∈ history) (hp : p ∈ r.points)
    (hs : s ∈ history) (hq : q ∈ s.points) (hk : p.key = q.key) : p.target = q.target := by
  rw [(Run.mem_points.mp hp).2.1, (Run.mem_points.mp hq).2.1] at hk
  exact h _ (target_occurs hr hp) _ (target_occurs hs hq) hk

end Occurring

def MaskedAnswers (answers : BranchPoint → Except SolverFailure Solution → Prop) : Prop :=
  ∀ p s, answers p (.ok s) → s.bindings.Masked

namespace Explorer

variable {e : Explorer} {i j : Input} {r s : Run} {p : BranchPoint}

theorem Yields.takes_target (he : e.IsFloatFree) (hi : i.Masked) (hj : j.Masked)
    (hr : e.Yields i r) (hs : e.Yields j s) (hp : p ∈ r.points) {cs : List Term}
    (hc : p.constraints = .ok cs) (hcs : ∀ t ∈ cs, t.evalBool j = .ok true) :
    p.target <+: s.directions := by
  obtain ⟨rfl, -, b, hb, -⟩ := Run.mem_points.mp hp
  cases hc.symm.trans (BranchPoint.constraints_eq hb)
  have progress := hr.progress he hi hj hs hb (fun t ht => hcs t (by simp [ht])) (hcs _ (by simp))
  have taken := Run.prefix_directions progress
  rwa [List.map_append, ← Run.take_directions, List.map_singleton, Branch.direction_flip,
    ← Direction.turn_eq (by rw [Run.getElem?_directions, hb, Option.map_some])] at taken

end Explorer

/-- What is known of a worker's point. A run that is not there although there was an input was called
off. -/
def Stage.Sound (e : Explorer) (answers : BranchPoint → Except SolverFailure Solution → Prop)
    (cancelled : Bool) (p : BranchPoint) : Stage → Prop
  | .asking => True
  | .running status input => status = .sat ∧ input.Masked ∧
      (∃ i : Input, i.Masked ∧ e.Yields i p.run) ∧ p ∈ p.run.points ∧
      ∃ cs, p.constraints = .ok cs ∧ ∀ t ∈ cs, t.evalBool input = .ok true
  | .done status (some r) => status = .sat ∧
      ∃ i : Input, i.Masked ∧ e.Yields i r ∧ p.target <+: r.directions
  | .done status none => (status = .sat → cancelled = true) ∧
      (status = .unsat → ∃ s, answers p (.ok s) ∧ s.status = .unsat)

namespace Exploration

variable {e : Explorer} {answers : BranchPoint → Except SolverFailure Solution → Prop}
  {p : BranchPoint} {x : Exploration}

theorem hear_sound (he : e.IsFloatFree) (masked : MaskedAnswers answers) {i : Input}
    (hi : i.Masked) (hr : e.Yields i p.run) (hp : p ∈ p.run.points)
    {answer : Except SolverFailure Solution} (ha : answers p answer) (duration : Int)
    (cancelled : Bool) : (x.hear e p answer duration).1.Sound e answers cancelled p := by
  unfold hear
  split
  next s input y hd =>
    obtain ⟨rfl, hsat, rfl, hcs⟩ := derive_some (congrArg Prod.fst hd)
    refine ⟨hsat, ?_, ⟨i, hi, hr⟩, hp, hcs⟩
    exact BranchPoint.inputOf_masked _ (hr.sound he hi).2.2 (masked p s ha)
  next s y hd =>
    obtain ⟨hsat, hunsat⟩ := derive_none (congrArg Prod.fst hd)
    exact ⟨fun h => absurd h hsat, fun h => ⟨s, hunsat h ▸ ha, h⟩⟩
  next => exact ⟨nofun, nofun⟩

theorem execute_sound (he : e.IsFloatFree) {status : Satisfiability} {input : Input}
    {cancelled : Bool} (h : (Stage.running status input).Sound e answers cancelled p) :
    (Stage.done status (x.execute e input (some p)).1).Sound e answers
      (x.execute e input (some p)).2.cancelled p := by
  obtain ⟨rfl, masked, ⟨i, hi, hr⟩, hp, cs, hcs, hsat⟩ := h
  cases hx : (x.execute e input (some p)).1 with
  | none => exact ⟨fun _ => cancelled_of_execute_none hx, nofun⟩
  | some r =>
    have yields : e.Yields input r := .of_execute hx
    exact ⟨rfl, input, masked, yields, hr.takes_target he hi masked yields hp hcs hsat⟩

end Exploration

theorem Stage.Sound.mono {e : Explorer}
    {answers : BranchPoint → Except SolverFailure Solution → Prop} {cancelled cancelled' : Bool}
    {p : BranchPoint} {stage : Stage} (hc : cancelled = true → cancelled' = true)
    (h : stage.Sound e answers cancelled p) : stage.Sound e answers cancelled' p := by
  match stage with
  | .asking => exact h
  | .running status input => exact h
  | .done status (some r) => exact h
  | .done status none => exact ⟨hc ∘ h.1, h.2⟩

namespace Exploration

structure Sound (e : Explorer) (x : Exploration) : Prop where
  coherent : Coherent e x.frontier x.inFlight x.history.toList
  begun : x.cancelled = false → x.history.toList ≠ []
  faulted : x.faulted = x.history.toList.countP (·.status = .faulted)
  divergences : x.divergences = 0
  skipped : NoCollision x.history.toList → x.frontier.counters.skipped = 0

variable {e : Explorer} {x y : Exploration} {p : BranchPoint} {i : Input} {r : Run}

theorem Sound.keeps (h : x.Sound e) (hx : Keeps x y) : y.Sound e where
  coherent := by
    rw [hx.frontier, hx.inFlight, hx.history]
    exact h.coherent
  begun := by
    intro hc
    rw [hx.history]
    exact h.begun (hx.uncancelled hc)
  faulted := by rw [hx.faulted, hx.history, h.faulted]
  divergences := by rw [hx.divergences, h.divergences]
  skipped := by
    rw [hx.frontier, hx.history]
    exact h.skipped

theorem record_sound {origin : Option BranchPoint}
    (coherent : Coherent e (x.frontier.expand { r with seq := x.history.size + 1 }).2 x.inFlight
      (x.history.toList ++ [{ r with seq := x.history.size + 1 }]))
    (target : ∀ p ∈ origin, p ∈ p.run.points ∧ p.target <+: r.directions)
    (faulted : x.faulted = x.history.toList.countP (·.status = .faulted))
    (divergences : x.divergences = 0)
    (skipped : NoCollision x.history.toList → x.frontier.counters.skipped = 0) :
    (x.record r origin).Sound e := by
  have records := x.record_records r origin
  set r' : Run := { r with seq := x.history.size + 1 }
  have history : (x.record r origin).history.toList = x.history.toList ++ [r'] := by
    rw [records.history, Array.toList_push]
  refine ⟨?_, ?_, ?_, ?_, ?_⟩
  · rw [records.frontier, records.inFlight, history]
    exact coherent
  · simp [history]
  · rw [records.faulted, history, List.countP_append, faulted]
    simp [r', List.countP_singleton]
  · rw [records.divergences, divergences]
    intro p hp
    rw [records.frontier, coherent.covered]
    obtain ⟨point, taken⟩ := target p hp
    exact ⟨r', by simp, Run.key_mem_takenKeys point taken⟩
  · intro free
    rw [history] at free
    rw [records.frontier, Frontier.counters_expand]
    exact skipped free.of_append

theorem Sound.draws_nil (h : x.Sound e) (free : NoCollision x.history.toList)
    {dropped : List BranchPoint} {found : Option BranchPoint} {g : Frontier}
    (draws : x.frontier.Draws dropped found g) : dropped = [] := by
  apply List.eq_nil_iff_forall_not_mem.mpr
  intro p hp
  have waiting : p ∈ x.frontier.waiting ++ x.inFlight :=
    List.mem_append_left _ (draws.perm.subset (List.mem_append_left _ hp))
  obtain ⟨hrun, hpoint⟩ := h.coherent.points p waiting
  obtain ⟨s, hs, hk⟩ := (h.coherent.covered _).mp (draws.covered p hp)
  exact h.coherent.untaken p waiting s hs (free.taken hrun hpoint hs hk)

theorem Sound.eraseP_inFlight (h : x.Sound e) (hp : p ∈ x.inFlight) :
    x.inFlight.eraseP (·.key == p.key) = x.inFlight.erase p :=
  eraseP_key (List.pairwise_append.mp h.coherent.apart).2.1 hp

theorem dispatch_sound (h : x.Sound e) : (x.dispatch e).2.Sound e := by
  rcases x.dispatch_cases e with hd | ⟨found, g, -, hn, hd⟩
  · rwa [hd]
  obtain ⟨dropped, draws⟩ := Frontier.next_draws hn
  rw [hd]
  refine ⟨h.coherent.draw draws, h.begun, h.faulted, h.divergences, fun free => ?_⟩
  obtain ⟨turn, frame⟩ := draws.frame
  have skipped : g.counters.skipped = x.frontier.counters.skipped + dropped.length :=
    congrArg (·.counters.skipped) frame
  rw [skipped, h.draws_nil free draws, h.skipped free, List.length_nil]

theorem receive_sound {answers : BranchPoint → Except SolverFailure Solution → Prop}
    (h : x.Sound e) (hp : p ∈ x.inFlight) {status : Satisfiability} {run : Option Run}
    (hs : (Stage.done status run).Sound e answers x.cancelled p) :
    (x.receive p status run).Sound e := by
  have skipped (free : NoCollision x.history.toList) :
      (x.frontier.resolve p status).counters.skipped = 0 := by
    generalize hg : x.frontier.resolve p status = g
    have resolves := hg ▸ x.frontier.resolve_resolves p status
    have := h.skipped free
    cases resolves with
    | answered _ skipped => exact skipped.trans this
    | abandoned skipped => exact skipped.trans this
    | deferred skipped => exact skipped.trans this
  cases run with
  | none =>
    simp only [receive, h.eraseP_inFlight hp]
    exact ⟨h.coherent.resolve hp, h.begun, h.faulted, h.divergences, skipped⟩
  | some r =>
    obtain ⟨rfl, i, hi, hr, target⟩ := hs
    simp only [receive, h.eraseP_inFlight hp]
    refine record_sound (h.coherent.record_target hp hi (hr.withSeq _) target) ?_ h.faulted
      h.divergences skipped
    rintro q hq
    cases hq
    exact ⟨(h.coherent.points p (List.mem_append_right _ hp)).2, target⟩

theorem begin_sound {input : Input} (hx : x.Fresh e) (hi : input.Masked) :
    (x.begin e input).Sound e := by
  obtain ⟨y, hy, ⟨hc, heq⟩ | ⟨z, r, hr, heq⟩⟩ := hx.begin_cases input
  all_goals rw [heq]
  · refine ⟨?_, ?_, ?_, hy.divergences, ?_⟩
    · rw [hy.frontier, hy.inFlight, hy.history]
      exact Coherent.empty e _
    · simp [hc]
    · simp [hy.faulted, hy.history]
    · simp [hy.frontier]
  · refine record_sound ?_ (by simp) ?_ hy.divergences ?_
    · have yields : e.Yields input r := .of_execute hr
      rw [hy.frontier, hy.inFlight, hy.history]
      exact (Coherent.empty e _).record hi (yields.withSeq _) (by simp [Frontier.waiting]) (by simp)
    · simp [hy.faulted, hy.history]
    · simp [hy.frontier]

end Exploration

namespace Moment

structure Sound (e : Explorer) (answers : BranchPoint → Except SolverFailure Solution → Prop)
    (m : Moment) : Prop where
  now : m.now.Sound e
  stages : ∀ p, (m.stage p).Sound e answers m.now.cancelled p

variable {e : Explorer} {answers : BranchPoint → Except SolverFailure Solution → Prop}
  {m m' : Moment} {input : Input}

theorem Sound.step (he : e.IsFloatFree) (masked : MaskedAnswers answers) (h : m.Sound e answers)
    (next : Step e answers m m') : m'.Sound e answers := by
  -- A worker's step concerns its own stage, and the others are not called back.
  have update {x : Exploration} (hc : m.now.cancelled = true → x.cancelled = true)
      {p : BranchPoint} {stage : Stage} (hp : stage.Sound e answers x.cancelled p)
      (q : BranchPoint) : (Function.update m.stage p stage q).Sound e answers x.cancelled q := by
    by_cases hq : q = p
    · subst hq
      rwa [Function.update_self]
    · rw [Function.update_of_ne hq]
      exact (h.stages q).mono hc
  cases next with
  | dispatch =>
    refine ⟨Exploration.dispatch_sound h.now, fun p => ?_⟩
    rcases m.now.dispatch_cases e with hd | ⟨found, g, -, -, hd⟩
    all_goals
      rw [hd]
      exact h.stages p
  | @hear p answer duration flying asking possible =>
    have keeps := m.now.hear_keeps e p answer duration
    obtain ⟨hrun, hpoint⟩ := h.now.coherent.points p (List.mem_append_right _ flying)
    obtain ⟨i, hi, hr⟩ := h.now.coherent.yields p.run hrun
    exact ⟨h.now.keeps keeps,
      update keeps.cancelled (Exploration.hear_sound he masked hi hr hpoint possible duration _)⟩
  | @execute p status input running =>
    have keeps := m.now.execute_keeps e input (some p)
    have sound := h.stages p
    rw [running] at sound
    exact ⟨h.now.keeps keeps, update keeps.cancelled (Exploration.execute_sound he sound)⟩
  | @receive p status run flying done =>
    have sound := h.stages p
    rw [done] at sound
    have cancelled := m.now.receive_cancelled p status run
    exact ⟨Exploration.receive_sound h.now flying sound, update cancelled.trans trivial⟩
  | cancel =>
    have keeps := Exploration.Keeps.cancel m.now
    exact ⟨h.now.keeps keeps, fun p => (h.stages p).mono keeps.cancelled⟩
  | elapse remaining =>
    have keeps := Exploration.Keeps.elapse m.now remaining
    exact ⟨h.now.keeps keeps, fun p => (h.stages p).mono keeps.cancelled⟩
  | publish topic r =>
    have keeps := (m.now.publish_noted topic r).keeps
    exact ⟨h.now.keeps keeps, fun p => (h.stages p).mono keeps.cancelled⟩

theorem Reached.sound (he : e.IsFloatFree) (masked : MaskedAnswers answers) (hi : input.Masked)
    (h : Reached e answers input m) : m.Sound e answers := by
  induction h with
  | begin fresh => exact ⟨Exploration.begin_sound fresh hi, fun _ => trivial⟩
  | step _ next ih => exact ih.step he masked next

end Moment

end Concolic
