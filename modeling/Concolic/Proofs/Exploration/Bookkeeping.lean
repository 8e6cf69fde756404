import Mathlib
import Concolic.Proofs.Exploration.Chronicle
import Concolic.Proofs.Exploration.Completeness
import Concolic.Proofs.Exploration.Guarantees

namespace Concolic

namespace Exploration

variable {e : Explorer} {x y : Exploration} {p : BranchPoint}

theorem dispatch_found (e : Explorer) (x : Exploration) :
    ∃ found : Option BranchPoint, (x.dispatch e).1 = found.isSome ∧
      (x.dispatch e).2.inFlight = x.inFlight ++ found.toList := by
  rcases x.dispatch_cases e with hd | ⟨found, g, -, -, hd⟩
  · exact ⟨none, by simp [hd]⟩
  · exact ⟨found, by simp [hd]⟩

theorem dispatch_declined (hs : e.strategy.InRange) (h : x.dispatch e = (false, y))
    (idle : y.inFlight = []) :
    x.isOver = true ∨ (0 < e.settings.maxRuns ∧ e.settings.maxRuns ≤ x.history.size) ∨
      y.frontier.size = 0 := by
  unfold dispatch at h
  split at h
  next may =>
    obtain ⟨found, g, hn, none⟩ := Frontier.next_total hs x.frontier
    rw [hn] at h
    cases found with
    | none =>
      cases h
      right; right
      have := congrArg List.length (none rfl)
      simpa [Frontier.waiting, Frontier.size] using this
    | some p => cases h
  next may =>
    cases h
    have workers : 0 < e.settings.workerCount := by simp [Settings.workerCount]
    simp only [mayDispatch, idle, List.length_nil, Nat.add_zero, decide_eq_true workers,
      Bool.true_and, Bool.and_eq_true, Bool.or_eq_true, Bool.not_eq_true', decide_eq_true_eq,
      not_and_or, not_or, Bool.not_eq_false] at may
    rcases may with ended | ⟨pos, full⟩
    · exact .inl ended
    · exact .inr (.inl ⟨by omega, by omega⟩)

theorem reason_maxRuns (h : x.reason = .maxRuns) : x.isOver = false ∧ x.frontier.size ≠ 0 := by
  unfold reason at h
  split_ifs at h
  simp_all [isOver]

end Exploration

namespace Chronicle

variable {e : Explorer} {answers : BranchPoint → Except SolverFailure Solution → Prop}
  {c d : Chronicle} {p : BranchPoint}

section Progress

variable {status : Satisfiability} {run : Option Run}

structure Settled (e : Explorer) (answers : BranchPoint → Except SolverFailure Solution → Prop)
    (c : Chronicle) (p : BranchPoint) (d : Chronicle) : Prop where
  later : Later e answers c d
  received : ∃ outcome, d.received = c.received ++ [(p, outcome)]
  dispatched : d.dispatched = c.dispatched
  inFlight : d.now.inFlight = c.now.inFlight.eraseP (·.key == p.key)

theorem settle_after {m : Moment} (hq : c.Quiet e answers m)
    (h : ∃ d, Settled e answers { c with toMoment := m } p d) : ∃ d, Settled e answers c p d := by
  obtain ⟨d, settled⟩ := h
  refine ⟨d, .head (.quiet hq) settled.later, settled.received, settled.dispatched, ?_⟩
  rw [settled.inFlight, hq.rests.keeps.inFlight]

theorem settle_done (flying : p ∈ c.now.inFlight) (done : c.stage p = .done status run) :
    ∃ d, Settled e answers c p d := by
  refine ⟨_, .single (.receive flying done), ⟨_, rfl⟩, rfl, ?_⟩
  exact c.now.receive_inFlight p status run

theorem settle_running {input : Input} (flying : p ∈ c.now.inFlight)
    (running : c.stage p = .running status input) : ∃ d, Settled e answers c p d := by
  have quiet : c.Quiet e answers _ := .execute running
  have still : p ∈ (c.now.execute e input (some p)).2.inFlight :=
    quiet.rests.keeps.inFlight ▸ flying
  exact settle_after quiet (settle_done still (Function.update_self ..))

theorem exists_settled {answer : Except SolverFailure Solution} (flying : p ∈ c.now.inFlight)
    (possible : answers p answer) : ∃ d, Settled e answers c p d := by
  cases hs : c.stage p with
  | done => exact settle_done flying hs
  | running => exact settle_running flying hs
  | asking =>
    have quiet : c.Quiet e answers _ := .hear 0 flying hs possible
    have still : p ∈ (c.now.hear e p answer 0).2.inFlight := quiet.rests.keeps.inFlight ▸ flying
    have busy := c.now.hear_ne_asking e p answer 0
    have told : Function.update c.stage p (c.now.hear e p answer 0).1 p =
        (c.now.hear e p answer 0).1 := Function.update_self ..
    cases heard : (c.now.hear e p answer 0).1 with
    | asking => exact absurd heard busy
    | running => exact settle_after quiet (settle_running still (told.trans heard))
    | done => exact settle_after quiet (settle_done still (told.trans heard))

theorem settle_later {answer : Except SolverFailure Solution} (flying : p ∈ c.now.inFlight)
    (asking : c.stage p = .asking) (possible : answers p answer) (duration : Int) :
    ∃ outcome, Later e answers c { c with
      now := c.now.settle e p answer duration, received := c.received ++ [(p, outcome)] } := by
  have heard : c.Quiet e answers _ := .hear duration flying asking possible
  have still : p ∈ (c.now.hear e p answer duration).2.inFlight :=
    heard.rests.keeps.inFlight ▸ flying
  have busy := c.now.hear_ne_asking e p answer duration
  have idle : Function.update c.stage p .asking = c.stage := asking ▸ Function.update_eq_self p _
  rw [Exploration.settle, Exploration.work_eq]
  generalize c.now.hear e p answer duration = result at heard still busy
  obtain ⟨stage, y⟩ := result
  have first : Later e answers c { c with now := y, stage := Function.update c.stage p stage } :=
    .single (.quiet heard)
  cases stage with
  | asking => exact absurd rfl busy
  | running status input =>
    have executed := first.tail (.quiet (.execute (Function.update_self p _ _)))
    have received := executed.tail
      (.receive ((y.execute_keeps e input (some p)).inFlight ▸ still) (Function.update_self p _ _))
    simp only [Function.update_idem, idle] at received
    exact ⟨_, received⟩
  | done status run =>
    have received := first.tail (.receive still (Function.update_self p _ _))
    simp only [Function.update_idem, idle] at received
    exact ⟨_, received⟩

end Progress

section End

variable {x : Exploration} {input : Input} {m : Moment}

theorem Reached.until (h : c.Reached e answers x input) (hl : Later e answers c d) :
    d.Reached e answers x input := ⟨h.blank, h.later.trans hl⟩

theorem exists_checked (e : Explorer)
    (answers : BranchPoint → Except SolverFailure Solution → Prop) (c : Chronicle) :
    ∃ d, Step e answers c d ∧ d.toMoment = ⟨(c.now.dispatch e).2, c.stage⟩ := by
  obtain ⟨found, outcome, flying⟩ := c.now.dispatch_found e
  exact ⟨_, .dispatch (Prod.ext outcome rfl) flying, rfl⟩

theorem declined_step {x : Exploration} (declined : c.now.dispatch e = (false, x)) :
    Step e answers c { c with now := x } := by
  obtain ⟨found, outcome, flying⟩ := c.now.dispatch_found e
  rw [declined] at outcome flying
  obtain rfl : found = none := by simpa using outcome.symm
  have step : Step e answers c
      { c with now := x, dispatched := c.dispatched ++ (none : Option BranchPoint).toList } :=
    .dispatch declined flying
  simpa using step

theorem later_of_quiet {m' : Moment} (h : Relation.ReflTransGen (Moment.Quiet e answers) m m') :
    Later e answers { c with toMoment := m } { c with toMoment := m' } := by
  induction h with
  | refl => exact .refl
  | tail _ hq ih => exact ih.tail (.quiet hq)

theorem Ends.later (he : c.Ends e answers m) : Later e answers c { c with toMoment := m } := by
  obtain ⟨x, declined, -, quiet⟩ := he
  exact .head (declined_step declined) (later_of_quiet quiet)

theorem rests_of_quiet {m' : Moment} (h : Relation.ReflTransGen (Moment.Quiet e answers) m m') :
    m'.now.frontier = m.now.frontier ∧ m'.now.inFlight = m.now.inFlight ∧
      m'.now.history = m.now.history ∧ (m.now.isOver = true → m'.now.isOver = true) := by
  induction h with
  | refl => exact ⟨rfl, rfl, rfl, id⟩
  | tail _ hq ih =>
    have keeps := hq.rests.keeps
    exact ⟨keeps.frontier.trans ih.1, keeps.inFlight.trans ih.2.1, keeps.history.trans ih.2.2.1,
      hq.rests.isOver ∘ ih.2.2.2⟩

theorem Ends.reason (hs : e.strategy.InRange) (he : c.Ends e answers m)
    (h : m.now.reason = .maxRuns) :
    0 < e.settings.maxRuns ∧ e.settings.maxRuns ≤ m.now.history.size ∧ m.now.frontier.size ≠ 0 := by
  obtain ⟨x, declined, idle, quiet⟩ := he
  obtain ⟨frontier, -, history, isOver⟩ := rests_of_quiet quiet
  obtain ⟨running, waiting⟩ := Exploration.reason_maxRuns h
  have kept : c.now.history = x.history ∧ c.now.isOver = x.isOver := by
    rcases c.now.dispatch_cases e with hd | ⟨found, g, -, -, hd⟩ <;>
      obtain rfl := congrArg Prod.snd (declined.symm.trans hd) <;> exact ⟨rfl, rfl⟩
  rcases Exploration.dispatch_declined hs declined idle with ended | ⟨pos, full⟩ | empty
  · rw [kept.2] at ended
    cases running.symm.trans (isOver ended)
  · rw [kept.1] at full
    exact ⟨pos, history ▸ full, waiting⟩
  · exact absurd (frontier ▸ empty) waiting

end End

section Explore

variable {σ : Type} {solver : Solver σ} {x : Exploration} {input : Input} {s t : σ}

theorem Reached.advance {more : Bool} {y : Exploration}
    (h : c.Reached e (Explorer.Answers solver) x input) (asking : ∀ p, c.stage p = .asking)
    (ha : e.advance solver c.now s = (more, y, t)) :
    (more = false → c.Ends e (Explorer.Answers solver) ⟨y, c.stage⟩) ∧
      (more = true → ∃ d : Chronicle, d.Reached e (Explorer.Answers solver) x input ∧
        d.toMoment = ⟨y, c.stage⟩) := by
  unfold Explorer.advance at ha
  obtain ⟨d, checked, hc⟩ := exists_checked e (Explorer.Answers solver) c
  cases hd : c.now.dispatch e with
  | mk b z =>
    rw [hd] at ha hc
    cases b with
    | true =>
      cases ha
      exact ⟨nofun, fun _ => ⟨d, h.until (.single checked), hc⟩⟩
    | false =>
      have declined := h.until (.single (declined_step hd))
      dsimp only at ha
      split at ha
      next idle =>
        cases ha
        exact ⟨fun _ => ⟨y, hd, idle, .refl⟩, nofun⟩
      next p rest flying =>
        cases ha
        refine ⟨nofun, fun _ => ?_⟩
        have possible : Explorer.Answers solver p (p.ask solver (z.allowance e) s).1 :=
          ⟨z.allowance e, s, rfl⟩
        obtain ⟨outcome, later⟩ := settle_later (e := e) (c := { c with now := z })
          (by simp [flying]) (asking p) possible 0
        exact ⟨_, declined.until later, rfl⟩

theorem Reached.advanceFor {fuel : Nat} (h : c.Reached e (Explorer.Answers solver) x input)
    (asking : ∀ p, c.stage p = .asking) (accounted : c.now.frontier.Accounted c.now.inFlight)
    (hf : c.now.potential < fuel) :
    ∃ d : Chronicle, d.Reached e (Explorer.Answers solver) x input ∧
      d.Ends e (Explorer.Answers solver) ⟨(e.advanceFor solver fuel c.now s).1, c.stage⟩ := by
  induction fuel generalizing c s with
  | zero => omega
  | succ fuel ih =>
    rw [Explorer.advanceFor]
    cases ha : e.advance solver c.now s with
    | mk more rest =>
      obtain ⟨y, t⟩ := rest
      obtain ⟨ends, goes⟩ := h.advance asking ha
      obtain ⟨accounted, spent, -⟩ := Explorer.advance_potential accounted ha
      cases more with
      | false => exact ⟨c, h, ends rfl⟩
      | true =>
        obtain ⟨d, reached, hd⟩ := goes rfl
        obtain ⟨rfl, stage⟩ : d.now = y ∧ d.stage = c.stage := by simp [hd]
        have less := spent rfl
        obtain ⟨last, hlast⟩ := ih (s := t) reached (stage ▸ asking) accounted (by omega)
        exact ⟨last, stage ▸ hlast⟩

theorem exploreFor_ends {fuel : Nat} (hx : x.Blank e) (hf : e.maxAdvances < fuel) :
    ∃ (d : Chronicle) (m : Moment), d.Reached e (Explorer.Answers solver) x input ∧
      d.Ends e (Explorer.Answers solver) m ∧
      (e.exploreFor solver fuel input x s).1 = m.now.report 0 := by
  obtain ⟨accounted, full⟩ := Explorer.begin_potential hx.toFresh input
  have start : Reached e (Explorer.Answers solver) x input { now := x.begin e input } :=
    ⟨hx, .refl⟩
  obtain ⟨d, reached, ends⟩ := start.advanceFor (s := s) (fun _ => rfl) accounted
    (full.trans_lt hf)
  exact ⟨d, _, reached, ends, e.exploreFor_fst solver fuel input x s⟩

theorem explore_ends (hx : x.Blank e) :
    ∃ (d : Chronicle) (m : Moment), d.Reached e (Explorer.Answers solver) x input ∧
      d.Ends e (Explorer.Answers solver) m ∧ (e.explore solver input x s).1 = m.now.report 0 := by
  rw [Explorer.explore]
  exact exploreFor_ends hx (Nat.lt_add_one _)

end Explore

end Chronicle

theorem RunState.isCounted_conclude {s : RunState} (hs : s.frozen = false) (ending : Option EarlyEnd) :
    (s.conclude ending).status.isCounted = true := by
  cases ending with
  | none => simp [conclude, finish, hs, RunStatus.isCounted]
  | some early =>
    simp only [conclude, finish, hs, Bool.false_eq_true, if_false, EarlyEnd.status]
    split_ifs <;> rfl

def Explorer.LeavesOpen (e : Explorer) : Prop :=
  ∀ cancelled id input, (e.subject cancelled (e.initial id input)).state.frozen = false

theorem Explorer.Yields.isCounted {e : Explorer} (he : e.LeavesOpen) {i : Input} {r : Run}
    (h : e.Yields i r) : r.status.isCounted = true := by
  obtain ⟨flag, id, shows⟩ := h.shows
  rw [shows.status]
  exact RunState.isCounted_conclude (he flag id i) _

theorem Explorer.leavesOpen {e : Explorer} {setup : Machine.Setup} (he : e.subject = setup.subject)
    (hl : setup.library = .standard ∨ setup.library = .empty) : e.LeavesOpen := by
  intro cancelled id input
  rw [he]
  exact (Machine.run_kept (Library.allTame_of hl) cancelled (e.initial id input)).2.2

namespace Chronicle

variable {e : Explorer} {answers : BranchPoint → Except SolverFailure Solution → Prop}
  {c : Chronicle} {x : Exploration} {input : Input}

/-- The exploration is stopped: nothing is handed out any more, and the cause is the same for good. -/
structure Halts (e : Explorer) (answers : BranchPoint → Except SolverFailure Solution → Prop)
    (c : Chronicle) (cause : StopCause) : Prop where
  stop : c.now.stop = some cause
  declines : c.now.dispatch e = (false, c.now)
  later : ∀ d, Later e answers c d → d.now.stop = some cause ∧ d.dispatched = c.dispatched

theorem halts {cause : StopCause} (h : c.now.stop = some cause) : c.Halts e answers cause :=
  ⟨h, dispatch_stopped h, fun _ hd => stopped_later hd h⟩

structure Closes (e : Explorer) (c : Chronicle) (m : Moment) (r : Report) : Prop where
  idle : m.now.inFlight = []
  resolved : (c.received.map (·.1)).Perm c.dispatched
  dispatches : c.dispatched.length = r.frontier.sat + r.frontier.unsat + r.frontier.unknown
  runs : m.now.cancelled = false → r.runs = 1 + r.frontier.sat
  history : r.runs = r.history.length
  recorded : ∃ first : Option Run,
    r.history = Run.numbered (first.toList ++ c.received.filterMap (·.2.2))
  stop : ∀ cause, c.now.stop = some cause → r.stop = cause ∧
    (m.now.cancelled = false → r.reason = .stopped)
  faults : r.faults.length = r.faulted
  exhausted : r.reason = .exhausted → r.frontier.pending = 0 ∧ r.frontier.deferred = 0
  maxRuns : r.reason = .maxRuns → 0 < e.settings.maxRuns ∧ e.settings.maxRuns ≤ r.runs ∧
    0 < r.frontier.pending + r.frontier.deferred
  statuses : e.LeavesOpen → r.runs = r.completed + r.faulted + r.aborted

theorem Kept.points (h : c.Kept e) :
    (c.received.map (·.1) ++ c.now.inFlight).Perm c.dispatched ∧
      c.received.length = c.now.frontier.stats.sat + c.now.frontier.stats.unsat +
        c.now.frontier.stats.unknown := by
  obtain ⟨l, audit⟩ := h.audited
  have answered := audit.balanced.answered
  have length := audit.balanced.length_answers
  rw [audit.answers, audit.outstanding, audit.returned, List.map_map] at answered
  rw [audit.answers, List.length_map, audit.frontier] at length
  exact ⟨answered, length⟩

theorem Kept.seq (h : c.Kept e) {k : Nat} {r : Run} (hr : c.now.history[k]? = some r) :
    r.seq = k + 1 := by
  obtain ⟨first, history⟩ := h.history
  rw [← Array.getElem?_toList, history, Run.numbered, List.getElem?_mapIdx] at hr
  obtain ⟨s, -, rfl⟩ := Option.map_eq_some_iff.mp hr
  rfl

theorem Ends.closes (hs : e.strategy.InRange) (h : c.Reached e answers x input) {m : Moment}
    (he : c.Ends e answers m) (elapsed : Int) : Closes e c m (m.now.report elapsed) := by
  have kept := (h.until he.later).kept
  obtain ⟨points, answered⟩ := kept.points
  have idle : m.now.inFlight = [] := by
    obtain ⟨x, -, idle, quiet⟩ := he
    exact (rests_of_quiet quiet).2.1.trans idle
  have resolved : (c.received.map (·.1)).Perm c.dispatched := by
    simpa only [idle, List.append_nil] using points
  refine ⟨idle, resolved, ?_, kept.runs, ?_, kept.history, ?_, ?_, ?_, ?_, ?_⟩
  · rw [← resolved.length_eq, List.length_map]
    exact answered
  · simp [Exploration.report]
  · intro cause hc
    have stop : m.now.stop = some cause := (stopped_later he.later hc).1
    exact ⟨by simp [Exploration.report, stop],
      fun running => by simp [Exploration.report, Exploration.reason, running, stop]⟩
  · simpa [Exploration.report] using kept.faults
  · intro reason
    obtain ⟨pending, deferred⟩ := List.append_eq_nil_iff.mp (Exploration.reason_exhausted reason).2
    simp [Exploration.report, Frontier.stats, pending, deferred]
  · intro reason
    obtain ⟨pos, full, waiting⟩ := he.reason hs reason
    refine ⟨pos, full, ?_⟩
    simp only [Frontier.size] at waiting
    simp only [Exploration.report, Frontier.stats]
    omega
  · intro opens
    have counted := kept.counted fun r hr => by
      obtain ⟨i, yields⟩ := kept.yields r hr
      exact yields.isCounted opens
    exact counted.symm

/-- Whatever the order of handing out, answering, stopping and taking back: the limits hold at every
moment, runs and faults are counted as they come, the first request to stop is obeyed for good, all
points in flight can be brought to an end, and the report at the end adds up. A machine program with
the standard models, or with none, does not end its state itself. -/
theorem bookkeeping_adds_up (hs : e.strategy.InRange) (h : c.Reached e answers x input) :
    c.now.inFlight.length ≤ e.settings.workerCount ∧
    (0 < e.settings.maxRuns →
      ((c.now.history.size + c.now.inFlight.length : Nat) : Int) ≤ max 1 e.settings.maxRuns) ∧
    (∃ first : Option Run,
      c.now.history.toList = Run.numbered (first.toList ++ c.received.filterMap (·.2.2))) ∧
    (∀ k r, c.now.history[k]? = some r → r.seq = k + 1) ∧
    c.now.faults.size = c.now.faulted ∧
    (c.received.map (·.1) ++ c.now.inFlight).Perm c.dispatched ∧
    (∀ cause, c.now.stop = some cause → c.Halts e answers cause) ∧
    (x.Heeds →
      (∀ r, ∃ cause, c.now.StopsFor r cause ∧
        Halts e answers { c with now := c.now.publish Bus.stopTopic r } cause) ∧
      ∀ i origin r, (c.now.conclusion e i).stop = some r → ∃ cause, c.now.StopsFor r cause ∧
        Halts e answers { c with now := (c.now.execute e i origin).2 } cause) ∧
    (∀ p ∈ c.now.inFlight, ∀ answer, answers p answer → ∃ d, Settled e answers c p d) ∧
    (∀ m elapsed, c.Ends e answers m → Closes e c m (m.now.report elapsed)) ∧
    (∀ setup : Machine.Setup, setup.library = .standard ∨ setup.library = .empty →
      e.subject = setup.subject → e.LeavesOpen) ∧
    (∀ cancelled listeners heeds, (e.start cancelled listeners heeds).Blank e ∧
      (heeds = true → (e.start cancelled listeners heeds).Heeds)) ∧
    ∀ (σ : Type) (solver : Solver σ) (y : Exploration) (s : σ), y.Blank e →
      ∃ (d : Chronicle) (m : Moment), d.Reached e (Explorer.Answers solver) y input ∧
        d.Ends e (Explorer.Answers solver) m ∧ (e.explore solver input y s).1 = m.now.report 0 := by
  have kept := h.kept
  have heeding (heeds : x.Heeds) : c.now.Heeds := by
    rwa [Exploration.Heeds, h.broker]
  refine ⟨kept.workers, kept.budget, kept.history, fun _ _ => kept.seq, kept.faults, kept.points.1,
    fun _ => halts, fun heeds => ⟨?_, ?_⟩, ?_, ?_, ?_, ?_, ?_⟩
  · intro r
    obtain ⟨cause, stop, stops⟩ := Exploration.publish_stopsFor (heeding heeds) r
    exact ⟨cause, stops, halts stop⟩
  · intro i origin r asks
    obtain ⟨cause, stop, stops⟩ := Exploration.execute_stopsFor (heeding heeds) asks origin
    exact ⟨cause, stops, halts stop⟩
  · intro p flying answer possible
    exact exists_settled flying possible
  · intro m elapsed he
    exact he.closes hs h elapsed
  · intro setup hl he
    exact Explorer.leavesOpen he hl
  · intro cancelled listeners heeds
    refine ⟨e.start_blank cancelled listeners heeds, ?_⟩
    rintro rfl
    exact Exploration.start_heeds e cancelled listeners
  · intro σ solver y s blank
    exact explore_ends blank

open Machine in
/-- One of the two points of the first run is handed out when the exploration is asked to stop, and
is still settled; and a whole exploration. -/
theorem bookkeeping_adds_up_ratio :
    let x := ratioExplorer.start false [] true
    let answers := Explorer.Answers ratioSolver
    let r : Bus.Record := .ofList [("trigger", .text "main:3"), ("message", .int 7)]
    let cause : StopCause := { message := "7", trigger := "main:3" }
    let asked (c : Chronicle) : Chronicle := { c with now := c.now.publish Bus.stopTopic r }
    ratioExplorer.strategy.InRange ∧ x.Blank ratioExplorer ∧ x.Heeds ∧
    (∃ c : Chronicle, c.Reached ratioExplorer answers x ratioInput ∧
      c.now.inFlight.length = 1 ∧ c.now.stop = none ∧
      (asked c).Halts ratioExplorer answers cause ∧
      ∀ p ∈ c.now.inFlight, ∃ d, Settled ratioExplorer answers (asked c) p d ∧
        d.now.stop = some cause ∧ d.now.inFlight = []) ∧
    ∃ (d : Chronicle) (m : Moment),
      (ratioExplorer.explore ratioSolver ratioInput x ()).1 = m.now.report 0 ∧
      Closes ratioExplorer d m (m.now.report 0) ∧ ratioExplorer.LeavesOpen := by
  intro x answers r cause asked
  have inRange : ratioExplorer.strategy.InRange := SearchPlan.inRange_select _ _
  have blank : x.Blank ratioExplorer := Explorer.start_blank _ _ _ _
  have heeds : x.Heeds := Exploration.start_heeds _ _ _
  have start : Reached ratioExplorer answers x ratioInput
      { now := x.begin ratioExplorer ratioInput } := ⟨blank, .refl⟩
  obtain ⟨c, checked, hc⟩ := exists_checked ratioExplorer answers
    { now := x.begin ratioExplorer ratioInput }
  have reached := start.until (.single checked)
  have one : c.now.inFlight.length = 1 := by
    rw [hc]
    decide +kernel
  have running : c.now.stop = none := by
    rw [hc]
    decide +kernel
  obtain ⟨-, -, -, -, -, -, -, stops, -, -, opens, -, explores⟩ :=
    bookkeeping_adds_up inRange reached
  obtain ⟨cause', quoted, halts⟩ := (stops heeds).1 r
  obtain rfl : cause' = cause := by
    rw [Exploration.StopsFor, running] at quoted
    obtain ⟨first, ⟨message, trigger⟩, rfl | ⟨s, hs, rule, hr, -⟩⟩ := quoted
    · exact StopCause.ext message trigger
    · rw [reached.broker] at hs
      obtain rfl := List.mem_singleton.mp hs
      cases hr
  have halted : (asked c).Reached ratioExplorer answers x ratioInput :=
    reached.until (.single (.quiet (.publish _ _ _)))
  obtain ⟨-, -, -, -, -, -, -, -, settles, -⟩ := bookkeeping_adds_up inRange halted
  obtain ⟨d, m, reached', ends, report⟩ := explores Unit ratioSolver x () blank
  obtain ⟨-, -, -, -, -, -, -, -, -, closes, -⟩ := bookkeeping_adds_up inRange reached'
  refine ⟨inRange, blank, heeds, ⟨c, reached, one, running, halts, ?_⟩, d, m, report,
    closes m 0 ends, opens ratio (.inl rfl) rfl⟩
  intro p hp
  have same : (asked c).now.inFlight = c.now.inFlight :=
    (c.now.publish_noted Bus.stopTopic r).keeps.inFlight
  obtain ⟨d, settled⟩ := settles p (same ▸ hp) _ ⟨{}, (), rfl⟩
  refine ⟨d, settled, (halts.later d settled.later).1, ?_⟩
  obtain ⟨q, hq⟩ := List.length_eq_one_iff.mp one
  obtain rfl : p = q := by simpa [hq] using hp
  rw [settled.inFlight, same, hq]
  simp

end Chronicle

end Concolic
