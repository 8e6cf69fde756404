import Mathlib
import Concolic.Exploration.Loop
import Concolic.Proofs.Exploration.Effects

/-!
Schedules. A coordinator hands out points and takes outcomes back, and each worker hears an answer,
runs the program and waits to be heard, all of them in any order and as often as they may. What
`Explorer.explore` does is one such order.
-/

namespace Concolic

inductive Stage
  | asking
  | running (status : Satisfiability) (input : Input)
  | done (status : Satisfiability) (run : Option Run)

namespace Exploration

def hear (e : Explorer) (p : BranchPoint) (answer : Except SolverFailure Solution) (duration : Int)
    (x : Exploration) : Stage × Exploration :=
  match x.derive e p answer duration with
  | (.ok (s, some input), x) => (.running s.status input, x)
  | (.ok (s, none), x) => (.done s.status none, x.unsolved p s)
  | (.error d, x) => (.done .unknown none, x.unsolved p (.unknown d.message))

theorem hear_keeps (e : Explorer) (p : BranchPoint) (answer : Except SolverFailure Solution)
    (duration : Int) (x : Exploration) : Keeps x (x.hear e p answer duration).2 := by
  have derived := (derive_snd_noted e p answer duration x).keeps
  unfold hear
  split <;> rename_i hd <;> rw [hd] at derived
  · exact derived
  · exact derived.trans (note_noted _ _ _ _).keeps
  · exact derived.trans (note_noted _ _ _ _).keeps

theorem work_eq (e : Explorer) (p : BranchPoint) (answer : Except SolverFailure Solution)
    (duration : Int) (x : Exploration) :
    x.work e p answer duration =
      match x.hear e p answer duration with
      | (.running status input, y) =>
        ((status, (y.execute e input (some p)).1), (y.execute e input (some p)).2)
      | (.done status run, y) => ((status, run), y)
      | (.asking, y) => ((.unknown, none), y) := by
  unfold work hear
  obtain ⟨derived, y⟩ := x.derive e p answer duration
  match derived with
  | .ok (s, some input) => rfl
  | .ok (s, none) => rfl
  | .error d => rfl

theorem work_keeps (e : Explorer) (p : BranchPoint) (answer : Except SolverFailure Solution)
    (duration : Int) (x : Exploration) : Keeps x (x.work e p answer duration).2 := by
  have heard := x.hear_keeps e p answer duration
  rw [work_eq]
  split <;> rename_i hh <;> rw [hh] at heard
  · exact heard.trans (execute_keeps _ _ _ _)
  · exact heard
  · exact heard

theorem hear_ne_asking (e : Explorer) (p : BranchPoint) (answer : Except SolverFailure Solution)
    (duration : Int) (x : Exploration) : (x.hear e p answer duration).1 ≠ .asking := by
  unfold hear
  split <;> nofun

structure Fresh (e : Explorer) (x : Exploration) : Prop where
  frontier : x.frontier = { maxRetries := e.settings.maxRetries }
  inFlight : x.inFlight = []
  history : x.history = #[]
  faulted : x.faulted = 0
  divergences : x.divergences = 0

theorem Fresh.begin_cases {e : Explorer} {x : Exploration} (hx : x.Fresh e) (input : Input) :
    ∃ y, Fresh e y ∧ (y.cancelled = true ∧ x.begin e input = y ∨
      ∃ (z : Exploration) (r : Run), (z.execute e input none).1 = some r ∧
        x.begin e input = y.record r none) := by
  unfold begin
  extract_lets z
  have keeps := (note_noted x _ _ _).keeps.trans (z.execute_keeps e input none)
  have fresh : (z.execute e input none).2.Fresh e :=
    ⟨keeps.frontier.trans hx.frontier, keeps.inFlight.trans hx.inFlight,
      keeps.history.trans hx.history, keeps.faulted.trans hx.faulted,
      keeps.divergences.trans hx.divergences⟩
  refine ⟨(z.execute e input none).2, fresh, ?_⟩
  cases hr : (z.execute e input none).1 with
  | none =>
    left
    refine ⟨cancelled_of_execute_none hr, ?_⟩
    rw [← Prod.eta (z.execute e input none), hr]
  | some r =>
    right
    refine ⟨z, r, hr, ?_⟩
    rw [← Prod.eta (z.execute e input none), hr]

end Exploration

structure Moment where
  now : Exploration
  stage : BranchPoint → Stage := fun _ => .asking

namespace Moment

variable (e : Explorer) (answers : BranchPoint → Except SolverFailure Solution → Prop)

/-- What can happen next, if the solver gives one of some answers. -/
inductive Step : Moment → Moment → Prop
  | dispatch (m : Moment) : Step m { m with now := (m.now.dispatch e).2 }
  | hear {m : Moment} {p : BranchPoint} {answer : Except SolverFailure Solution} (duration : Int)
      (flying : p ∈ m.now.inFlight) (asking : m.stage p = .asking) (possible : answers p answer) :
      Step m ⟨(m.now.hear e p answer duration).2,
        Function.update m.stage p (m.now.hear e p answer duration).1⟩
  | execute {m : Moment} {p : BranchPoint} {status : Satisfiability} {input : Input}
      (running : m.stage p = .running status input) :
      Step m ⟨(m.now.execute e input (some p)).2,
        Function.update m.stage p (.done status (m.now.execute e input (some p)).1)⟩
  | receive {m : Moment} {p : BranchPoint} {status : Satisfiability} {run : Option Run}
      (flying : p ∈ m.now.inFlight) (done : m.stage p = .done status run) :
      Step m ⟨m.now.receive p status run, Function.update m.stage p .asking⟩
  | cancel (m : Moment) : Step m { m with now := { m.now with cancelled := true } }
  | elapse (m : Moment) (remaining : Option Nat) :
      Step m { m with now := { m.now with remaining } }
  | publish (m : Moment) (topic : String) (r : Bus.Record) :
      Step m { m with now := m.now.publish topic r }

inductive Reached (input : Input) : Moment → Prop
  | begin {x : Exploration} (fresh : x.Fresh e) : Reached input { now := x.begin e input }
  | step {m m' : Moment} (h : Reached input m) (next : Step e answers m m') : Reached input m'

end Moment

namespace Explorer

variable {σ : Type}

def Reports (e : Explorer) (answers : BranchPoint → Except SolverFailure Solution → Prop)
    (input : Input) (report : Report) : Prop :=
  ∃ m elapsed, Moment.Reached e answers input m ∧ m.now.inFlight = [] ∧
    m.now.report elapsed = report

def Answers (solver : Solver σ) (p : BranchPoint) (answer : Except SolverFailure Solution) : Prop :=
  ∃ allowance s, (p.ask solver allowance s).1 = answer

theorem start_fresh (e : Explorer) (cancelled : Bool) (listeners : List (String × Listener))
    (heeds : Bool) : (e.start cancelled listeners heeds).Fresh e := by
  have subscribe {x : Exploration} (h : x.Fresh e) (topic : String) (l : Listener) :
      (x.subscribe topic l).Fresh e :=
    ⟨h.frontier, h.inFlight, h.history, h.faulted, h.divergences⟩
  have all {x : Exploration} (h : x.Fresh e) :
      (listeners.foldl (fun x l => x.subscribe l.1 l.2) x).Fresh e := by
    induction listeners generalizing x with
    | nil => exact h
    | cons l ls ih => exact ih (subscribe h l.1 l.2)
  simp only [start]
  split
  · exact subscribe (all ⟨rfl, rfl, rfl, rfl, rfl⟩) _ _
  · exact all ⟨rfl, rfl, rfl, rfl, rfl⟩

end Explorer

namespace Moment.Reached

variable {σ : Type} {e : Explorer} {solver : Solver σ} {input : Input} {x y : Exploration} {s t : σ}

theorem settle {answers : BranchPoint → Except SolverFailure Solution → Prop} {p : BranchPoint}
    {answer : Except SolverFailure Solution} (h : Reached e answers input { now := x })
    (hp : p ∈ x.inFlight) (ha : answers p answer) (duration : Int) :
    Reached e answers input { now := x.settle e p answer duration } := by
  have heard := h.step (.hear duration hp rfl ha)
  have flying := (x.hear_keeps e p answer duration).inFlight
  have busy := x.hear_ne_asking e p answer duration
  have idle : (fun _ => Stage.asking) = Function.update (fun _ => Stage.asking) p .asking :=
    (Function.update_eq_self p _).symm
  dsimp only at heard
  rw [Exploration.settle, Exploration.work_eq]
  generalize x.hear e p answer duration = result at heard flying busy
  obtain ⟨stage, y⟩ := result
  dsimp only at heard flying busy
  rw [← flying] at hp
  cases stage with
  | asking => exact absurd rfl busy
  | running status input =>
    rw [← (Exploration.execute_keeps e input (some p) y).inFlight] at hp
    have running : Function.update (fun _ => Stage.asking) p (.running status input) p =
        .running status input := Function.update_self ..
    have executed := heard.step (.execute running)
    have received := executed.step (.receive hp (Function.update_self p _ _))
    rwa [Function.update_idem, Function.update_idem, ← idle] at received
  | done status run =>
    have done : Function.update (fun _ => Stage.asking) p (.done status run) p =
        .done status run := Function.update_self ..
    have received := heard.step (.receive hp done)
    rwa [Function.update_idem, ← idle] at received

theorem advance {more : Bool} (h : Reached e (Explorer.Answers solver) input { now := x })
    (ha : e.advance solver x s = (more, y, t)) :
    Reached e (Explorer.Answers solver) input { now := y } := by
  have dispatched := h.step (.dispatch _)
  dsimp only at dispatched
  unfold Explorer.advance at ha
  generalize x.dispatch e = result at ha dispatched
  obtain ⟨found, z⟩ := result
  cases found with
  | true =>
    cases ha
    exact dispatched
  | false =>
    dsimp only at ha
    split at ha
    · cases ha
      exact dispatched
    next p rest hf =>
      cases ha
      exact dispatched.settle (by simp [hf]) ⟨z.allowance e, s, rfl⟩ 0

theorem advanceFor {fuel : Nat} (h : Reached e (Explorer.Answers solver) input { now := x }) :
    Reached e (Explorer.Answers solver) input { now := (e.advanceFor solver fuel x s).1 } := by
  induction fuel generalizing x s with
  | zero => exact h
  | succ fuel ih =>
    rw [Explorer.advanceFor]
    split
    next ha => exact ih (h.advance ha)
    next ha => exact h.advance ha

end Moment.Reached

end Concolic
