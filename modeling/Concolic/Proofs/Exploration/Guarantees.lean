import Mathlib
import Concolic.Proofs.Exploration.Invariant
import Concolic.Proofs.Exploration.Termination

/-!
What every exploration of a program without floating-point numbers guarantees, under any schedule and
with any solver: derived inputs make progress, so that no run diverges, and no path is run twice.
-/

namespace Concolic

def Solver.IsMasked {σ : Type} (solver : Solver σ) : Prop :=
  ∀ allowance cs s sol, (solver allowance cs s).1 = .ok sol → sol.bindings.Masked

theorem Solver.IsMasked.answers {σ : Type} {solver : Solver σ} (h : solver.IsMasked) :
    MaskedAnswers (Explorer.Answers solver) := by
  rintro p sol ⟨allowance, s, ha⟩
  unfold BranchPoint.ask at ha
  split at ha
  next cs _ => exact h allowance cs s sol ha
  next => cases ha

/-- The second run has the branches of the first up to an index, and takes the other way there. -/
structure Run.TurnsAt (r : Run) (n : Nat) (s : Run) : Prop where
  longer : n < s.path.length
  before : s.path.take n = r.path.take n
  turned : s.path[n]? = r.path[n]?.map Branch.flip

theorem Run.turnsAt_of_prefix {r s : Run} {n : Nat} {b : Branch} (hb : r.path[n]? = some b)
    (h : r.path.take n ++ [b.flip] <+: s.path) : r.TurnsAt n s := by
  have hn : n < r.path.length := (List.getElem?_eq_some_iff.mp hb).1
  have length : (r.path.take n).length = n := by simp [hn.le]
  obtain ⟨rest, hs⟩ := h
  refine ⟨?_, ?_, ?_⟩
  · simp [← hs, length]
  · rw [← hs, List.append_assoc, List.take_left' length]
  · rw [← hs, List.append_assoc, List.getElem?_append_right length.le, length, hb]
    simp

namespace Explorer

variable {e : Explorer}

theorem Yields.turns (he : e.IsFloatFree) {i i' : Input} (hi : i.Masked) {p : BranchPoint}
    (hr : e.Yields i p.run) {b : Branch} (hb : p.branch? = some b)
    {answer : Except SolverFailure Solution} (masked : ∀ s, answer = .ok s → s.bindings.Masked)
    {y : Exploration} {duration : Int} {sol : Solution}
    (hd : (y.derive e p answer duration).1 = .ok (sol, some i')) :
    sol.status = .sat ∧ i'.Masked ∧ ∀ s, e.Yields i' s → p.run.TurnsAt p.index s := by
  obtain ⟨rfl, hsat, rfl, cs, hcs, holds⟩ := Exploration.derive_some hd
  have input :=
    BranchPoint.inputOf_masked e.settings.policy (hr.sound he hi).2.2 (masked sol rfl)
  cases hcs.symm.trans (BranchPoint.constraints_eq hb)
  refine ⟨hsat, input, fun s yields => Run.turnsAt_of_prefix hb ?_⟩
  exact hr.progress he hi input yields hb (fun t ht => holds t (by simp [ht])) (holds _ (by simp))

/-- Where an input is derived for a symbolic branch of a run, its run turns at that branch. So no
exploration counts a divergence. -/
theorem derived_inputs_progress (he : e.IsFloatFree) :
    (∀ (i : Input) (x : Exploration) (origin : Option BranchPoint) (p : BranchPoint) (b : Branch)
        (answer : Except SolverFailure Solution) (y : Exploration) (duration : Int)
        (sol : Solution) (i' : Input),
      i.Masked → (x.execute e i origin).1 = some p.run →
      p.branch? = some b → b.isConcrete = false →
      (∀ s, answer = .ok s → s.bindings.Masked) →
      (y.derive e p answer duration).1 = .ok (sol, some i') →
      ∀ (z : Exploration) (origin' : Option BranchPoint), z.cancelled = false →
        sol.status = .sat ∧ ∃ s, (z.execute e i' origin').1 = some s ∧ p.run.TurnsAt p.index s) ∧
    (∀ answers input m, MaskedAnswers answers → input.Masked →
      Moment.Reached e answers input m → m.now.divergences = 0) ∧
    ∀ (σ : Type) (solver : Solver σ) (s : σ) (input : Input) (x : Exploration),
      solver.IsMasked → input.Masked → x.Fresh e →
      (e.explore solver input x s).1.divergences = 0 := by
  have schedules (answers input m) (masked : MaskedAnswers answers) (hi : input.Masked)
      (h : Moment.Reached e answers input m) : m.now.divergences = 0 :=
    (h.sound he masked hi).now.divergences
  refine ⟨?_, schedules, ?_⟩
  · intro i x origin p b answer y duration sol i' hi hr hb _ masked hd z origin' hz
    obtain ⟨hsat, hi', turns⟩ := (Yields.of_execute hr).turns he hi hb masked hd
    obtain ⟨s, hs, yields'⟩ := exists_yields he i' origin' hz
    exact ⟨hsat, s, hs, turns s yields'⟩
  · intro σ solver s input x masked hi hx
    have reports : e.Reports (Answers solver) input (e.explore solver input x s).1 :=
      explore_reports hx
    obtain ⟨m, elapsed, reached, -, heq⟩ := reports
    rw [← heq]
    exact schedules _ input m masked.answers hi reached

end Explorer

namespace Machine

def ratioStart : Exploration := ratioExplorer.start false [] false

def ratioModel : Input :=
  ⟨[("x", ⟨.int, 1, none⟩), ("y", ⟨.int, 2, none⟩), ("z", ⟨.bool, 1, none⟩)]⟩

def ratioDerives (r : Run) : Bool :=
  (BranchPoint.branch? ⟨r, 1, 0⟩).any (!·.isConcrete) &&
    (ratioStart.derive ratioExplorer ⟨r, 1, 0⟩ (.ok (.sat ratioModel)) 0).1 =
      .ok (.sat ratioModel, some ratioModel)

end Machine

open Machine in
theorem derived_inputs_progress_ratio :
    ratioExplorer.IsFloatFree ∧ ratioInput.Masked ∧ ratioModel.Masked ∧
    ∃ r s, (ratioStart.execute ratioExplorer ratioInput none).1 = some r ∧ ratioDerives r ∧
      (ratioStart.execute ratioExplorer ratioModel none).1 = some s ∧ r.TurnsAt 1 s := by
  have floatFree : ratioExplorer.IsFloatFree := ⟨ratio, ratio_floatFree, rfl⟩
  have input : ratioInput.Masked := by decide
  have model : ratioModel.Masked := by decide
  have derives : (ratioStart.execute ratioExplorer ratioInput none).1.any ratioDerives = true := by
    decide +kernel
  obtain ⟨r, hr, hd⟩ := (Option.any_eq_true _ _).mp derives
  obtain ⟨symbolic, derived⟩ := Bool.and_eq_true_iff.mp hd
  obtain ⟨b, hb, hs⟩ := (Option.any_eq_true _ _).mp symbolic
  obtain ⟨-, s, hs, turns⟩ := (Explorer.derived_inputs_progress floatFree).1 ratioInput ratioStart
    none ⟨r, 1, 0⟩ b (.ok (.sat ratioModel)) ratioStart 0 (.sat ratioModel) ratioModel input hr hb
    (by simpa using hs) (fun s hs => by cases hs; exact model) (of_decide_eq_true derived)
    ratioStart none rfl
  exact ⟨floatFree, input, model, r, s, hr, hd, hs, turns⟩

/-- At every moment of an exploration, the runs so far took different directions, the targets of all
points that wait or are in flight are incompatible, and no run took one of them. So no point is
skipped, unless two sequences of directions have the same key. -/
theorem Moment.Reached.no_path_twice {e : Explorer} (he : e.IsFloatFree)
    {answers : BranchPoint → Except SolverFailure Solution → Prop} (masked : MaskedAnswers answers)
    {input : Input} (hi : input.Masked) {m : Moment} (h : Moment.Reached e answers input m) :
    (m.now.history.toList.Pairwise fun r s => r.directions ≠ s.directions) ∧
    ((m.now.frontier.pending ++ m.now.frontier.deferred ++ m.now.inFlight).Pairwise fun p q =>
      ¬p.target <+: q.target ∧ ¬q.target <+: p.target) ∧
    (∀ p ∈ m.now.frontier.pending ++ m.now.frontier.deferred ++ m.now.inFlight,
      ∀ r ∈ m.now.history.toList, ¬p.target <+: r.directions) ∧
    (NoCollision m.now.history.toList → m.now.frontier.counters.skipped = 0) := by
  have sound := (h.sound he masked hi).now
  refine ⟨sound.coherent.distinct, ?_, sound.coherent.untaken, sound.skipped⟩
  exact sound.coherent.apart.imp fun apart => ⟨apart.left, apart.right⟩

namespace Machine

def ratioSolver : Solver Unit := fun _ _ s => (.ok (.sat ratioModel), s)

theorem ratioSolver_masked : ratioSolver.IsMasked := by
  rintro allowance cs s sol ⟨⟩
  decide

def ratioMoment : Moment :=
  { now := (ratioExplorer.advanceFor ratioSolver 1 (ratioStart.begin ratioExplorer ratioInput) ()).1 }

end Machine

open Machine in
theorem no_path_twice_ratio :
    ratioExplorer.IsFloatFree ∧ ratioInput.Masked ∧
    Moment.Reached ratioExplorer (Explorer.Answers ratioSolver) ratioInput ratioMoment ∧
    ratioMoment.now.frontier.pending.length = 1 ∧ ratioMoment.now.inFlight.length = 1 ∧
    (ratioMoment.now.frontier.pending ++ ratioMoment.now.frontier.deferred ++
      ratioMoment.now.inFlight).Pairwise (fun p q =>
        ¬p.target <+: q.target ∧ ¬q.target <+: p.target) ∧
    NoCollision ratioMoment.now.history.toList ∧ ratioMoment.now.frontier.counters.skipped = 0 := by
  have floatFree : ratioExplorer.IsFloatFree := ⟨ratio, ratio_floatFree, rfl⟩
  have masked : ratioInput.Masked := by decide
  have reached : Moment.Reached ratioExplorer (Explorer.Answers ratioSolver) ratioInput ratioMoment :=
    (Moment.Reached.begin (Explorer.start_fresh _ _ _ _)).advanceFor
  have free : NoCollision ratioMoment.now.history.toList := by decide +kernel
  obtain ⟨-, apart, -, skipped⟩ := reached.no_path_twice floatFree ratioSolver_masked.answers masked
  exact ⟨floatFree, masked, reached, by decide +kernel, by decide +kernel, apart, free, skipped free⟩

namespace Machine

def collisionText : String :=
  "func A\n input a bool\n jumpif E\n input b bool\n jumpif C\nE:\n return\nC:\n" ++
  " call abiwqynvRvgMoW\n return\nend\n" ++
  "func abiwqynvRvgMoW\n const bool false\n jumpif N\nN:\n return\nend\n"

def collision : Setup where
  program := {
    functions := [
      { name := "A", labels := [("E", 4), ("C", 5)], code := #[
          { opcode := .input, line := 2, name := "a", kind := .bool },
          { opcode := .jumpif, line := 3, name := "E", target := 4 },
          { opcode := .input, line := 4, name := "b", kind := .bool },
          { opcode := .jumpif, line := 5, name := "C", target := 5 },
          { opcode := .ret, line := 7 },
          { opcode := .call, line := 9, name := "abiwqynvRvgMoW" },
          { opcode := .ret, line := 10 }] },
      { name := "abiwqynvRvgMoW", labels := [("N", 2)], code := #[
          { opcode := .const, line := 13, value := ⟨.bool, 0, none⟩ },
          { opcode := .jumpif, line := 14, name := "N", target := 2 },
          { opcode := .ret, line := 16 }] }]
    entry := "A" }
  library := .standard

theorem collision_floatFree : collision.FloatFree where
  assembled := ⟨collisionText, by decide +kernel⟩
  const := by decide +kernel
  input := by decide +kernel
  apply := by decide +kernel
  library := .inl rfl

def collisionExplorer : Explorer := { subject := collision.subject }

def collisionSolver : Solver Unit := fun _ _ s =>
  (.ok (.sat ⟨[("a", ⟨.bool, 0, none⟩), ("b", ⟨.bool, 1, none⟩)]⟩), s)

def collisionMoment : Moment :=
  { now := (collisionExplorer.advanceFor collisionSolver 4
      ((collisionExplorer.start false [] false).begin collisionExplorer ∅) ()).1 }

end Machine

open Machine in
theorem skipped_of_collision :
    collisionExplorer.IsFloatFree ∧ MaskedAnswers (Explorer.Answers collisionSolver) ∧
    Moment.Reached collisionExplorer (Explorer.Answers collisionSolver) ∅ collisionMoment ∧
    collisionMoment.now.reason = .exhausted ∧ collisionMoment.now.history.size = 2 ∧
    collisionMoment.now.frontier.counters.skipped = 1 := by
  have masked : collisionSolver.IsMasked := by
    rintro allowance cs s sol ⟨⟩
    decide
  refine ⟨⟨collision, collision_floatFree, rfl⟩, masked.answers, ?_, ?_, ?_, ?_⟩
  · exact (Moment.Reached.begin (Explorer.start_fresh _ _ _ _)).advanceFor
  all_goals decide +kernel

end Concolic
