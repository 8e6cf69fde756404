import Mathlib
import Concolic.Exploration.Basic

namespace Concolic

namespace Exploration

def Noted (x y : Exploration) : Prop :=
  y = { x with stop := y.stop, events := y.events, heard := y.heard, log := y.log }

variable {x y z : Exploration}

theorem Noted.refl (x : Exploration) : Noted x x := rfl

theorem Noted.trans (h : Noted x y) (h' : Noted y z) : Noted x z := by
  unfold Noted at h h' ⊢
  rw [h'] at *
  rw [h]

theorem note_noted (x : Exploration) (level : LogLevel) (message : String)
    (fields : List (String × String)) : Noted x (x.note level message fields) := rfl

theorem requestStop_noted (x : Exploration) (r : Bus.Record) : Noted x (x.requestStop r) := by
  unfold requestStop
  split <;> rfl

theorem foldl_noted {α : Type} {f : Exploration → α → Exploration} (hf : ∀ x a, Noted x (f x a))
    (l : List α) (x : Exploration) : Noted x (l.foldl f x) := by
  induction l generalizing x with
  | nil => exact .refl x
  | cons a l ih => exact (hf x a).trans (ih (f x a))

theorem deliver_noted {ask : Bus.Record → Exploration → Exploration}
    (ha : ∀ r x, Noted x (ask r x)) (topic : String) (r : Bus.Record) (x : Exploration)
    (s : Bus.Subscription Listener) : Noted x (deliver ask topic r x s) := by
  unfold deliver
  split
  · rfl
  · exact requestStop_noted x r
  · dsimp only
    split
    · exact .trans (y := { x with heard := x.heard + 1 }) rfl (foldl_noted (fun x r => ha r x) _ _)
    · rfl

theorem publishWithin_noted (depth : Nat) (topic : String) (r : Bus.Record) (x : Exploration) :
    Noted x (publishWithin depth topic r x) := by
  induction depth generalizing topic r x with
  | zero => exact .refl x
  | succ depth ih => exact foldl_noted (deliver_noted (ih Bus.stopTopic) topic r) _ x

theorem publish_noted (x : Exploration) (topic : String) (r : Bus.Record) :
    Noted x (x.publish topic r) := publishWithin_noted 3 topic r x

theorem noteConclusion_noted (x : Exploration) (id : String) (c : Conclusion) :
    Noted x (x.noteConclusion id c) := by
  unfold noteConclusion
  split
  · split <;> rfl
  · rfl

theorem publishStop_noted (x : Exploration) (stop : Option Bus.Record) :
    Noted x (x.publishStop stop) := by
  cases stop with
  | none => rfl
  | some r => exact publish_noted x Bus.stopTopic r

theorem Noted.cancelled {y : Exploration} (h : Noted x y) : y.cancelled = x.cancelled := by rw [h]

theorem announce_noted (x : Exploration) (input : Input) (c : Conclusion) :
    Noted { x with begun := x.begun + 1, cancelled := x.cancelled || c.cancelled }
      (x.announce input c) :=
  (note_noted _ _ _ _).trans (publishStop_noted _ _)

theorem execute_noted (e : Explorer) (input : Input) (origin : Option BranchPoint) (x : Exploration) :
    Noted { x with begun := x.begun + 1, cancelled := x.cancelled || (x.conclusion e input).cancelled }
      (x.execute e input origin).2 := by
  simp only [execute]
  split
  · exact (announce_noted _ _ _).trans (note_noted _ _ _ _)
  · exact ((announce_noted _ _ _).trans (noteConclusion_noted _ _ _)).trans (note_noted _ _ _ _)

theorem execute_fst (e : Explorer) (input : Input) (origin : Option BranchPoint) (x : Exploration) :
    (x.execute e input origin).1 =
      if (x.cancelled || (x.conclusion e input).cancelled) && (x.conclusion e input).isCalledOff
      then none
      else some ((x.conclusion e input).record x.nextId ((origin.map (·.run.id)).getD "")) := by
  simp only [execute, (announce_noted _ _ _).cancelled]
  split <;> rfl

structure Keeps (x y : Exploration) : Prop where
  frontier : y.frontier = x.frontier
  inFlight : y.inFlight = x.inFlight
  history : y.history = x.history
  faulted : y.faulted = x.faulted
  divergences : y.divergences = x.divergences
  broker : y.broker = x.broker
  cancelled : x.cancelled = true → y.cancelled = true

theorem Keeps.trans (h : Keeps x y) (h' : Keeps y z) : Keeps x z where
  frontier := h'.frontier.trans h.frontier
  inFlight := h'.inFlight.trans h.inFlight
  history := h'.history.trans h.history
  faulted := h'.faulted.trans h.faulted
  divergences := h'.divergences.trans h.divergences
  broker := h'.broker.trans h.broker
  cancelled := h'.cancelled ∘ h.cancelled

theorem Keeps.uncancelled (h : Keeps x y) (hy : y.cancelled = false) : x.cancelled = false := by
  rw [← Bool.not_eq_true]
  intro hx
  cases (h.cancelled hx).symm.trans hy

theorem Keeps.cancel (x : Exploration) : Keeps x { x with cancelled := true } :=
  ⟨rfl, rfl, rfl, rfl, rfl, rfl, fun _ => rfl⟩

theorem Keeps.elapse (x : Exploration) (remaining : Option Nat) :
    Keeps x { x with remaining } :=
  ⟨rfl, rfl, rfl, rfl, rfl, rfl, id⟩

theorem Noted.keeps (h : Noted x y) : Keeps x y := by
  rw [h]
  exact ⟨rfl, rfl, rfl, rfl, rfl, rfl, id⟩

theorem execute_keeps (e : Explorer) (input : Input) (origin : Option BranchPoint)
    (x : Exploration) : Keeps x (x.execute e input origin).2 := by
  refine .trans ?_ (execute_noted e input origin x).keeps
  exact ⟨rfl, rfl, rfl, rfl, rfl, rfl, fun h => by simp [h]⟩

theorem cancelled_of_execute_none {e : Explorer} {input : Input} {origin : Option BranchPoint}
    (h : (x.execute e input origin).1 = none) : (x.execute e input origin).2.cancelled = true := by
  rw [execute_fst] at h
  rw [(execute_noted e input origin x).cancelled]
  split at h
  next hc => exact (Bool.and_eq_true_iff.mp hc).1
  next => cases h

theorem derive_snd_noted (e : Explorer) (p : BranchPoint) (answer : Except SolverFailure Solution)
    (duration : Int) (x : Exploration) : Noted x (x.derive e p answer duration).2 := by
  unfold derive
  split
  · rfl
  · exact publish_noted _ _ _

/-- What taking in a run changes. Only a run that missed the direction it was derived for counts as a
divergence. -/
structure Records (x : Exploration) (run : Run) (origin : Option BranchPoint) (y : Exploration) :
    Prop where
  history : y.history = x.history.push { run with seq := x.history.size + 1 }
  frontier : y.frontier = (x.frontier.expand { run with seq := x.history.size + 1 }).2
  inFlight : y.inFlight = x.inFlight
  faulted : y.faulted = x.faulted + if run.status = .faulted then 1 else 0
  divergences : (∀ p ∈ origin, p.key ∈ y.frontier.covered) → y.divergences = x.divergences
  cancelled : y.cancelled = x.cancelled
  broker : y.broker = x.broker

theorem Records.noted {run : Run} {origin : Option BranchPoint} (h : Records x run origin y)
    (hn : Noted y z) : Records x run origin z := by
  rw [hn]
  exact ⟨h.history, h.frontier, h.inFlight, h.faulted, h.divergences, h.cancelled, h.broker⟩

theorem count_frame (x : Exploration) (status : RunStatus) :
    ∃ completed aborted, x.count status = { x with
      completed, aborted, faulted := x.faulted + if status = .faulted then 1 else 0 } := by
  cases status <;> exact ⟨_, _, rfl⟩

theorem reportFault_noted (x : Exploration) (run : Run) :
    ∃ faults, Noted { x with faults } (x.reportFault run) := by
  unfold reportFault
  split
  · exact ⟨_, (note_noted _ _ _ _).trans (publish_noted _ _ _)⟩
  · exact ⟨x.faults, rfl⟩

theorem checkDivergence_noted (x : Exploration) (run : Run) (origin : Option BranchPoint) :
    ∃ divergences, Noted { x with divergences } (x.checkDivergence run origin) ∧
      ((∀ p ∈ origin, p.key ∈ x.frontier.covered) → divergences = x.divergences) := by
  unfold checkDivergence
  split
  · exact ⟨_, rfl, fun _ => rfl⟩
  · split
    next => exact ⟨_, rfl, fun _ => rfl⟩
    next hc =>
      refine ⟨_, note_noted _ _ _ _, fun h => absurd (h _ rfl) ?_⟩
      rwa [Std.TreeSet.mem_iff_contains]

theorem record_records (x : Exploration) (run : Run) (origin : Option BranchPoint) :
    Records x run origin (x.record run origin) := by
  unfold record
  set run' : Run := { run with seq := x.history.size + 1 }
  obtain ⟨completed, aborted, hcount⟩ :=
    count_frame { x with history := x.history.push run' } run'.status
  simp only [hcount]
  generalize hy : checkDivergence _ run' origin = y
  have base : Records x run origin y := by
    obtain ⟨divergences, hn, hd⟩ := checkDivergence_noted
      { x with
        history := x.history.push run', completed, aborted
        faulted := x.faulted + if run'.status = .faulted then 1 else 0
        frontier := (x.frontier.expand run').2 } run' origin
    rw [← hy]
    refine .noted ?_ hn
    exact ⟨rfl, rfl, rfl, rfl, hd, rfl, rfl⟩
  obtain ⟨faults, hn⟩ := reportFault_noted (y.publish Bus.runTopic run'.record) run'
  have published := base.noted (publish_noted y Bus.runTopic run'.record)
  refine .noted (.noted ?_ hn) (publish_noted _ _ _)
  exact ⟨published.history, published.frontier, published.inFlight, published.faulted,
    published.divergences, published.cancelled, published.broker⟩

theorem receive_cancelled (x : Exploration) (p : BranchPoint) (status : Satisfiability)
    (run : Option Run) : (x.receive p status run).cancelled = x.cancelled := by
  cases run with
  | none => rfl
  | some r => exact (record_records _ r (some p)).cancelled

theorem receive_broker (x : Exploration) (p : BranchPoint) (status : Satisfiability)
    (run : Option Run) : (x.receive p status run).broker = x.broker := by
  cases run with
  | none => rfl
  | some r => exact (record_records _ r (some p)).broker

theorem begin_broker (e : Explorer) (input : Input) (x : Exploration) :
    (x.begin e input).broker = x.broker := by
  unfold begin
  extract_lets y
  have executed : (y.execute e input none).2.broker = x.broker := (y.execute_keeps e input none).broker
  rw [← Prod.eta (y.execute e input none)]
  cases (y.execute e input none).1 with
  | none => exact executed
  | some r => exact (record_records _ r none).broker.trans executed

theorem dispatch_cases (e : Explorer) (x : Exploration) :
    x.dispatch e = (false, x) ∨ ∃ found g, x.mayDispatch e = true ∧
      x.frontier.next e.strategy = .ok (found, g) ∧
      x.dispatch e =
        (found.isSome, { x with frontier := g, inFlight := x.inFlight ++ found.toList }) := by
  unfold dispatch
  split
  next hm =>
    cases hn : x.frontier.next e.strategy with
    | error d => exact .inl rfl
    | ok drawn =>
      obtain ⟨found, g⟩ := drawn
      refine .inr ⟨found, g, hm, rfl, ?_⟩
      cases found <;> simp
  next => exact .inl rfl

end Exploration

end Concolic
