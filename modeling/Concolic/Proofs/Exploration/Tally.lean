import Mathlib
import Concolic.Proofs.Exploration.Schedule
import Concolic.Proofs.Exploration.Yield

namespace Concolic

namespace Exploration

variable {x y z : Exploration}

def KeepsStop (x y : Exploration) : Prop := ∀ cause, x.stop = some cause → y.stop = some cause

theorem KeepsStop.refl (x : Exploration) : KeepsStop x x := fun _ h => h

theorem KeepsStop.trans (h : KeepsStop x y) (h' : KeepsStop y z) : KeepsStop x z :=
  fun cause hc => h' cause (h cause hc)

theorem KeepsStop.of_eq (h : y.stop = x.stop) : KeepsStop x y := fun _ hc => h.trans hc

theorem requestStop_keepsStop (x : Exploration) (r : Bus.Record) :
    KeepsStop x (x.requestStop r) := by
  intro cause hc
  simp [requestStop, hc]

theorem foldl_keepsStop {α : Type} {f : Exploration → α → Exploration}
    (hf : ∀ x a, KeepsStop x (f x a)) (l : List α) (x : Exploration) :
    KeepsStop x (l.foldl f x) := by
  induction l generalizing x with
  | nil => exact .refl x
  | cons a l ih => exact (hf x a).trans (ih (f x a))

theorem deliver_keepsStop {ask : Bus.Record → Exploration → Exploration}
    (ha : ∀ r x, KeepsStop x (ask r x)) (topic : String) (r : Bus.Record) (x : Exploration)
    (s : Bus.Subscription Listener) : KeepsStop x (deliver ask topic r x s) := by
  unfold deliver
  split
  · exact .of_eq rfl
  · exact requestStop_keepsStop x r
  · dsimp only
    split
    · exact .trans (y := { x with heard := x.heard + 1 }) (.of_eq rfl)
        (foldl_keepsStop (fun x r => ha r x) _ _)
    · exact .of_eq rfl

theorem publishWithin_keepsStop (depth : Nat) (topic : String) (r : Bus.Record) (x : Exploration) :
    KeepsStop x (publishWithin depth topic r x) := by
  induction depth generalizing topic r x with
  | zero => exact .refl x
  | succ depth ih => exact foldl_keepsStop (deliver_keepsStop (ih Bus.stopTopic) topic r) _ x

end Exploration

structure StopCause.Quotes (cause : StopCause) (r : Bus.Record) : Prop where
  message : cause.message = ((r.get? "message").map Bus.Datum.render).getD ""
  trigger : cause.trigger = ((r.get? "trigger").map Bus.Datum.render).getD ""

theorem StopCause.quotes_ofRecord (r : Bus.Record) : (StopCause.ofRecord r).Quotes r := ⟨rfl, rfl⟩

namespace Exploration

section Requests

variable {P P' : Bus.Record → Prop} {b : Bus.Broker Listener} {x y z : Exploration} {r : Bus.Record}

def Heeds (x : Exploration) : Prop :=
  ∃ s ∈ x.broker.recipients Bus.stopTopic, s.listener = .controller

def Echoes (b : Bus.Broker Listener) (r : Bus.Record) : Prop :=
  ∃ s ∈ b.recipients Bus.stopTopic, ∃ rule, s.listener = .rule rule ∧ r ∈ rule.records

/-- What an exploration stops for when a request is made: the first request that its controller
hears. -/
def StopsFor (x : Exploration) (r : Bus.Record) (cause : StopCause) : Prop :=
  match x.stop with
  | some before => cause = before
  | none => ∃ first, cause.Quotes first ∧ (first = r ∨ Echoes x.broker first)

def Hears (P : Bus.Record → Prop) (x y : Exploration) : Prop :=
  y.stop = x.stop ∨ x.stop = none ∧ ∃ first, P first ∧ y.stop = some (.ofRecord first)

theorem Hears.mono (h : Hears P x y) (hP : ∀ r, P r → P' r) : Hears P' x y := by
  obtain h | ⟨hx, first, hf, hy⟩ := h
  · exact .inl h
  · exact .inr ⟨hx, first, hP first hf, hy⟩

theorem Hears.trans (h : Hears P x y) (h' : Hears P y z) : Hears P x z := by
  obtain hy | ⟨hx, first, hf, hy⟩ := h
  · unfold Hears at h' ⊢
    rwa [hy] at h'
  · obtain hz | ⟨hn, -⟩ := h'
    · exact .inr ⟨hx, first, hf, hz.trans hy⟩
    · cases hn.symm.trans hy

theorem requestStop_hears (hr : P r) (x : Exploration) : Hears P x (x.requestStop r) := by
  unfold requestStop
  cases hx : x.stop with
  | none => exact .inr ⟨hx, r, hr, rfl⟩
  | some cause => exact .inl rfl

theorem requestStop_isSome (x : Exploration) (r : Bus.Record) :
    (x.requestStop r).stop.isSome = true := by
  unfold requestStop
  split
  next hx => simp [hx]
  next => rfl

theorem foldl_hears {α : Type} {f : Exploration → α → Exploration} {l : List α}
    (hf : ∀ x, x.broker = b → ∀ a ∈ l, Hears P x (f x a) ∧ (f x a).broker = b)
    (hx : x.broker = b) : Hears P x (l.foldl f x) := by
  induction l generalizing x with
  | nil => exact .inl rfl
  | cons a l ih =>
    obtain ⟨heard, kept⟩ := hf x hx a List.mem_cons_self
    exact heard.trans (ih (fun y hy c hc => hf y hy c (List.mem_cons_of_mem a hc)) kept)

theorem deliver_hears {ask : Bus.Record → Exploration → Exploration} {topic : String}
    {s : Bus.Subscription Listener} (ha : ∀ r x, Noted x (ask r x))
    (controller : s.listener = .controller → P r)
    (rule : ∀ rule, s.listener = .rule rule → ∀ r ∈ rule.records, ∀ x, x.broker = b →
      Hears P x (ask r x))
    (hx : x.broker = b) : Hears P x (deliver ask topic r x s) := by
  unfold deliver
  split
  next => exact .inl rfl
  next hl => exact requestStop_hears (controller hl) x
  next fired hl =>
    dsimp only
    split
    · refine foldl_hears (x := { x with heard := x.heard + 1 }) (fun y hy r hr => ?_) hx
      exact ⟨rule fired hl r hr y hy, (ha r y).keeps.broker.trans hy⟩
    · exact .inl rfl

theorem publishWithin_hears (depth : Nat) (r : Bus.Record) (hx : x.broker = b) :
    Hears (fun first => first = r ∨ Echoes b first) x (publishWithin depth Bus.stopTopic r x) := by
  induction depth generalizing r x with
  | zero => exact .inl rfl
  | succ depth ih =>
    have noted := publishWithin_noted depth Bus.stopTopic
    rw [publishWithin, hx]
    refine foldl_hears (fun y hy s hs => ⟨?_, ?_⟩) hx
    · refine deliver_hears noted (fun _ => .inl rfl) (fun rule hl r' hr' z hz => ?_) hy
      -- Requests of a rule go to the same listeners, so they may be the first to be heard.
      refine (ih r' hz).mono fun first hf => .inr ?_
      rcases hf with rfl | echoed
      · exact ⟨s, hs, rule, hl, hr'⟩
      · exact echoed
    · exact (deliver_noted noted _ _ y s).keeps.broker.trans hy

theorem publish_isSome (h : x.Heeds) (r : Bus.Record) :
    (x.publish Bus.stopTopic r).stop.isSome = true := by
  obtain ⟨s, hs, hl⟩ := h
  obtain ⟨before, after, split⟩ := List.append_of_mem hs
  rw [publish, publishWithin, split, List.foldl_append, List.foldl_cons]
  generalize before.foldl _ x = y
  have asked : (deliver (publishWithin 2 Bus.stopTopic) Bus.stopTopic r y s).stop.isSome = true := by
    simpa only [deliver, hl] using requestStop_isSome y r
  -- Whoever listens after the controller leaves the request as it is.
  obtain ⟨cause, hc⟩ := Option.isSome_iff_exists.mp asked
  rw [foldl_keepsStop (deliver_keepsStop (publishWithin_keepsStop 2 Bus.stopTopic) _ r) after _
    cause hc]
  rfl

theorem publish_stopsFor (h : x.Heeds) (r : Bus.Record) :
    ∃ cause, (x.publish Bus.stopTopic r).stop = some cause ∧ x.StopsFor r cause := by
  obtain ⟨cause, hc⟩ := Option.isSome_iff_exists.mp (publish_isSome h r)
  refine ⟨cause, hc, ?_⟩
  unfold StopsFor
  rcases publishWithin_hears 3 r (rfl : x.broker = x.broker) with kept | ⟨hx, first, hf, hy⟩
  · rw [show x.stop = some cause from kept.symm.trans hc]
  · obtain rfl := Option.some.inj (hc.symm.trans hy)
    rw [hx]
    exact ⟨first, StopCause.quotes_ofRecord first, hf⟩

theorem noteConclusion_stop (x : Exploration) (id : String) (c : Conclusion) :
    (x.noteConclusion id c).stop = x.stop := by
  unfold noteConclusion
  split
  · split <;> rfl
  · rfl

theorem execute_stopsFor {e : Explorer} {input : Input} {r : Bus.Record} (h : x.Heeds)
    (asks : (x.conclusion e input).stop = some r) (origin : Option BranchPoint) :
    ∃ cause, (x.execute e input origin).2.stop = some cause ∧ x.StopsFor r cause := by
  set c := x.conclusion e input with hc
  set y := { x with begun := x.begun + 1, cancelled := x.cancelled || c.cancelled }.note .debug
    ("[run] begin: " ++ input.text) [("run", x.nextId)] with hy
  obtain ⟨cause, stop, stops⟩ := publish_stopsFor (x := y) h r
  have announced : (x.announce input c).stop = some cause := by
    rw [announce, asks]
    exact stop
  refine ⟨cause, ?_, stops⟩
  simp only [execute, ← hc]
  split
  · exact announced
  · exact (noteConclusion_stop _ _ c).trans announced

theorem start_heeds (e : Explorer) (cancelled : Bool) (listeners : List (String × Listener)) :
    (e.start cancelled listeners true).Heeds := by
  have opened {x : Exploration} (hx : x.broker.closed = false) :
      (listeners.foldl (fun x l => x.subscribe l.1 l.2) x).broker.closed = false := by
    induction listeners generalizing x with
    | nil => exact hx
    | cons l ls ih => exact ih hx
  simp only [Explorer.start, if_true]
  generalize hy : listeners.foldl _ _ = y
  have hc : y.broker.closed = false := hy ▸ opened rfl
  refine ⟨{ number := y.broker.issued + 1, topic := Bus.stopTopic, listener := .controller }, ?_, rfl⟩
  simp [Bus.Broker.recipients, subscribe, Bus.Broker.subscribe, hc]

end Requests

structure Aside (x y : Exploration) : Prop where
  completed : y.completed = x.completed
  faulted : y.faulted = x.faulted
  aborted : y.aborted = x.aborted
  faults : y.faults = x.faults
  stop : KeepsStop x y

theorem Aside.trans (h : Aside x y) (h' : Aside y z) : Aside x z where
  completed := h'.completed.trans h.completed
  faulted := h'.faulted.trans h.faulted
  aborted := h'.aborted.trans h.aborted
  faults := h'.faults.trans h.faults
  stop := h.stop.trans h'.stop

theorem Noted.aside (h : Noted x y) (hs : KeepsStop x y) : Aside x y := by
  refine ⟨?_, ?_, ?_, ?_, hs⟩ <;> rw [h]

theorem note_aside (x : Exploration) (level : LogLevel) (message : String)
    (fields : List (String × String)) : Aside x (x.note level message fields) :=
  (note_noted x level message fields).aside (.of_eq rfl)

theorem publish_aside (x : Exploration) (topic : String) (r : Bus.Record) :
    Aside x (x.publish topic r) :=
  (publish_noted x topic r).aside (publishWithin_keepsStop 3 topic r x)

theorem noteConclusion_aside (x : Exploration) (id : String) (c : Conclusion) :
    Aside x (x.noteConclusion id c) :=
  (noteConclusion_noted x id c).aside (.of_eq (noteConclusion_stop x id c))

theorem publishStop_aside (x : Exploration) (stop : Option Bus.Record) :
    Aside x (x.publishStop stop) := by
  cases stop with
  | none => exact ⟨rfl, rfl, rfl, rfl, .refl x⟩
  | some r => exact publish_aside x Bus.stopTopic r

theorem announce_aside (x : Exploration) (input : Input) (c : Conclusion) :
    Aside x (x.announce input c) := by
  unfold announce
  refine .trans ?_ (publishStop_aside _ _)
  exact .trans (y := { x with begun := x.begun + 1, cancelled := x.cancelled || c.cancelled })
    ⟨rfl, rfl, rfl, rfl, .of_eq rfl⟩ (note_aside _ _ _ _)

theorem execute_aside (e : Explorer) (input : Input) (origin : Option BranchPoint)
    (x : Exploration) : Aside x (x.execute e input origin).2 := by
  simp only [execute]
  split
  · exact (announce_aside _ _ _).trans (note_aside _ _ _ _)
  · exact ((announce_aside _ _ _).trans (noteConclusion_aside _ _ _)).trans (note_aside _ _ _ _)

theorem hear_aside (e : Explorer) (p : BranchPoint) (answer : Except SolverFailure Solution)
    (duration : Int) (x : Exploration) : Aside x (x.hear e p answer duration).2 := by
  have derived : Aside x (x.derive e p answer duration).2 := by
    unfold derive
    split
    · exact ⟨rfl, rfl, rfl, rfl, .refl x⟩
    · exact publish_aside _ _ _
  unfold hear
  split <;> rename_i hd <;> rw [hd] at derived
  · exact derived
  · exact derived.trans (note_aside _ _ _ _)
  · exact derived.trans (note_aside _ _ _ _)

theorem dispatch_aside (e : Explorer) (x : Exploration) : Aside x (x.dispatch e).2 := by
  rcases x.dispatch_cases e with hd | ⟨found, g, -, -, hd⟩ <;> rw [hd] <;>
    exact ⟨rfl, rfl, rfl, rfl, .of_eq rfl⟩

theorem checkDivergence_aside (x : Exploration) (run : Run) (origin : Option BranchPoint) :
    Aside x (x.checkDivergence run origin) := by
  unfold checkDivergence
  split
  · exact ⟨rfl, rfl, rfl, rfl, .refl x⟩
  · split
    · exact ⟨rfl, rfl, rfl, rfl, .refl x⟩
    · exact .trans (y := { x with divergences := x.divergences + 1 })
        ⟨rfl, rfl, rfl, rfl, .of_eq rfl⟩ (note_aside _ _ _ _)

end Exploration

def RunStatus.isCounted : RunStatus → Bool
  | .completed | .faulted | .aborted => true
  | .running | .other _ => false

namespace Exploration

variable {x y z : Exploration} {status : RunStatus}

def counted (x : Exploration) : Nat := x.completed + x.faulted + x.aborted

structure Tallies (x : Exploration) (status : RunStatus) (y : Exploration) : Prop where
  counted : y.counted = x.counted + if status.isCounted then 1 else 0
  faults : x.faults.size = x.faulted → y.faults.size = y.faulted
  stop : KeepsStop x y

theorem Aside.counted (h : Aside x y) : y.counted = x.counted := by
  rw [Exploration.counted, Exploration.counted, h.completed, h.faulted, h.aborted]

theorem Tallies.aside (h : Tallies x status y) (ha : Aside y z) : Tallies x status z where
  counted := ha.counted.trans h.counted
  faults := fun hx => by rw [ha.faults, ha.faulted, h.faults hx]
  stop := h.stop.trans ha.stop

theorem reportFault_tallies {run : Run}
    (hc : y.counted = x.counted + if run.status.isCounted then 1 else 0)
    (hf : y.faulted = x.faulted + if run.status = .faulted then 1 else 0)
    (hs : y.faults = x.faults) (stop : KeepsStop x y) :
    Tallies x run.status (y.reportFault run) := by
  unfold reportFault
  split
  next hfault =>
    refine .aside ?_ ((note_aside _ _ _ _).trans (publish_aside _ _ _))
    refine ⟨hc, fun hx => ?_, stop⟩
    simp only [Array.size_push, hs, hf, if_pos hfault, hx]
  next hfault =>
    refine ⟨hc, fun hx => ?_, stop⟩
    rw [hf, hs, if_neg hfault, hx]
    rfl

theorem count_tallies (x : Exploration) (status : RunStatus) :
    (x.count status).counted = x.counted + (if status.isCounted then 1 else 0) ∧
      (x.count status).faulted = x.faulted + (if status = .faulted then 1 else 0) ∧
      (x.count status).faults = x.faults ∧ (x.count status).stop = x.stop := by
  cases status <;> simp [count, counted, RunStatus.isCounted] <;> omega

theorem record_tallies (x : Exploration) (run : Run) (origin : Option BranchPoint) :
    Tallies x run.status (x.record run origin) := by
  unfold record
  set run' : Run := { run with seq := x.history.size + 1 }
  obtain ⟨tally, faulted, faults, stop⟩ :=
    count_tallies { x with history := x.history.push run' } run'.status
  dsimp only
  generalize Exploration.count _ run'.status = y at tally faulted faults stop ⊢
  refine .aside ?_ (publish_aside _ _ _)
  have aside : Aside y (({ y with frontier := (y.frontier.expand run').2 }.checkDivergence run'
      origin).publish Bus.runTopic run'.record) := by
    refine .trans ?_ (publish_aside _ _ _)
    refine .trans (y := { y with frontier := (y.frontier.expand run').2 }) ?_
      (checkDivergence_aside _ _ _)
    exact ⟨rfl, rfl, rfl, rfl, .of_eq rfl⟩
  have tallies : Tallies x run'.status _ := reportFault_tallies (aside.counted.trans tally)
    (aside.faulted.trans faulted) (aside.faults.trans faults)
    ((KeepsStop.of_eq stop).trans aside.stop)
  exact tallies

theorem receive_keepsStop (x : Exploration) (p : BranchPoint) (status : Satisfiability)
    (run : Option Run) : KeepsStop x (x.receive p status run) := by
  cases run with
  | none => exact .of_eq rfl
  | some r =>
    have tallies := record_tallies { x with
      inFlight := x.inFlight.eraseP (·.key == p.key)
      frontier := x.frontier.resolve p status } r (some p)
    exact fun cause hc => tallies.stop cause hc

end Exploration

end Concolic
