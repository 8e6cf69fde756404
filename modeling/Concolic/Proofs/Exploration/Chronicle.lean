import Mathlib
import Concolic.Proofs.Exploration.Progress
import Concolic.Proofs.Exploration.Tally
import Concolic.Proofs.Exploration.Termination
import Concolic.Proofs.Ledger

/-!
Chronicles of explorations: what was handed out and what came back, whichever order the coordinator,
the workers and the requests to stop take. The chronicle agrees with the tallies of the exploration at
every moment, and with the report at the end.
-/

namespace Concolic

structure Exploration.Blank (e : Explorer) (x : Exploration) : Prop extends x.Fresh e where
  completed : x.completed = 0
  aborted : x.aborted = 0
  faults : x.faults = #[]

theorem Explorer.start_blank (e : Explorer) (cancelled : Bool)
    (listeners : List (String × Listener)) (heeds : Bool) :
    (e.start cancelled listeners heeds).Blank e := by
  have all {x : Exploration} (h : x.completed = 0 ∧ x.aborted = 0 ∧ x.faults = #[]) :
      let y := listeners.foldl (fun x l => x.subscribe l.1 l.2) x
      y.completed = 0 ∧ y.aborted = 0 ∧ y.faults = #[] := by
    induction listeners generalizing x with
    | nil => exact h
    | cons l ls ih => exact ih h
  have counted : (e.start cancelled listeners heeds).completed = 0 ∧
      (e.start cancelled listeners heeds).aborted = 0 ∧
      (e.start cancelled listeners heeds).faults = #[] := by
    simp only [start]
    split <;> exact all ⟨rfl, rfl, rfl⟩
  exact ⟨e.start_fresh cancelled listeners heeds, counted.1, counted.2.1, counted.2.2⟩

namespace Moment

variable (e : Explorer) (answers : BranchPoint → Except SolverFailure Solution → Prop)

/-- What can happen without handing out or taking back a point. Time that is over stays over. -/
inductive Quiet : Moment → Moment → Prop
  | hear {m : Moment} {p : BranchPoint} {answer : Except SolverFailure Solution} (duration : Int)
      (flying : p ∈ m.now.inFlight) (asking : m.stage p = .asking) (possible : answers p answer) :
      Quiet m ⟨(m.now.hear e p answer duration).2,
        Function.update m.stage p (m.now.hear e p answer duration).1⟩
  | execute {m : Moment} {p : BranchPoint} {status : Satisfiability} {input : Input}
      (running : m.stage p = .running status input) :
      Quiet m ⟨(m.now.execute e input (some p)).2,
        Function.update m.stage p (.done status (m.now.execute e input (some p)).1)⟩
  | cancel (m : Moment) : Quiet m { m with now := { m.now with cancelled := true } }
  | elapse (m : Moment) (remaining : Option Nat)
      (stays : m.now.isExpired = true → { m.now with remaining }.isExpired = true) :
      Quiet m { m with now := { m.now with remaining } }
  | publish (m : Moment) (topic : String) (r : Bus.Record) :
      Quiet m { m with now := m.now.publish topic r }

end Moment

structure Chronicle extends Moment where
  dispatched : List BranchPoint := []
  received : List (BranchPoint × Satisfiability × Option Run) := []

namespace Chronicle

section Steps

variable (e : Explorer) (answers : BranchPoint → Except SolverFailure Solution → Prop)

inductive Step : Chronicle → Chronicle → Prop
  | dispatch {c : Chronicle} {found : Option BranchPoint} {x : Exploration}
      (outcome : c.now.dispatch e = (found.isSome, x))
      (flying : x.inFlight = c.now.inFlight ++ found.toList) :
      Step c { c with now := x, dispatched := c.dispatched ++ found.toList }
  | receive {c : Chronicle} {p : BranchPoint} {status : Satisfiability} {run : Option Run}
      (flying : p ∈ c.now.inFlight) (done : c.stage p = .done status run) :
      Step c { c with
        now := c.now.receive p status run
        stage := Function.update c.stage p .asking
        received := c.received ++ [(p, status, run)] }
  | quiet {c : Chronicle} {m : Moment} (quiet : c.Quiet e answers m) :
      Step c { c with toMoment := m }

abbrev Later : Chronicle → Chronicle → Prop := Relation.ReflTransGen (Step e answers)

structure Reached (x : Exploration) (input : Input) (c : Chronicle) : Prop where
  blank : x.Blank e
  later : Later e answers { now := x.begin e input } c

/-- The coordinator found nothing to hand out while nothing was in flight. What happens until the
report is made is not its doing. -/
def Ends (c : Chronicle) (m : Moment) : Prop :=
  ∃ x, c.now.dispatch e = (false, x) ∧ x.inFlight = [] ∧
    Relation.ReflTransGen (Moment.Quiet e answers) ⟨x, c.stage⟩ m

end Steps

end Chronicle

def Run.numbered (runs : List Run) : List Run := runs.mapIdx fun k r => { r with seq := k + 1 }

theorem Run.numbered_concat (runs : List Run) (r : Run) :
    Run.numbered (runs ++ [r]) = Run.numbered runs ++ [{ r with seq := runs.length + 1 }] := by
  simp [numbered]

theorem Run.length_numbered (runs : List Run) : (Run.numbered runs).length = runs.length := by
  simp [numbered]

namespace Exploration

variable {e : Explorer} {x y : Exploration}

theorem Blank.begin_cases (hx : x.Blank e) (input : Input) :
    ∃ y, Blank e y ∧ (y.cancelled = true ∧ x.begin e input = y ∨
      ∃ r, e.Yields input r ∧ x.begin e input = y.record r none) := by
  unfold begin
  extract_lets z
  have keeps := (note_noted x _ _ _).keeps.trans (z.execute_keeps e input none)
  have aside := (note_aside x _ _ _).trans (z.execute_aside e input none)
  have blank : (z.execute e input none).2.Blank e :=
    ⟨⟨keeps.frontier.trans hx.frontier, keeps.inFlight.trans hx.inFlight,
      keeps.history.trans hx.history, keeps.faulted.trans hx.faulted,
      keeps.divergences.trans hx.divergences⟩,
      aside.completed.trans hx.completed, aside.aborted.trans hx.aborted,
      aside.faults.trans hx.faults⟩
  refine ⟨(z.execute e input none).2, blank, ?_⟩
  rw [← Prod.eta (z.execute e input none)]
  cases hr : (z.execute e input none).1 with
  | none => exact .inl ⟨cancelled_of_execute_none hr, rfl⟩
  | some r => exact .inr ⟨r, .of_execute hr, rfl⟩

section Books

variable {runs : List Run} {r : Run} {input : Input}

structure Booked (e : Explorer) (runs : List Run) (x : Exploration) : Prop where
  history : x.history.toList = Run.numbered runs
  yields : ∀ r ∈ x.history, ∃ i, e.Yields i r
  faults : x.faults.size = x.faulted
  counted : (∀ r ∈ x.history, r.status.isCounted = true) → x.counted = x.history.size

theorem Blank.booked (h : x.Blank e) : x.Booked e [] where
  history := by simp [h.history, Run.numbered]
  yields := by simp [h.history]
  faults := by simp [h.faults, h.faulted]
  counted := by simp [h.history, counted, h.completed, h.faulted, h.aborted]

theorem Booked.record (h : x.Booked e runs) (hr : e.Yields input r) (origin : Option BranchPoint) :
    (x.record r origin).Booked e (runs ++ [r]) := by
  have pushed := (x.record_records r origin).history
  have tallies := x.record_tallies r origin
  have size : x.history.size = runs.length := by
    rw [← Array.length_toList, h.history, Run.length_numbered]
  refine ⟨?_, ?_, tallies.faults h.faults, ?_⟩
  · rw [pushed, Array.toList_push, h.history, Run.numbered_concat, size]
  · intro s hs
    rw [pushed] at hs
    rcases Array.mem_push.mp hs with hs | rfl
    · exact h.yields s hs
    · exact ⟨input, hr.withSeq _⟩
  · intro all
    rw [pushed] at all ⊢
    have before := h.counted fun s hs => all s (Array.mem_push.mpr (.inl hs))
    have status := all { r with seq := x.history.size + 1 } Array.mem_push_self
    rw [tallies.counted, status, Array.size_push, before]
    rfl

end Books

section Receive

variable (x) (p : BranchPoint) (status : Satisfiability) (run : Option Run)

theorem receive_inFlight :
    (x.receive p status run).inFlight = x.inFlight.eraseP (·.key == p.key) := by
  cases run with
  | none => rfl
  | some r => exact (record_records _ r (some p)).inFlight

theorem receive_size :
    (x.receive p status run).history.size = x.history.size + run.toList.length := by
  cases run with
  | none => rfl
  | some r =>
    have pushed := (record_records (x.receive p status none) r (some p)).history
    exact (congrArg Array.size pushed).trans (Array.size_push _)

theorem receive_sat : (x.receive p status run).frontier.counters.sat =
    x.frontier.counters.sat + if status = .sat then 1 else 0 := by
  rw [← (x.frontier.resolve_settles p status).counters.1]
  cases run with
  | none => rfl
  | some r =>
    have frontier := (record_records (x.receive p status none) r (some p)).frontier
    have counters := congrArg Frontier.counters frontier
    rw [Frontier.counters_expand] at counters
    exact congrArg FrontierStats.sat counters

variable {x p}

theorem length_receive (flying : p ∈ x.inFlight) :
    (x.receive p status run).inFlight.length + 1 = x.inFlight.length := by
  have := List.length_pos_of_mem flying
  rw [receive_inFlight, List.length_eraseP_of_mem flying (by simp)]
  omega

theorem Booked.receive {runs : List Run} (h : x.Booked e runs)
    (hr : ∀ r ∈ run, ∃ i, e.Yields i r) :
    (x.receive p status run).Booked e (runs ++ run.toList) := by
  have resolved : (x.receive p status none).Booked e runs :=
    ⟨h.history, h.yields, h.faults, h.counted⟩
  cases run with
  | none => simpa using resolved
  | some r =>
    obtain ⟨i, yields⟩ := hr r rfl
    exact resolved.record yields (some p)

end Receive

structure Rests (x y : Exploration) : Prop where
  keeps : Keeps x y
  aside : Aside x y
  expired : x.isExpired = true → y.isExpired = true

theorem Noted.isExpired (h : Noted x y) : y.isExpired = x.isExpired := by
  rw [h]
  rfl

theorem hear_noted (e : Explorer) (p : BranchPoint) (answer : Except SolverFailure Solution)
    (duration : Int) (x : Exploration) : Noted x (x.hear e p answer duration).2 := by
  have derived := derive_snd_noted e p answer duration x
  unfold hear
  split <;> rename_i hd <;> rw [hd] at derived
  · exact derived
  · exact derived.trans (note_noted _ _ _ _)
  · exact derived.trans (note_noted _ _ _ _)

theorem execute_isExpired (e : Explorer) (input : Input) (origin : Option BranchPoint)
    (x : Exploration) : (x.execute e input origin).2.isExpired = x.isExpired := by
  rw [(execute_noted e input origin x).isExpired]
  rfl

theorem Rests.isOver (h : Rests x y) (hx : x.isOver = true) : y.isOver = true := by
  unfold Exploration.isOver at hx ⊢
  simp only [Bool.or_eq_true] at hx ⊢
  rcases hx with (hc | hs) | ht
  · exact .inl (.inl (h.keeps.cancelled hc))
  · obtain ⟨cause, hcause⟩ := Option.isSome_iff_exists.mp hs
    exact .inl (.inr (Option.isSome_iff_exists.mpr ⟨cause, h.aside.stop cause hcause⟩))
  · exact .inr (h.expired ht)

end Exploration

namespace Moment

variable {e : Explorer} {answers : BranchPoint → Except SolverFailure Solution → Prop}
  {m m' : Moment}

open Exploration

theorem Quiet.rests (h : m.Quiet e answers m') : Rests m.now m'.now := by
  cases h with
  | @hear p answer duration =>
    have noted := hear_noted e p answer duration m.now
    exact ⟨noted.keeps, hear_aside _ _ _ _ _, fun h => noted.isExpired.trans h⟩
  | execute =>
    exact ⟨execute_keeps _ _ _ _, execute_aside _ _ _ _,
      fun h => (execute_isExpired _ _ _ _).trans h⟩
  | cancel => exact ⟨.cancel _, ⟨rfl, rfl, rfl, rfl, .of_eq rfl⟩, id⟩
  | elapse remaining stays => exact ⟨.elapse _ _, ⟨rfl, rfl, rfl, rfl, .of_eq rfl⟩, stays⟩
  | publish topic r =>
    have noted := publish_noted m.now topic r
    exact ⟨noted.keeps, publish_aside _ _ _, fun h => noted.isExpired.trans h⟩

end Moment

def Stage.Fits (e : Explorer) (x : Exploration) : Stage → Prop
  | .asking => True
  | .running status _ => status = .sat
  | .done status run => (∀ r ∈ run, status = .sat ∧ ∃ i, e.Yields i r) ∧
      (status = .sat → run = none → x.cancelled = true)

namespace Stage

variable {e : Explorer} {x y : Exploration}

theorem Fits.mono {stage : Stage} (h : stage.Fits e x)
    (hc : x.cancelled = true → y.cancelled = true) : stage.Fits e y := by
  cases stage with
  | asking => trivial
  | running => exact h
  | done => exact ⟨h.1, fun hs hr => hc (h.2 hs hr)⟩

theorem fits_hear (e : Explorer) (p : BranchPoint) (answer : Except SolverFailure Solution)
    (duration : Int) (x : Exploration) :
    (x.hear e p answer duration).1.Fits e (x.hear e p answer duration).2 := by
  unfold Exploration.hear
  split
  next hd =>
    exact (Exploration.derive_some (congrArg Prod.fst hd)).2.1
  next hd =>
    have := (Exploration.derive_none (congrArg Prod.fst hd)).1
    exact ⟨by simp, fun hs => absurd hs this⟩
  next => exact ⟨by simp, nofun⟩

theorem fits_execute {status : Satisfiability} {input : Input} (origin : Option BranchPoint)
    (h : (Stage.running status input).Fits e x) :
    (Stage.done status (x.execute e input origin).1).Fits e (x.execute e input origin).2 :=
  ⟨fun _ hr => ⟨h, input, .of_execute hr⟩, fun _ hr => Exploration.cancelled_of_execute_none hr⟩

end Stage

namespace Moment

variable {e : Explorer} {answers : BranchPoint → Except SolverFailure Solution → Prop}
  {m m' : Moment}

theorem Quiet.stages (h : m.Quiet e answers m') (hs : ∀ p, (m.stage p).Fits e m.now) (p : BranchPoint) :
    (m'.stage p).Fits e m'.now := by
  have others := (hs p).mono h.rests.keeps.cancelled
  cases h with
  | @hear q answer duration =>
    by_cases hq : p = q
    · subst hq
      simpa using Stage.fits_hear e p answer duration m.now
    · simpa [hq] using others
  | @execute q status input running =>
    by_cases hq : p = q
    · subst hq
      have := Stage.fits_execute (some p) (running ▸ hs p)
      simpa using this
    · simpa [hq] using others
  | cancel => exact others
  | elapse => exact others
  | publish => exact others

end Moment

namespace Chronicle

structure Audited (e : Explorer) (c : Chronicle) (l : Ledger) : Prop where
  balanced : l.Balanced e.settings.maxRetries
  frontier : l.frontier = c.now.frontier
  outstanding : l.outstanding = c.now.inFlight
  returned : l.returned = c.dispatched
  answers : l.answers = c.received.map fun o => (o.1, o.2.1)

/-- The chronicle, the tallies and the limits of an exploration agree. -/
structure Kept (e : Explorer) (c : Chronicle) : Prop where
  audited : ∃ l, c.Audited e l
  workers : c.now.inFlight.length ≤ e.settings.workerCount
  budget : 0 < e.settings.maxRuns →
    ((c.now.history.size + c.now.inFlight.length : Nat) : Int) ≤ max 1 e.settings.maxRuns
  history : ∃ first : Option Run, c.now.history.toList =
    Run.numbered (first.toList ++ c.received.filterMap (·.2.2))
  yields : ∀ r ∈ c.now.history, ∃ i, e.Yields i r
  faults : c.now.faults.size = c.now.faulted
  counted : (∀ r ∈ c.now.history, r.status.isCounted = true) → c.now.counted = c.now.history.size
  runs : c.now.cancelled = false → c.now.history.size = 1 + c.now.frontier.counters.sat
  stages : ∀ p, (c.stage p).Fits e c.now

variable {e : Explorer} {answers : BranchPoint → Except SolverFailure Solution → Prop}
  {c d : Chronicle} {p : BranchPoint}

open BranchPoint

theorem Audited.eraseP_inFlight {l : Ledger} (h : c.Audited e l) (hp : p ∈ c.now.inFlight) :
    c.now.inFlight.eraseP (·.key == p.key) = c.now.inFlight.erase p := by
  have distinct := h.balanced.distinct
  rw [List.map_append, h.outstanding] at distinct
  have keys := (List.nodup_append.mp distinct).2.1
  generalize c.now.inFlight = flying at hp keys
  induction flying with
  | nil => cases hp
  | cons q flying ih =>
    rw [List.map_cons, List.nodup_cons] at keys
    rcases List.mem_cons.mp hp with rfl | hp
    · simp
    · have key : q.key ≠ p.key := fun heq => keys.1 (heq ▸ List.mem_map_of_mem hp)
      have ne : q ≠ p := fun heq => key (heq ▸ rfl)
      rw [List.eraseP_cons_of_neg (by simpa using key), List.erase_cons_tail (by simpa using ne),
        ih hp keys.2]

theorem Audited.keeps {l : Ledger} {m : Moment} (h : c.Audited e l)
    (hk : Exploration.Keeps c.now m.now) : Audited e { c with toMoment := m } l where
  balanced := h.balanced
  frontier := h.frontier.trans hk.frontier.symm
  outstanding := h.outstanding.trans hk.inFlight.symm
  returned := h.returned
  answers := h.answers

theorem Kept.quiet {m : Moment} (h : c.Kept e) (hq : c.Quiet e answers m) :
    Kept e { c with toMoment := m } := by
  have keeps := hq.rests.keeps
  have aside := hq.rests.aside
  obtain ⟨l, audit⟩ := h.audited
  refine ⟨⟨l, audit.keeps keeps⟩, ?_, ?_, ?_, ?_, ?_, ?_, ?_, hq.stages h.stages⟩
  · exact keeps.inFlight ▸ h.workers
  · exact keeps.inFlight ▸ keeps.history ▸ h.budget
  · exact keeps.history ▸ h.history
  · exact keeps.history ▸ h.yields
  · exact aside.faults ▸ aside.faulted ▸ h.faults
  · exact aside.counted ▸ keeps.history ▸ h.counted
  · intro hc
    have := h.runs (keeps.uncancelled hc)
    rwa [← keeps.history, ← keeps.frontier] at this

theorem Audited.give {l : Ledger} {dropped : List BranchPoint} {found : Option BranchPoint}
    {g : Frontier} (h : c.Audited e l) (draws : c.now.frontier.Draws dropped found g) :
    Audited e { c with
      now := { c.now with frontier := g, inFlight := c.now.inFlight ++ found.toList }
      dispatched := c.dispatched ++ found.toList } (l.give found g) where
  balanced := h.balanced.draw (h.frontier ▸ draws)
  frontier := rfl
  outstanding := by simp only [Ledger.give, h.outstanding]
  returned := by simp only [Ledger.give, h.returned]
  answers := h.answers

theorem Kept.dispatch {found : Option BranchPoint} {x : Exploration} (h : c.Kept e)
    (outcome : c.now.dispatch e = (found.isSome, x))
    (flying : x.inFlight = c.now.inFlight ++ found.toList) :
    Kept e { c with now := x, dispatched := c.dispatched ++ found.toList } := by
  obtain ⟨l, audit⟩ := h.audited
  rcases c.now.dispatch_cases e with hd | ⟨found', g, may, hn, hd⟩
  · -- Nothing was found, and nothing changed.
    obtain rfl : x = c.now := congrArg Prod.snd (outcome.symm.trans hd)
    obtain rfl : found = none := by simpa using flying
    simp only [Option.toList_none, List.append_nil]
    exact h
  · obtain rfl := congrArg Prod.snd (outcome.symm.trans hd)
    obtain rfl : found' = found := by
      have := List.append_cancel_left flying
      cases found <;> cases found' <;> simp_all
    obtain ⟨dropped, draws⟩ := Frontier.next_draws hn
    have sat : g.counters.sat = c.now.frontier.counters.sat := by
      obtain ⟨turn, frame⟩ := draws.frame
      rw [frame]
    have free : c.now.inFlight.length < e.settings.workerCount := by
      simp only [Exploration.mayDispatch, Bool.and_eq_true, decide_eq_true_eq] at may
      exact may.1.1
    have room : 0 < e.settings.maxRuns →
        ((c.now.history.size + c.now.inFlight.length : Nat) : Int) < e.settings.maxRuns := by
      simp only [Exploration.mayDispatch, Bool.and_eq_true, Bool.or_eq_true,
        decide_eq_true_eq] at may
      omega
    have one : found'.toList.length ≤ 1 := by cases found' <;> simp
    refine ⟨⟨l.give found' g, audit.give draws⟩, ?_, ?_, h.history, h.yields, h.faults, h.counted, ?_,
      h.stages⟩
    · simp only [List.length_append]
      omega
    · intro hm
      have := room hm
      simp only [List.length_append]
      omega
    · simp only [sat]
      exact h.runs

theorem Audited.blank {x : Exploration} (hx : x.Blank e) :
    Audited e { now := x } (.new e.settings.maxRetries) where
  balanced := Ledger.balanced_new _
  frontier := hx.frontier.symm
  outstanding := hx.inFlight.symm
  returned := rfl
  answers := rfl

theorem Audited.record {l : Ledger} {x : Exploration} {r : Run} {origin : Option BranchPoint}
    (h : c.Audited e l) (hx : c.now.Records r origin x) :
    Audited e { c with now := x } (l.expand { r with seq := c.now.history.size + 1 }) where
  balanced := h.balanced.expand _
  frontier := by simp only [Ledger.expand, h.frontier, hx.frontier]
  outstanding := h.outstanding.trans hx.inFlight.symm
  returned := h.returned
  answers := h.answers

section Receive

variable {status : Satisfiability} {run : Option Run}

theorem Audited.resolve {l : Ledger} (h : c.Audited e l) (flying : p ∈ c.now.inFlight)
    (status : Satisfiability) (run : Option Run) (stage : BranchPoint → Stage) :
    Audited e { c with
      now := c.now.receive p status none
      stage
      received := c.received ++ [(p, status, run)] } (l.resolve p status) := by
  refine ⟨h.balanced.resolve (h.outstanding ▸ flying) status, ?_, ?_, h.returned, ?_⟩
  · simp only [Ledger.resolve, h.frontier, Exploration.receive]
  · simp only [Ledger.resolve, h.outstanding, Exploration.receive, h.eraseP_inFlight flying]
  · simp only [Ledger.resolve, h.answers, List.map_append, List.map_cons, List.map_nil]

theorem Audited.receive {l : Ledger} (h : c.Audited e l) (flying : p ∈ c.now.inFlight)
    (status : Satisfiability) (run : Option Run) (stage : BranchPoint → Stage) :
    ∃ l, Audited e { c with
      now := c.now.receive p status run
      stage
      received := c.received ++ [(p, status, run)] } l := by
  have resolved := h.resolve flying status run stage
  cases run with
  | none => exact ⟨_, resolved⟩
  | some r => exact ⟨_, resolved.record (Exploration.record_records _ r (some p))⟩

theorem Kept.receive (h : c.Kept e) (flying : p ∈ c.now.inFlight)
    (done : c.stage p = .done status run) :
    Kept e { c with
      now := c.now.receive p status run
      stage := Function.update c.stage p .asking
      received := c.received ++ [(p, status, run)] } := by
  obtain ⟨ran, missing⟩ : (Stage.done status run).Fits e c.now := done ▸ h.stages p
  obtain ⟨l, audit⟩ := h.audited
  obtain ⟨first, history⟩ := h.history
  have booked : c.now.Booked e _ := ⟨history, h.yields, h.faults, h.counted⟩
  have after := booked.receive (p := p) status run fun r hr => (ran r hr).2
  have length := Exploration.length_receive status run flying
  have size := c.now.receive_size p status run
  have cancelled := c.now.receive_cancelled p status run
  refine ⟨audit.receive flying status run _, ?_, fun hm => ?_, ⟨first, ?_⟩, after.yields,
    after.faults, after.counted, fun hc => ?_, fun q => ?_⟩
  · have := h.workers
    dsimp only
    omega
  · -- A run takes the place of its point.
    have := h.budget hm
    have : run.toList.length ≤ 1 := by cases run <;> simp
    dsimp only
    omega
  · rw [after.history, List.append_assoc, List.filterMap_append]
    cases run <;> rfl
  · -- Only a run that was called off is missing.
    have found : run.toList.length = if status = .sat then 1 else 0 := by
      cases run with
      | none =>
        have never : status ≠ .sat := fun hs => by
          cases (missing hs rfl).symm.trans (cancelled.symm.trans hc)
        rw [if_neg never]
        rfl
      | some r =>
        rw [if_pos (ran r rfl).1]
        rfl
    have := h.runs (cancelled.symm.trans hc)
    simp only [size, found, c.now.receive_sat p status run]
    omega
  · by_cases hq : q = p
    · subst hq
      simp [Stage.Fits]
    · simpa [hq] using (h.stages q).mono fun hc => cancelled.trans hc

end Receive

theorem Kept.begin {x : Exploration} (hx : x.Blank e) (input : Input) :
    Kept e { now := x.begin e input } := by
  obtain ⟨y, blank, ⟨cancelled, hy⟩ | ⟨r, yields, hy⟩⟩ := hx.begin_cases input
  · have booked := blank.booked
    rw [hy]
    refine ⟨⟨_, .blank blank⟩, ?_, ?_, ⟨none, booked.history⟩, booked.yields, booked.faults,
      booked.counted, ?_, fun _ => trivial⟩
    · simp [blank.inFlight]
    · simp [blank.inFlight, blank.history]
    · intro hc
      cases cancelled.symm.trans hc
  · have booked := blank.booked.record yields none
    have records := y.record_records r none
    rw [hy]
    refine ⟨⟨_, (Audited.blank blank).record records⟩, ?_, ?_, ⟨some r, booked.history⟩,
      booked.yields, booked.faults, booked.counted, ?_, fun _ => trivial⟩
    · simp [records.inFlight, blank.inFlight]
    · simp [records.inFlight, blank.inFlight, records.history, blank.history]
    · simp [records.history, records.frontier, blank.frontier, blank.history]

theorem Kept.step (h : c.Kept e) (hs : Step e answers c d) : d.Kept e := by
  cases hs with
  | dispatch outcome flying => exact h.dispatch outcome flying
  | receive flying done => exact h.receive flying done
  | quiet hq => exact h.quiet hq

theorem Kept.later (h : c.Kept e) (hl : Later e answers c d) : d.Kept e := by
  induction hl with
  | refl => exact h
  | tail _ hs ih => exact ih.step hs

theorem Reached.kept {x : Exploration} {input : Input} (h : c.Reached e answers x input) :
    c.Kept e := (Kept.begin h.blank input).later h.later

theorem Step.broker (h : Step e answers c d) : d.now.broker = c.now.broker := by
  cases h with
  | @dispatch found x outcome =>
    have : x = (c.now.dispatch e).2 := by rw [outcome]
    rcases c.now.dispatch_cases e with hd | ⟨found, g, -, -, hd⟩ <;> rw [hd] at this <;> rw [this]
  | @receive p status run => exact c.now.receive_broker p status run
  | quiet hq => exact hq.rests.keeps.broker

theorem Later.broker (h : Later e answers c d) : d.now.broker = c.now.broker := by
  induction h with
  | refl => rfl
  | tail _ hs ih => exact hs.broker.trans ih

theorem Reached.broker {x : Exploration} {input : Input} (h : c.Reached e answers x input) :
    c.now.broker = x.broker := h.later.broker.trans (x.begin_broker e input)

section Stop

variable {cause : StopCause}

theorem Step.keepsStop (h : Step e answers c d) : Exploration.KeepsStop c.now d.now := by
  cases h with
  | @dispatch found x outcome =>
    have := (c.now.dispatch_aside e).stop
    rwa [outcome] at this
  | receive => exact Exploration.receive_keepsStop _ _ _ _
  | quiet hq => exact hq.rests.aside.stop

theorem dispatch_stopped {x : Exploration} (h : x.stop = some cause) :
    x.dispatch e = (false, x) := by
  simp [Exploration.dispatch, Exploration.mayDispatch, Exploration.isOver, h]

theorem stopped_later (h : Later e answers c d) (hc : c.now.stop = some cause) :
    d.now.stop = some cause ∧ d.dispatched = c.dispatched := by
  induction h with
  | refl => exact ⟨hc, rfl⟩
  | @tail c' d' _ hs ih =>
    refine ⟨hs.keepsStop cause ih.1, ?_⟩
    cases hs with
    | @dispatch found x outcome =>
      rw [dispatch_stopped ih.1] at outcome
      obtain rfl : found = none := by simpa using (congrArg Prod.fst outcome).symm
      simpa using ih.2
    | receive => exact ih.2
    | quiet => exact ih.2

end Stop

end Chronicle

end Concolic
