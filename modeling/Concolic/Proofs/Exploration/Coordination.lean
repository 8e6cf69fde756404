import Mathlib
import Concolic.Proofs.Exploration.Chronicle
import Concolic.Proofs.PathCondition

/-!
Explorations without limits end. The coordinator hands out points until there are none or no worker
is free, and then waits for an outcome, while workers ask and run in any order. No key is handed out
more often than it may be retried, so that each of these happens a bounded number of times; and as
long as the coordinator has not ended, something can happen.
-/

namespace Concolic

open BranchPoint

namespace Frontier

variable {f g : Frontier} {strategy : Strategy}

theorem pending_resolve (f : Frontier) (p : BranchPoint) (status : Satisfiability) :
    (f.resolve p status).pending = f.pending := by
  have settles := f.resolve_settles p status
  generalize f.resolve p status = g at settles
  cases settles <;> rfl

end Frontier

theorem Ledger.Balanced.length_returned_le {l : Ledger} {maxRetries : Int}
    (h : l.Balanced maxRetries) :
    l.returned.length ≤ (maxRetries.toNat + 1) * (l.enqueued.map key).toFinset.card := by
  set keys := (l.enqueued.map key).toFinset
  have known (k : UInt64) (hk : k ∈ ((l.returned.map key : List UInt64) : Multiset UInt64)) :
      k ∈ keys := by
    by_contra unknown
    have unseen : k ∉ l.frontier.seen := by simpa [keys, h.seen] using unknown
    have turns := h.turns k
    have retries := h.retries k
    have absent : (l.enqueued.map key).count k = 0 :=
      List.count_eq_zero_of_not_mem (by simpa [keys] using unknown)
    have present : 0 < (l.returned.map key).count k := List.count_pos_iff.mpr hk
    rw [if_neg unseen] at retries
    omega
  have sum := Multiset.sum_count_eq_card known
  calc
    l.returned.length = ∑ k ∈ keys, (l.returned.map key).count k := by simpa using sum.symm
    _ ≤ ∑ _k ∈ keys, (maxRetries.toNat + 1) := Finset.sum_le_sum fun k _ => h.count_returned_le k
    _ = (maxRetries.toNat + 1) * keys.card := by
      rw [Finset.sum_const, smul_eq_mul, Nat.mul_comm]

namespace Exploration

variable {e : Explorer} {x y : Exploration}

def Stalled (e : Explorer) (x : Exploration) : Prop :=
  x.isOver = true ∨ e.settings.workerCount ≤ x.inFlight.length ∨
    (0 < e.settings.maxRuns ∧
      e.settings.maxRuns ≤ ((x.history.size + x.inFlight.length : Nat) : Int)) ∨
    x.frontier.waiting = []

theorem stalled_of_dispatch (hs : e.strategy.InRange) (h : x.dispatch e = (false, y)) :
    y.Stalled e := by
  obtain ⟨found, g, hn, empty⟩ := Frontier.next_total hs x.frontier
  unfold dispatch at h
  split at h
  next =>
    rw [hn] at h
    cases found with
    | none =>
      cases h
      exact .inr (.inr (.inr (empty rfl)))
    | some p => cases h
  next hm =>
    cases h
    simp only [mayDispatch, Bool.and_eq_true, Bool.or_eq_true, decide_eq_true_eq,
      Bool.not_eq_true', not_and_or, not_or, Bool.not_eq_false] at hm
    rcases hm with (busy | ended) | budget
    · exact .inr (.inl (Nat.le_of_not_lt busy))
    · exact .inl ended
    · exact .inr (.inr (.inl (by omega)))

theorem Stalled.rests (h : x.Stalled e) (hr : x.Rests y) : y.Stalled e := by
  unfold Stalled
  rw [hr.keeps.frontier, hr.keeps.inFlight, hr.keeps.history]
  exact h.imp_left hr.isOver

theorem Stalled.exhausted (h : x.Stalled e) (idle : x.inFlight = []) (free : e.settings.maxRuns ≤ 0)
    (on : x.isOver = false) : x.frontier.waiting = [] := by
  have workers : 0 < e.settings.workerCount := Nat.lt_of_lt_of_le Nat.one_pos (le_max_left _ _)
  rcases h with ended | busy | budget | empty
  · cases on.symm.trans ended
  · rw [idle, List.length_nil] at busy
    omega
  · omega
  · exact empty

end Exploration

namespace Stage

def asked : Stage → Nat
  | .asking => 0
  | _ => 1

def ready : Stage → Nat
  | .done _ _ => 1
  | _ => 0

theorem asked_le (s : Stage) : s.asked ≤ 1 := by
  cases s <;> simp [asked]

theorem ready_le (s : Stage) : s.ready ≤ 1 := by
  cases s <;> simp [ready]

end Stage

/-- A chronicle with the points that were added and what the coordinator does now: it waits for an
outcome or looks for a point to hand out. -/
structure Coordination extends Chronicle where
  enqueued : List BranchPoint := []
  waiting : Bool := false

namespace Coordination

inductive Event
  | handOut | rest | ask | run | takeBack | other
  deriving DecidableEq

def first (e : Explorer) (input : Input) (x : Exploration) : Coordination where
  now := x.begin e input
  enqueued := (x.begin e input).frontier.pending

section Steps

variable (e : Explorer) (answers : BranchPoint → Except SolverFailure Solution → Prop)

inductive Step : Event → Coordination → Coordination → Prop
  | handOut {c : Coordination} {p : BranchPoint} {x : Exploration} (choosing : c.waiting = false)
      (outcome : c.now.dispatch e = (true, x)) (flying : x.inFlight = c.now.inFlight ++ [p]) :
      Step .handOut c { c with now := x, dispatched := c.dispatched ++ [p] }
  | rest {c : Coordination} {x : Exploration} (choosing : c.waiting = false)
      (outcome : c.now.dispatch e = (false, x)) : Step .rest c { c with now := x, waiting := true }
  | ask {c : Coordination} {p : BranchPoint} {answer : Except SolverFailure Solution}
      (duration : Int) (flying : p ∈ c.now.inFlight) (asking : c.stage p = .asking)
      (possible : answers p answer) :
      Step .ask c { c with
        now := (c.now.hear e p answer duration).2
        stage := Function.update c.stage p (c.now.hear e p answer duration).1 }
  | run {c : Coordination} {p : BranchPoint} {status : Satisfiability} {input : Input}
      (running : c.stage p = .running status input) :
      Step .run c { c with
        now := (c.now.execute e input (some p)).2
        stage := Function.update c.stage p (.done status (c.now.execute e input (some p)).1) }
  | takeBack {c : Coordination} {p : BranchPoint} {status : Satisfiability} {run : Option Run}
      (waits : c.waiting = true) (flying : p ∈ c.now.inFlight) (done : c.stage p = .done status run) :
      Step .takeBack c { c with
        now := c.now.receive p status run
        stage := Function.update c.stage p .asking
        received := c.received ++ [(p, status, run)]
        enqueued := c.enqueued ++
          (c.now.receive p status run).frontier.pending.drop c.now.frontier.pending.length
        waiting := false }
  | other {c : Coordination} {x : Exploration} (rests : c.now.Rests x) :
      Step .other c { c with now := x }

inductive Schedule (c : Coordination) : List Event → Coordination → Prop
  | nil : Schedule c [] c
  | concat {es : List Event} {ev : Event} {d d' : Coordination} :
    Schedule c es d → Step e answers ev d d' → Schedule c (es ++ [ev]) d'

end Steps

variable {e : Explorer} {answers : BranchPoint → Except SolverFailure Solution → Prop}
  {c d : Coordination} {es : List Event} {ev : Event} {p : BranchPoint}

def progress (measure : Stage → Nat) (flying : List BranchPoint) (stage : BranchPoint → Stage) : Nat :=
  (flying.map fun p => measure (stage p)).sum

section Progress

variable (measure : Stage → Nat) {flying : List BranchPoint} (stage : BranchPoint → Stage)

theorem progress_le (flying : List BranchPoint) (h : ∀ s, measure s ≤ 1) :
    progress measure flying stage ≤ flying.length := by
  induction flying with
  | nil => exact Nat.le_refl 0
  | cons p flying ih =>
    have := h (stage p)
    simp only [progress, List.map_cons, List.sum_cons, List.length_cons] at ih ⊢
    omega

theorem progress_update_of_notMem (hp : p ∉ flying) (s : Stage) :
    progress measure flying (Function.update stage p s) = progress measure flying stage := by
  refine congrArg List.sum (List.map_congr_left fun q hq => ?_)
  have ne : q ≠ p := fun heq => hp (heq ▸ hq)
  rw [Function.update_of_ne ne]

theorem progress_erase (hp : p ∈ flying) :
    progress measure (flying.erase p) stage + measure (stage p) = progress measure flying stage := by
  have := ((List.perm_cons_erase hp).map fun p => measure (stage p)).sum_eq
  simp only [List.map_cons, List.sum_cons] at this
  simp only [progress, this]
  omega

theorem progress_update (nodup : flying.Nodup) (hp : p ∈ flying) (s : Stage) :
    progress measure flying (Function.update stage p s) + measure (stage p) =
      progress measure flying stage + measure s := by
  have erased : p ∉ flying.erase p := nodup.not_mem_erase
  have before := progress_erase measure stage hp
  have after := progress_erase measure (Function.update stage p s) hp
  rw [progress_update_of_notMem measure stage erased, Function.update_self] at after
  omega

end Progress

def Audited (e : Explorer) (c : Coordination) : Prop :=
  ∃ l, c.toChronicle.Audited e l ∧ l.enqueued = c.enqueued

theorem Audited.nodup (h : c.Audited e) : c.now.inFlight.Nodup := by
  obtain ⟨l, audit, -⟩ := h
  have distinct := audit.balanced.distinct
  rw [List.map_append, audit.outstanding] at distinct
  exact .of_map _ (List.nodup_append.mp distinct).2.1

theorem Audited.length_dispatched (h : c.Audited e) :
    c.dispatched.length = c.received.length + c.now.inFlight.length := by
  obtain ⟨l, audit, -⟩ := h
  have := audit.balanced.answered.length_eq
  simpa [audit.answers, audit.outstanding, audit.returned] using this.symm

theorem Audited.length_dispatched_le (h : c.Audited e) :
    c.dispatched.length ≤
      (e.settings.maxRetries.toNat + 1) * (c.enqueued.map key).toFinset.card := by
  obtain ⟨l, audit, enqueued⟩ := h
  rw [← audit.returned, ← enqueued]
  exact audit.balanced.length_returned_le

structure Tallied (es : List Event) (c : Coordination) : Prop where
  handOut : es.count .handOut = c.dispatched.length
  rest : es.count .rest = c.received.length + c.waiting.toNat
  ask : es.count .ask = c.received.length + progress Stage.asked c.now.inFlight c.stage
  run : es.count .run ≤ c.received.length + progress Stage.ready c.now.inFlight c.stage
  takeBack : es.count .takeBack = c.received.length

theorem Tallied.snoc {d : Coordination} (h : c.Tallied es) (ev : Event)
    (handOut : d.dispatched.length = c.dispatched.length + [ev].count .handOut)
    (rest : d.received.length + d.waiting.toNat =
      c.received.length + c.waiting.toNat + [ev].count .rest)
    (ask : d.received.length + progress Stage.asked d.now.inFlight d.stage =
      c.received.length + progress Stage.asked c.now.inFlight c.stage + [ev].count .ask)
    (run : c.received.length + progress Stage.ready c.now.inFlight c.stage + [ev].count .run ≤
      d.received.length + progress Stage.ready d.now.inFlight d.stage)
    (takeBack : d.received.length = c.received.length + [ev].count .takeBack) :
    d.Tallied (es ++ [ev]) where
  handOut := by rw [List.count_append, h.handOut, handOut]
  rest := by rw [List.count_append, h.rest, rest]
  ask := by rw [List.count_append, h.ask, ask]
  run := by
    rw [List.count_append]
    exact (Nat.add_le_add_right h.run _).trans run
  takeBack := by rw [List.count_append, h.takeBack, takeBack]

structure Regular (e : Explorer) (es : List Event) (c : Coordination) : Prop where
  audited : c.Audited e
  tallied : c.Tallied es
  idle : ∀ p, p ∉ c.now.inFlight → c.stage p = .asking
  stalled : c.waiting = true → c.now.Stalled e

theorem regular_first {input : Input} {x : Exploration} (hx : x.Blank e) :
    Regular e [] (first e input x) := by
  obtain ⟨y, blank, ⟨-, hy⟩ | ⟨r, -, hy⟩⟩ := hx.begin_cases input
  · have audit := Chronicle.Audited.blank blank
    have pending : y.frontier.pending = [] := by rw [blank.frontier]
    refine ⟨⟨.new e.settings.maxRetries, ?_, ?_⟩, ?_, fun _ _ => rfl, nofun⟩
    · rw [first, hy]
      exact audit
    · rw [first, hy, pending]
      rfl
    · constructor <;> simp [first, hy, blank.inFlight, progress]
  · have records := y.record_records r none
    have audit := (Chronicle.Audited.blank blank).record records
    refine ⟨⟨(Ledger.new e.settings.maxRetries).expand { r with seq := y.history.size + 1 }, ?_, ?_⟩,
      ?_, fun _ _ => rfl, nofun⟩
    · rw [first, hy]
      exact audit
    · rw [first, hy, records.frontier, blank.frontier]
      rfl
    · constructor <;> simp [first, hy, records.inFlight, blank.inFlight, progress]

namespace Regular

theorem work {x : Exploration} {s : Stage} (h : Regular e es c) (flying : p ∈ c.now.inFlight)
    (rests : c.now.Rests x)
    (tallied : Tallied (es ++ [ev]) { c with now := x, stage := Function.update c.stage p s }) :
    Regular e (es ++ [ev]) { c with now := x, stage := Function.update c.stage p s } := by
  obtain ⟨l, audit, enqueued⟩ := h.audited
  refine ⟨⟨l, audit.keeps rests.keeps, enqueued⟩, tallied, fun q hq => ?_,
    fun hw => (h.stalled hw).rests rests⟩
  have hq : q ∉ c.now.inFlight := rests.keeps.inFlight ▸ hq
  have ne : q ≠ p := fun heq => hq (heq ▸ flying)
  dsimp only
  rw [Function.update_of_ne ne]
  exact h.idle q hq

theorem ask {answer : Except SolverFailure Solution} (duration : Int) (h : Regular e es c)
    (flying : p ∈ c.now.inFlight) (asking : c.stage p = .asking) (possible : answers p answer) :
    Regular e (es ++ [.ask]) { c with
      now := (c.now.hear e p answer duration).2
      stage := Function.update c.stage p (c.now.hear e p answer duration).1 } := by
  have rests := (Moment.Quiet.hear (m := c.toMoment) (e := e) duration flying asking possible).rests
  refine h.work flying rests ?_
  have same : (c.now.hear e p answer duration).2.inFlight = c.now.inFlight := rests.keeps.inFlight
  have heard := c.now.hear_ne_asking e p answer duration
  have nodup := h.audited.nodup
  generalize (c.now.hear e p answer duration).1 = s at heard
  have asked := progress_update Stage.asked c.stage nodup flying s
  have ready := progress_update Stage.ready c.stage nodup flying s
  have one : s.asked = 1 := by
    cases s with
    | asking => exact absurd rfl heard
    | _ => rfl
  rw [asking, one, show Stage.asking.asked = 0 from rfl] at asked
  rw [asking, show Stage.asking.ready = 0 from rfl] at ready
  refine h.tallied.snoc .ask rfl rfl ?_ ?_ rfl
  · simp only [same, List.count_singleton_self]
    omega
  · simp only [same, show [Event.ask].count .run = 0 from rfl]
    omega

theorem run {status : Satisfiability} {input : Input} (h : Regular e es c)
    (running : c.stage p = .running status input) :
    Regular e (es ++ [.run]) { c with
      now := (c.now.execute e input (some p)).2
      stage := Function.update c.stage p (.done status (c.now.execute e input (some p)).1) } := by
  have flying : p ∈ c.now.inFlight := by
    by_contra absent
    cases running.symm.trans (h.idle p absent)
  have quiet : c.toMoment.Quiet e (fun _ _ => True) _ := .execute running
  have rests := quiet.rests
  refine h.work flying rests ?_
  have same : (c.now.execute e input (some p)).2.inFlight = c.now.inFlight := rests.keeps.inFlight
  have nodup := h.audited.nodup
  have asked := progress_update Stage.asked c.stage nodup flying
    (.done status (c.now.execute e input (some p)).1)
  have ready := progress_update Stage.ready c.stage nodup flying
    (.done status (c.now.execute e input (some p)).1)
  rw [running] at asked ready
  simp only [Stage.asked, Stage.ready] at asked ready
  refine h.tallied.snoc .run rfl rfl ?_ ?_ rfl
  · simp only [same, show [Event.run].count .ask = 0 from rfl]
    omega
  · simp only [same, List.count_singleton_self]
    omega

theorem handOut {x : Exploration} (h : Regular e es c) (choosing : c.waiting = false)
    (outcome : c.now.dispatch e = (true, x)) (flying : x.inFlight = c.now.inFlight ++ [p]) :
    Regular e (es ++ [.handOut]) { c with now := x, dispatched := c.dispatched ++ [p] } := by
  obtain ⟨l, audit, enqueued⟩ := h.audited
  obtain ⟨g, dropped, draws, rfl⟩ : ∃ g dropped, c.now.frontier.Draws dropped (some p) g ∧
      x = { c.now with frontier := g, inFlight := c.now.inFlight ++ [p] } := by
    rcases c.now.dispatch_cases e with hd | ⟨found, g, -, hn, hd⟩
    · cases outcome.symm.trans hd
    · obtain ⟨dropped, draws⟩ := Frontier.next_draws hn
      obtain ⟨hfound, rfl⟩ := Prod.mk.inj (outcome.symm.trans hd)
      obtain rfl : found = some p := by
        have one : found.toList = [p] := List.append_cancel_left flying
        cases found with
        | none => cases one
        | some q => rw [(List.cons.inj one).1]
      exact ⟨g, dropped, draws, rfl⟩
  have audited : Audited e { c with
      now := { c.now with frontier := g, inFlight := c.now.inFlight ++ [p] }
      dispatched := c.dispatched ++ [p] } := ⟨l.give (some p) g, audit.give draws, enqueued⟩
  have asking : c.stage p = .asking := by
    refine h.idle p fun hp => ?_
    exact (List.nodup_append.mp audited.nodup).2.2 p hp p (by simp) rfl
  refine ⟨audited, ?_, fun q hq => h.idle q fun hp => hq (List.mem_append_left _ hp), fun hw => ?_⟩
  · refine h.tallied.snoc .handOut List.length_append rfl ?_ ?_ rfl
    · simp [progress, asking, Stage.asked]
    · simp [progress, asking, Stage.ready]
  · cases choosing.symm.trans hw

theorem rest (hs : e.strategy.InRange) {x : Exploration} (h : Regular e es c)
    (choosing : c.waiting = false) (outcome : c.now.dispatch e = (false, x)) :
    Regular e (es ++ [.rest]) { c with now := x, waiting := true } := by
  obtain ⟨l, audit, enqueued⟩ := h.audited
  obtain ⟨audited, same⟩ : (Audited e { c with now := x, waiting := true }) ∧
      x.inFlight = c.now.inFlight := by
    rcases c.now.dispatch_cases e with hd | ⟨found, g, -, hn, hd⟩
    · obtain rfl : x = c.now := congrArg Prod.snd (outcome.symm.trans hd)
      exact ⟨⟨l, audit, enqueued⟩, rfl⟩
    · obtain ⟨dropped, draws⟩ := Frontier.next_draws hn
      obtain ⟨hfound, rfl⟩ := Prod.mk.inj (outcome.symm.trans hd)
      obtain rfl : found = none := by simpa using hfound.symm
      have given := audit.give draws
      simp only [Option.toList_none, List.append_nil] at given ⊢
      exact ⟨⟨_, given, enqueued⟩, trivial⟩
  refine ⟨audited, ?_, fun q hq => h.idle q (same ▸ hq),
    fun _ => Exploration.stalled_of_dispatch hs outcome⟩
  refine h.tallied.snoc .rest rfl ?_ ?_ ?_ rfl
  · rw [choosing]
    rfl
  · rw [same]
    rfl
  · rw [same]
    rfl

theorem takeBack {status : Satisfiability} {run : Option Run} (h : Regular e es c)
    (waits : c.waiting = true) (flying : p ∈ c.now.inFlight) (done : c.stage p = .done status run) :
    Regular e (es ++ [.takeBack]) { c with
      now := c.now.receive p status run
      stage := Function.update c.stage p .asking
      received := c.received ++ [(p, status, run)]
      enqueued := c.enqueued ++
        (c.now.receive p status run).frontier.pending.drop c.now.frontier.pending.length
      waiting := false } := by
  obtain ⟨l, audit, enqueued⟩ := h.audited
  have nodup := h.audited.nodup
  have same : (c.now.receive p status run).inFlight = c.now.inFlight.erase p := by
    rw [Exploration.receive_inFlight, audit.eraseP_inFlight flying]
  have pending := c.now.frontier.pending_resolve p status
  have resolved := audit.resolve flying status run (Function.update c.stage p .asking)
  have erased : p ∉ c.now.inFlight.erase p := nodup.not_mem_erase
  refine ⟨?_, ?_, fun q hq => ?_, nofun⟩
  · cases run with
    | none =>
      refine ⟨_, resolved, ?_⟩
      have : (c.now.receive p status none).frontier.pending = c.now.frontier.pending := pending
      simp [this, enqueued, Ledger.resolve]
    | some r =>
      have records := Exploration.record_records (c.now.receive p status none) r (some p)
      refine ⟨_, resolved.record records, ?_⟩
      have frontier : (c.now.receive p status (some r)).frontier =
          ((c.now.receive p status none).frontier.expand
            { r with seq := (c.now.receive p status none).history.size + 1 }).2 := records.frontier
      have before : (l.resolve p status).frontier = (c.now.receive p status none).frontier :=
        resolved.frontier
      have length : (c.now.receive p status none).frontier.pending = c.now.frontier.pending := pending
      simp only [Ledger.expand, before, frontier, length]
      rw [← enqueued]
      rfl
  · have asked := progress_erase Stage.asked c.stage flying
    have ready := progress_erase Stage.ready c.stage flying
    rw [done] at asked ready
    simp only [Stage.asked, Stage.ready] at asked ready
    refine h.tallied.snoc .takeBack rfl ?_ ?_ ?_ List.length_append
    · simp [waits]
    · rw [same, progress_update_of_notMem _ _ erased, List.length_append, List.length_singleton,
        show [Event.takeBack].count .ask = 0 from rfl]
      omega
    · rw [same, progress_update_of_notMem _ _ erased, List.length_append, List.length_singleton,
        show [Event.takeBack].count .run = 0 from rfl]
      omega
  · by_cases hqp : q = p
    · subst hqp
      exact Function.update_self ..
    · dsimp only
      rw [Function.update_of_ne hqp]
      refine h.idle q fun hf => hq ?_
      rw [same]
      exact (List.mem_erase_of_ne hqp).mpr hf

theorem other {x : Exploration} (h : Regular e es c) (rests : c.now.Rests x) :
    Regular e (es ++ [.other]) { c with now := x } := by
  obtain ⟨l, audit, enqueued⟩ := h.audited
  have same := rests.keeps.inFlight
  refine ⟨⟨l, audit.keeps (m := { c.toMoment with now := x }) rests.keeps, enqueued⟩, ?_,
    fun q hq => h.idle q (same ▸ hq), fun hw => (h.stalled hw).rests rests⟩
  refine h.tallied.snoc .other rfl rfl ?_ ?_ rfl
  · rw [same]
    rfl
  · rw [same]
    rfl

theorem step (hs : e.strategy.InRange) (h : Regular e es c) (hd : Step e answers ev c d) :
    Regular e (es ++ [ev]) d := by
  cases hd with
  | handOut choosing outcome flying => exact h.handOut choosing outcome flying
  | rest choosing outcome => exact h.rest hs choosing outcome
  | ask duration flying asking possible => exact h.ask duration flying asking possible
  | run running => exact h.run running
  | takeBack waits flying done => exact h.takeBack waits flying done
  | other rests => exact h.other rests

end Regular

theorem Schedule.regular (hs : e.strategy.InRange) {input : Input} {x : Exploration}
    (hx : x.Blank e) (h : Schedule e answers (first e input x) es c) : Regular e es c := by
  induction h with
  | nil => exact regular_first hx
  | concat _ hd ih => exact ih.step hs hd

theorem length_eq_counts (es : List Event) :
    es.length = es.count .handOut + es.count .rest + es.count .ask + es.count .run +
      es.count .takeBack + es.count .other := by
  induction es with
  | nil => rfl
  | cons ev es ih => cases ev <;> simp [ih] <;> omega

structure Bounded (n : Nat) (es : List Event) : Prop where
  handOut : es.count .handOut ≤ n
  rest : es.count .rest ≤ n + 1
  ask : es.count .ask ≤ n
  run : es.count .run ≤ n
  takeBack : es.count .takeBack ≤ n

theorem Regular.bounded (h : Regular e es c) : Bounded c.dispatched.length es := by
  have length := h.audited.length_dispatched
  have asked := progress_le Stage.asked c.stage c.now.inFlight Stage.asked_le
  have ready := progress_le Stage.ready c.stage c.now.inFlight Stage.ready_le
  have waiting : c.waiting.toNat ≤ 1 := Bool.toNat_le _
  obtain ⟨handOut, rest, ask, run, takeBack⟩ := h.tallied
  constructor <;> omega

/-- There are no more keys than numbers of 64 bits. -/
theorem Regular.dispatched_le (h : Regular e es c) :
    c.dispatched.length ≤ (e.settings.maxRetries.toNat + 1) * 2 ^ 64 := by
  refine h.audited.length_dispatched_le.trans (Nat.mul_le_mul_left _ ?_)
  refine (Finset.card_le_univ _).trans_eq ?_
  rw [Explorer.card_keys, twoPow_eq]

theorem Regular.length_le (h : Regular e es c) :
    es.length ≤ es.count .other + (5 * ((e.settings.maxRetries.toNat + 1) * 2 ^ 64) + 1) := by
  have length := length_eq_counts es
  have bound := h.dispatched_le
  obtain ⟨handOut, rest, ask, run, takeBack⟩ := h.bounded
  omega

theorem Schedule.append {es' : List Event} {d' : Coordination} (h : Schedule e answers c es d)
    (h' : Schedule e answers d es' d') : Schedule e answers c (es ++ es') d' := by
  induction h' with
  | nil => simpa using h
  | concat _ hd ih =>
    rw [← List.append_assoc]
    exact ih.concat hd

end Coordination

namespace Explorer

variable {σ : Type} {e : Explorer} {solver : Solver σ} {x : Exploration} {s : σ}

end Explorer

end Concolic
