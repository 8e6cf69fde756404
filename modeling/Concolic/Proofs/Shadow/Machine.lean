import Mathlib
import Concolic.Proofs.Safety.Machine
import Concolic.Proofs.Shadow.State

namespace Concolic.Machine

open ExecM RunState

abbrev Effect := Function → Nat → Instruction → ExecM Unit

def execPlain (setup : Setup) : Effect := fun f pc i =>
  match i.opcode with
  | .input => onState do RunState.push (← RunState.input i.name i.kind).concrete
  | _ => exec setup f pc i

section Effects

def stepBy (effect : Effect) (maxSteps number : Nat) (c : Configuration) :
    Configuration ⊕ (Configuration × Ending) :=
  match c with
  | ⟨[], state, cancelled, stop⟩ => .inr (⟨[], state, cancelled, stop⟩, none)
  | ⟨a :: rest, state, cancelled, stop⟩ =>
    if maxSteps < number then
      .inr (⟨a :: rest, state, cancelled, stop⟩, some (.error { cause := .stepLimit }))
    else if number % 1024 = 0 && cancelled then
      .inr (⟨a :: rest, state, cancelled, stop⟩, some (.error { cause := .cancelled }))
    else
      match a.function.code[a.pc]? with
      | none =>
        .inr (⟨a :: rest, state, cancelled, stop⟩,
          some (.error { cause := .misuse (.missingReturn a.function.name) }))
      | some i =>
        match effect a.function a.pc i
            ⟨{ a with pc := a.pc + 1 } :: rest, state, cancelled, stop⟩ with
        | (.ok (), c) => .inl c
        | (.error e, c) => .inr (c, some (locate a.function i.line e))

def runFromBy (effect : Effect) (maxSteps : Nat) :
    (fuel number : Nat) → Configuration → Configuration × Ending
  | 0, _, c => (c, some (.error { cause := .stepLimit }))
  | fuel + 1, number, c =>
    match stepBy effect maxSteps number c with
    | .inl c => runFromBy effect maxSteps fuel (number + 1) c
    | .inr ended => ended

def runBy (effect : Effect) (setup : Setup) (cancelled : Bool) (s : RunState) :
    Configuration × Ending :=
  match setup.program.function? setup.program.entry with
  | none =>
    ({ calls := [], state := s, cancelled },
      some (.error { cause := .misuse (.noEntry setup.program.entry) }))
  | some f =>
    runFromBy effect setup.maxSteps (setup.maxSteps + 1) 1
      { calls := [{ function := f }], state := s, cancelled }

inductive ReachesBy (effect : Effect) (setup : Setup) (x : Bool) (s : RunState) :
    Nat → Configuration → Prop
  | start {f : Function} : setup.program.function? setup.program.entry = some f →
    ReachesBy effect setup x s 1 { calls := [{ function := f }], state := s, cancelled := x }
  | step {n : Nat} {c d : Configuration} : ReachesBy effect setup x s n c →
    stepBy effect setup.maxSteps n c = .inl d → ReachesBy effect setup x s (n + 1) d

variable {effect : Effect} {setup : Setup} {x : Bool} {s : RunState} {n : Nat} {c : Configuration}

theorem stepBy_exec (setup : Setup) (number : Nat) (c : Configuration) :
    stepBy (exec setup) setup.maxSteps number c = step setup number c := by
  obtain ⟨_ | ⟨a, rest⟩, s, x, y⟩ := c <;> rfl

theorem runBy_exec (setup : Setup) (x : Bool) (s : RunState) :
    runBy (exec setup) setup x s = run setup x s := by
  have hrun (fuel number : Nat) (c : Configuration) :
      runFromBy (exec setup) setup.maxSteps fuel number c = runFrom setup fuel number c := by
    induction fuel generalizing number c with
    | zero => rfl
    | succ fuel ih =>
      rw [runFromBy, runFrom, stepBy_exec]
      cases step setup number c with
      | inl c => exact ih (number + 1) c
      | inr ended => rfl
  unfold runBy run
  cases setup.program.function? setup.program.entry with
  | none => rfl
  | some f => exact hrun ..

theorem reachesBy_exec : ReachesBy (exec setup) setup x s n c ↔ Reaches setup x s n c := by
  constructor
  · intro h
    induction h with
    | start hf => exact .start hf
    | step _ hd ih => exact ih.step (by rwa [stepBy_exec] at hd)
  · intro h
    induction h with
    | start hf => exact .start hf
    | step _ hd ih => exact ih.step (by rwa [stepBy_exec])

theorem stepBy_limit (effect : Effect) (c : Configuration) {maxSteps : Nat} (hn : maxSteps < n) :
    ∃ e, stepBy effect maxSteps n c = .inr (c, e) := by
  obtain ⟨_ | ⟨a, rest⟩, s, x, y⟩ := c
  · exact ⟨_, rfl⟩
  · rw [stepBy, if_pos hn]
    exact ⟨_, rfl⟩

theorem ReachesBy.runBy_eq (h : ReachesBy effect setup x s n c) : n ≤ setup.maxSteps + 1 ∧
    runBy effect setup x s = runFromBy effect setup.maxSteps (setup.maxSteps + 2 - n) n c := by
  induction h with
  | start hf => exact ⟨by omega, by rw [runBy, hf]; rfl⟩
  | @step n c d _ hd ih =>
    have within : n ≤ setup.maxSteps := by
      by_contra hn
      obtain ⟨e, he⟩ := stepBy_limit effect c (Nat.lt_of_not_le hn)
      cases hd.symm.trans he
    refine ⟨by omega, ?_⟩
    have left : setup.maxSteps + 2 - n = setup.maxSteps + 2 - (n + 1) + 1 := by omega
    rw [ih.2, left, runFromBy, hd]

theorem ReachesBy.runBy_of_ended (h : ReachesBy effect setup x s n c)
    {ended : Configuration × Ending} (he : stepBy effect setup.maxSteps n c = .inr ended) :
    runBy effect setup x s = ended := by
  obtain ⟨hn, hr⟩ := h.runBy_eq
  have left : setup.maxSteps + 2 - n = setup.maxSteps + 1 - n + 1 := by omega
  rw [hr, left, runFromBy, he]

end Effects

namespace Configuration

structure StripsTo (c d : Configuration) : Prop where
  calls : d.calls = c.calls
  state : c.state.StripsTo d.state
  cancelled : d.cancelled = c.cancelled
  stop : d.stop = c.stop

structure Tracks (program : Program) (p : Prop) (c d : Configuration) : Prop where
  calls : c.calls = d.calls
  cancelled : c.cancelled = d.cancelled
  stop : c.stop = d.stop
  functions : ∀ a ∈ c.calls, a.function ∈ program.functions
  state : c.state.Tracks p d.state

theorem Tracks.stripsTo {program : Program} {p : Prop} {c d : Configuration}
    (h : c.Tracks program p d) : c.StripsTo d :=
  ⟨h.calls.symm, h.state.toStripsTo, h.cancelled.symm, h.stop.symm⟩

end Configuration

variable {α : Type} {program : Program} {p : Prop} {c d : Configuration} {Q : α → α → Prop}

theorem onState_alongside {m n : RunM α} (h : c.Tracks program p d)
    (hm : Alongside p (RunState.Tracks p) Q (m c.state) (n d.state)) :
    Alongside p (Configuration.Tracks program p) Q (onState m c) (onState n d) := by
  obtain ⟨calls, s, x, y⟩ := c
  obtain ⟨_, t, _, _⟩ := d
  obtain ⟨rfl, rfl, rfl, functions, -⟩ := h
  simp only [onState] at hm ⊢
  generalize m s = a at hm ⊢
  generalize n t = b at hm ⊢
  cases hm with
  | ok ht hq => exact .ok ⟨rfl, rfl, rfl, functions, ht⟩ hq
  | error ht => exact .error ⟨rfl, rfl, rfl, functions, ht⟩
  | crash hp => exact .crash hp

theorem jumpTo_alongside (target : Nat) (h : c.Tracks program p d) :
    Alongside p (Configuration.Tracks program p) Eq (jumpTo target c) (jumpTo target d) := by
  obtain ⟨calls, s, x, y⟩ := c
  obtain ⟨_, t, _, _⟩ := d
  obtain ⟨rfl, rfl, rfl, functions, state⟩ := h
  cases calls with
  | nil => exact .ok ⟨rfl, rfl, rfl, functions, state⟩ rfl
  | cons a rest => exact .ok ⟨rfl, rfl, rfl, by simpa using functions, state⟩ rfl

theorem ofOperation_alongside (h : c.Tracks program p d) (op : Operation) {args : List Value}
    (ha : p → ∀ v ∈ args, v.Regular) :
    Alongside p (Configuration.Tracks program p) (Carries p) (ofOperation (op.apply args) c)
      (ofOperation (op.apply (args.map Value.concrete)) d) := by
  cases hx : op.apply args with
  | ok v =>
    rw [Operation.apply_concrete_of_ok hx]
    refine .ok h ⟨rfl, fun hp => ?_⟩
    rcases op.apply_regular (ha hp) with ⟨_, hv, hr, -⟩ | ⟨_, he⟩
    · cases hx.symm.trans hv
      exact hr
    · cases hx.symm.trans he
  | error f =>
    cases f with
    | error e =>
      rw [Operation.apply_concrete_of_error hx]
      exact .error h
    | defect x =>
      refine .crash fun hp => ?_
      rcases op.apply_regular (ha hp) with ⟨_, hv, -⟩ | ⟨_, he⟩
      · cases hx.symm.trans hv
      · cases hx.symm.trans he

theorem guardDivision_alongside (h : c.Tracks program p d) (pos : String) (op : Operation)
    {divisor : Value} (hd : p → divisor.isValid → divisor.Regular) :
    Alongside p (Configuration.Tracks program p) Eq (guardDivision pos op divisor c)
      (guardDivision pos op divisor.concrete d) := by
  unfold guardDivision
  rw [Value.concrete_kind]
  split
  next hop =>
    have valid : divisor.isValid = true := by
      unfold Value.isValid
      cases hk : divisor.kind <;> simp_all [Kind.invalid, Kind.isIntegral]
    cases hz : Value.zero divisor.kind with
    | error x => exact .error h
    | ok zero =>
      have operands (hp : p) : ∀ v ∈ [divisor, zero], v.Regular := by
        have regular := hd hp valid
        obtain ⟨u, hu, -⟩ := id regular
        obtain ⟨z, hz', hzr, -⟩ := Value.exists_zero hu
        cases hz.symm.trans hz'
        simpa using ⟨regular, hzr⟩
      have compared := ofOperation_alongside h .ne operands
      rw [List.map_cons, List.map_cons, Value.concrete_of_zero hz, List.map_nil] at compared
      refine compared.bind fun v u c d h hv => ?_
      rw [hv.1]
      exact (onState_alongside h (recordBranch_alongside h.state _ v)).discard
  next => exact .ok h rfl

theorem getD_regular {vs : List Value} (h : ∀ v ∈ vs, v.Regular) (n : Nat)
    (hv : (vs.getD n .unset).isValid) : (vs.getD n .unset).Regular := by
  rw [List.getD_eq_getElem?_getD] at hv ⊢
  cases hn : vs[n]? with
  | none =>
    rw [hn] at hv
    cases hv
  | some v => exact h v (List.mem_of_getElem? hn)

theorem applyOperation_alongside (h : c.Tracks program p d) (pos : String) (op : Operation) :
    Alongside p (Configuration.Tracks program p) Eq (applyOperation pos op c)
      (applyOperation pos op d) := by
  refine (onState_alongside h (popN_alongside _ h.state)).bind fun vs _ c d h hvs => ?_
  obtain ⟨rfl, regular⟩ := hvs
  rw [getD_concrete]
  refine (guardDivision_alongside h pos op fun hp => getD_regular (regular hp) 1).bind
    fun _ _ c d h _ => ?_
  refine (ofOperation_alongside h op regular).bind fun v u c d h hv => ?_
  exact onState_alongside h (hv.push h.state)

theorem storeFrom_alongside {s t : RunState} {vs : List Value} (slot : Nat) (h : s.Tracks p t)
    (hv : p → ∀ v ∈ vs, v.Regular) :
    Alongside p (RunState.Tracks p) Eq (storeFrom slot vs s)
      (storeFrom slot (vs.map Value.concrete) t) := by
  induction vs generalizing slot s t with
  | nil => exact .ok h rfl
  | cons v vs ih =>
    simp only [List.forall_mem_cons] at hv
    refine (store_alongside slot h ⟨rfl, fun hp => (hv hp).1⟩).bind fun _ _ s t h _ => ?_
    exact ih (slot + 1) h fun hp => (hv hp).2

theorem callFunction_alongside (h : c.Tracks program p d) (name : String) :
    Alongside p (Configuration.Tracks program p) Eq (callFunction program name c)
      (callFunction program name d) := by
  unfold callFunction
  cases hf : program.function? name with
  | none => exact .error h
  | some f =>
    have entered : Alongside p (RunState.Tracks p) Eq
        ((do
          let args ← RunState.popN f.params
          RunState.enter f.name f.slotLimit
          storeFrom 0 args : RunM Unit) c.state)
        ((do
          let args ← RunState.popN f.params
          RunState.enter f.name f.slotLimit
          storeFrom 0 args : RunM Unit) d.state) := by
      refine (popN_alongside _ h.state).bind fun vs _ s t h hvs => ?_
      obtain ⟨rfl, regular⟩ := hvs
      refine (enter_alongside h f.name f.slotLimit).bind fun _ _ s t h _ => ?_
      exact storeFrom_alongside 0 h regular
    refine (onState_alongside h entered).bind fun _ _ c d h _ => ?_
    refine .ok ⟨congrArg (List.cons _) h.calls, h.cancelled, h.stop, ?_, h.state⟩ rfl
    exact List.forall_mem_cons.mpr ⟨List.mem_of_find?_eq_some hf, h.functions⟩

theorem leaveFrame_alongside {s t : RunState} (h : s.Tracks p t) :
    Alongside p (RunState.Tracks p) Eq (leaveFrame s) (leaveFrame t) := by
  have empty : t.frame.stack.isEmpty = s.frame.stack.isEmpty := by
    rw [h.frame, Frame.concrete, List.isEmpty_map]
  rw [leaveFrame_apply, leaveFrame_apply, empty]
  split
  · exact leave_alongside h
  · refine (pop_alongside h).bind fun v u s t h hv => ?_
    refine (leave_alongside h).bind fun _ _ s t h _ => ?_
    have valid : u.isValid = v.isValid := by rw [hv.1, Value.isValid_concrete]
    rw [valid]
    split
    · exact hv.push h
    · exact .ok h rfl

theorem returnFromCall_alongside (h : c.Tracks program p d) :
    Alongside p (Configuration.Tracks program p) Eq (returnFromCall c) (returnFromCall d) := by
  have tail : Configuration.Tracks program p { c with calls := c.calls.tail }
      { d with calls := d.calls.tail } :=
    ⟨congrArg List.tail h.calls, h.cancelled, h.stop,
      fun a ha => h.functions a (List.mem_of_mem_tail ha), h.state⟩
  rw [returnFromCall_apply, returnFromCall_apply]
  simp only [← h.calls] at tail ⊢
  split
  · exact .ok tail rfl
  · exact onState_alongside tail (leaveFrame_alongside h.state)

theorem askModel_alongside {library : Library} (hr : library.AllReliable)
    (ht : library.AllTransparent) (h : c.Tracks program p d) (name : String) {args : List Value}
    (ha : p → ∀ v ∈ args, v.Regular) :
    Alongside p (Configuration.Tracks program p)
      (fun r r' => r' = r.concrete ∧ (p → r.value.isValid → r.value.Regular))
      (askModel library name args c) (askModel library name (args.map Value.concrete) d) := by
  obtain ⟨calls, s, x, y⟩ := c
  obtain ⟨_, t, _, _⟩ := d
  obtain ⟨rfl, rfl, rfl, functions, state⟩ := h
  obtain ⟨e, e', he, he', hok⟩ := ht.invoke name args
  have reply (hp : p) : ∃ r, e = .ok r ∧ (r.value.isValid → r.value.Regular) := by
    obtain ⟨r, hi, hv⟩ := hr.invoke name (ha hp) s
    rw [he] at hi
    exact ⟨r, congrArg ModelEffect.result hi, hv⟩
  simp only [askModel, he, he']
  cases e with
  | error x =>
    refine .crash fun hp => ?_
    obtain ⟨r, hr, -⟩ := reply hp
    cases hr
  | ok r =>
    rw [hok r rfl]
    refine .ok ⟨rfl, rfl, rfl, functions, state⟩ ⟨rfl, fun hp => ?_⟩
    obtain ⟨_, hr, hv⟩ := reply hp
    cases hr
    exact hv

theorem acceptResult_alongside (h : c.Tracks program p d) {r : ModelResult}
    (hr : p → r.value.isValid → r.value.Regular) :
    Alongside p (Configuration.Tracks program p) Eq (acceptResult r c)
      (acceptResult r.concrete d) := by
  have refusal : r.concrete.error? = r.error? := rfl
  have valid : r.concrete.value.isValid = r.value.isValid := rfl
  unfold acceptResult
  rw [refusal, valid]
  cases r.error? with
  | some e => exact .error h
  | none =>
    dsimp only
    split
    · exact onState_alongside h (push_alongside h.state hr)
    · exact .ok h rfl

theorem invokeModel_alongside {library : Library} (hr : library.AllReliable)
    (ht : library.AllTransparent) (h : c.Tracks program p d) (name : String) (count : Nat) :
    Alongside p (Configuration.Tracks program p) Eq (invokeModel library name count c)
      (invokeModel library name count d) := by
  refine (onState_alongside h (popN_alongside _ h.state)).bind fun vs _ c d h hvs => ?_
  obtain ⟨rfl, regular⟩ := hvs
  refine (askModel_alongside hr ht h name regular).bind fun r _ c d h hv => ?_
  obtain ⟨rfl, hv⟩ := hv
  exact acceptResult_alongside h hv

theorem requestStop_alongside (h : c.Tracks program p d) (message trigger : String) :
    Alongside p (Configuration.Tracks program p) Eq (requestStop message trigger c)
      (requestStop message trigger d) := by
  refine .error ⟨rfl, h.cancelled, ?_, by simp, h.state⟩
  simp only [h.state.id]

structure Setup.Transparent (setup : Setup) : Prop where
  functions : ∀ f ∈ setup.program.functions, f.Proper
  reliable : setup.library.AllReliable
  transparent : setup.library.AllTransparent

variable {setup : Setup}

theorem exec_alongside (hs : setup.Transparent) (f : Function) (pc : Nat) {i : Instruction}
    (hi : i.Proper) (h : c.Tracks setup.program p d) :
    Alongside p (Configuration.Tracks setup.program p) Eq (exec setup f pc i c)
      (execPlain setup f pc i d) := by
  unfold execPlain exec
  cases ho : i.opcode with
  | nop => exact .ok h rfl
  | const =>
    obtain ⟨⟨w, hw⟩, he⟩ := hi.concrete ho
    obtain ⟨u, hu⟩ := Kind.exists_shape hw
    have pushed := push_alongside h.state (v := i.value) fun _ _ => ⟨u, hu, by simp [he]⟩
    rw [Value.concrete_of_expr he] at pushed
    exact onState_alongside h pushed
  | input =>
    obtain ⟨w, hw⟩ := hi.input ho
    obtain ⟨u, hu⟩ := Kind.exists_shape hw
    refine onState_alongside h ((input_alongside h.state i.name hu).bind fun v u s t h hv => ?_)
    rw [hv.1]
    exact push_alongside h fun hp _ => hv.2 hp
  | load =>
    exact onState_alongside h ((load_alongside _ h.state).bind fun _ _ _ _ h hv => hv.push h)
  | store =>
    exact onState_alongside h ((pop_alongside h.state).bind fun _ _ _ _ h hv =>
      store_alongside _ h hv)
  | dup =>
    exact onState_alongside h ((peek_alongside h.state).bind fun _ _ _ _ h hv => hv.push h)
  | pop => exact onState_alongside h (pop_alongside h.state).discard
  | swap =>
    refine onState_alongside h ((popN_alongside _ h.state).bind fun vs _ s t h hvs => ?_)
    obtain ⟨rfl, regular⟩ := hvs
    rw [getD_concrete, getD_concrete]
    refine (push_alongside h fun hp => getD_regular (regular hp) 1).bind fun _ _ s t h _ => ?_
    exact push_alongside h fun hp => getD_regular (regular hp) 0
  | apply => exact applyOperation_alongside h _ _
  | jump => exact jumpTo_alongside _ h
  | jumpif =>
    have tested : Alongside p (RunState.Tracks p) Eq
        ((do RunState.recordBranch (position f pc) (← RunState.pop) : RunM Bool) c.state)
        ((do RunState.recordBranch (position f pc) (← RunState.pop) : RunM Bool) d.state) := by
      refine (pop_alongside h.state).bind fun v _ s t h hv => ?_
      obtain ⟨rfl, -⟩ := hv
      exact recordBranch_alongside h _ v
    refine (onState_alongside h tested).bind fun taken _ c d h ht => ?_
    subst ht
    cases taken with
    | true => exact jumpTo_alongside _ h
    | false => exact .ok h rfl
  | call => exact callFunction_alongside h _
  | ret => exact returnFromCall_alongside h
  | invoke => exact invokeModel_alongside hs.reliable hs.transparent h _ _
  | fault => exact .error h
  | halt => exact requestStop_alongside h _ _
  | unknown => exact .error h

inductive StepAlongside (program : Program) (p : Prop) :
    Configuration ⊕ (Configuration × Ending) → Configuration ⊕ (Configuration × Ending) → Prop
  | on {c d : Configuration} : c.Tracks program p d → StepAlongside program p (.inl c) (.inl d)
  | ended {c d : Configuration} {e : Ending} : c.Tracks program p d →
    StepAlongside program p (.inr (c, e)) (.inr (d, e))
  | crash {c : Configuration} {x : Defect} {y : Configuration ⊕ (Configuration × Ending)} : ¬p →
    StepAlongside program p (.inr (c, some (.defect x))) y

theorem step_alongside (hs : setup.Transparent) (number : Nat) (h : c.Tracks setup.program p d) :
    StepAlongside setup.program p (stepBy (exec setup) setup.maxSteps number c)
      (stepBy (execPlain setup) setup.maxSteps number d) := by
  obtain ⟨_ | ⟨a, rest⟩, s, x, y⟩ := c
  · obtain ⟨_, t, _, _⟩ := d
    obtain ⟨rfl, rfl, rfl, functions, state⟩ := h
    exact .ended ⟨rfl, rfl, rfl, functions, state⟩
  · obtain ⟨_, t, _, _⟩ := d
    obtain ⟨rfl, rfl, rfl, functions, state⟩ := h
    have same : Configuration.Tracks setup.program p ⟨a :: rest, s, x, y⟩ ⟨a :: rest, t, x, y⟩ :=
      ⟨rfl, rfl, rfl, functions, state⟩
    simp only [stepBy]
    split
    · exact .ended same
    · split
      · exact .ended same
      · cases hi : a.function.code[a.pc]? with
        | none => exact .ended same
        | some i =>
          rw [List.forall_mem_cons] at functions
          have proper := hs.functions _ functions.1 i (Array.mem_of_getElem? hi)
          have moved : Configuration.Tracks setup.program p
              ⟨{ a with pc := a.pc + 1 } :: rest, s, x, y⟩
              ⟨{ a with pc := a.pc + 1 } :: rest, t, x, y⟩ :=
            ⟨rfl, rfl, rfl, List.forall_mem_cons.mpr functions, state⟩
          have done := exec_alongside hs a.function a.pc proper moved
          dsimp only
          generalize exec setup a.function a.pc i _ = u at done ⊢
          generalize execPlain setup a.function a.pc i _ = v at done ⊢
          cases done with
          | ok ht _ => exact .on ht
          | error ht => exact .ended ht
          | crash hp => exact .crash hp

section Run

variable {x : Bool} {s : RunState} {n : Nat}

theorem start_tracks (h : s.Tracks p s) {f : Function}
    (hf : setup.program.function? setup.program.entry = some f) :
    Configuration.Tracks setup.program p
      { calls := [{ function := f }], state := s, cancelled := x }
      { calls := [{ function := f }], state := s, cancelled := x } :=
  ⟨rfl, rfl, rfl, by simpa using List.mem_of_find?_eq_some hf, h⟩

theorem ReachesBy.plain (hs : setup.Transparent) (h : s.Tracks p s)
    (hc : ReachesBy (exec setup) setup x s n c) :
    ∃ d, ReachesBy (execPlain setup) setup x s n d ∧ c.Tracks setup.program p d := by
  induction hc with
  | start hf => exact ⟨_, .start hf, start_tracks h hf⟩
  | @step n c c' _ hc' ih =>
    obtain ⟨d, hd, hcd⟩ := ih
    have both := step_alongside hs n hcd
    rw [hc'] at both
    generalize hy : stepBy (execPlain setup) setup.maxSteps n d = y at both
    -- The run goes on, so that it neither ended nor crashed.
    cases both with
    | on h => exact ⟨_, hd.step hy, h⟩

theorem ReachesBy.full (hs : setup.Transparent) (h : s.Tracks p s)
    (hx : p ∨ ∀ y, (runBy (exec setup) setup x s).2 ≠ some (.defect y))
    (hd : ReachesBy (execPlain setup) setup x s n d) :
    ∃ c, ReachesBy (exec setup) setup x s n c ∧ c.Tracks setup.program p d := by
  induction hd with
  | start hf => exact ⟨_, .start hf, start_tracks h hf⟩
  | @step n d d' _ hd' ih =>
    obtain ⟨c, hc, hcd⟩ := ih
    have both := step_alongside hs n hcd
    rw [hd'] at both
    generalize hy : stepBy (exec setup) setup.maxSteps n c = y at both
    cases both with
    | on h => exact ⟨_, hc.step hy, h⟩
    | @crash e y _ hp =>
      -- A crash is the end of the run.
      rw [hc.runBy_of_ended hy] at hx
      exact absurd rfl (hx.resolve_left hp y)

theorem run_alongside (hs : setup.Transparent) (h : s.Tracks p s)
    (hx : p ∨ ∀ y, (runBy (exec setup) setup x s).2 ≠ some (.defect y))
    (hc : ReachesBy (exec setup) setup x s n c)
    (he : stepBy (exec setup) setup.maxSteps n c = .inr (runBy (exec setup) setup x s)) :
    (runBy (exec setup) setup x s).1.StripsTo (runBy (execPlain setup) setup x s).1 ∧
      (runBy (execPlain setup) setup x s).2 = (runBy (exec setup) setup x s).2 := by
  obtain ⟨d, hd, hcd⟩ := hc.plain hs h
  have both := step_alongside hs n hcd
  rw [he] at both
  generalize hy : stepBy (execPlain setup) setup.maxSteps n d = y at both
  generalize runBy (exec setup) setup x s = r at both hx ⊢
  cases both with
  | ended h =>
    rw [hd.runBy_of_ended hy]
    exact ⟨h.stripsTo, rfl⟩
  | @crash _ y _ hp => exact absurd rfl (hx.resolve_left hp y)

end Run

end Machine

theorem RunState.tracks_self (id : String) (given : Input)
    (defaults : String → Kind → Except Defect Value) :
    let s : RunState := { id, given, defaults }
    s.Tracks s.Faithful s where
  id := rfl
  given := rfl
  defaults := rfl
  declared := rfl
  frame := rfl
  callers := rfl
  path := rfl
  status := rfl
  reason := rfl
  frozen := rfl
  shapely := fun h => ⟨.new .., by simp, h⟩

theorem RunState.faithful_of_policy [Generator] {s : RunState} {policy : DefaultPolicy} {seed : Int64}
    (h : s.defaults = policy.value seed) : s.Faithful := by
  intro name kind shape v hk hv
  obtain ⟨u, hu, hku, -⟩ := policy.value_fits seed name (Kind.width_of_shape hk)
  rw [h, hu] at hv
  cases hv
  rwa [hku]

namespace Machine

open RunState

/-- Terms never steer a run. Step by step the plain machine is in the same place of the program,
with the same values in its frames, the same branches taken and the same inputs declared, and it
comes to the same end. A default value that its variable cannot stand for may make the run crash over
a term, and then only the plain machine goes on. -/
theorem terms_never_steer {text : String} {p : Program} (hp : Program.parse text = .ok p)
    {library : Library} (hl : library = .standard ∨ library = .empty) (maxSteps : Nat)
    (cancelled : Bool) (id : String) (given : Input)
    (defaults : String → Kind → Except Defect Value) :
    let setup : Setup := { program := p, library, maxSteps }
    let s : RunState := { id, given, defaults }
    let r := run setup cancelled s
    let r' := runBy (execPlain setup) setup cancelled s
    (∀ n c, Reaches setup cancelled s n c →
      ∃ d, ReachesBy (execPlain setup) setup cancelled s n d ∧ c.StripsTo d) ∧
    (s.Faithful ∨ (∀ x, r.2 ≠ some (.defect x)) →
      (∀ n d, ReachesBy (execPlain setup) setup cancelled s n d →
        ∃ c, Reaches setup cancelled s n c ∧ c.StripsTo d) ∧
      r.1.StripsTo r'.1 ∧ r'.2 = r.2) := by
  intro setup s r r'
  have hs : setup.Transparent :=
    ⟨Program.parse_proper hp, Library.allReliable_of hl, Library.allTransparent_of hl⟩
  have start := RunState.tracks_self id given defaults
  have hr : r = runBy (exec setup) setup cancelled s := (runBy_exec setup cancelled s).symm
  simp only [← reachesBy_exec, hr]
  refine ⟨fun n c hc => ?_, fun hx => ⟨fun n d hd => ?_, ?_⟩⟩
  · obtain ⟨d, hd, h⟩ := hc.plain hs start
    exact ⟨d, hd, h.stripsTo⟩
  · obtain ⟨c, hc, h⟩ := hd.full hs start hx
    exact ⟨c, hc, h.stripsTo⟩
  · obtain ⟨f, hf⟩ := (Program.parse_linked hp).1
    obtain ⟨n, c, hc, he⟩ := (Reaches.start (x := cancelled) (s := s) hf).ends
      (show 1 + (setup.maxSteps + 1) = setup.maxSteps + 2 by omega)
    refine run_alongside hs start hx (reachesBy_exec.mpr hc) ?_
    rw [stepBy_exec, he, runBy_exec, run, hf]

def partsText : String :=
  "func main\n input x int\n invoke Math.abs 1\n input n int\n div\n input r float\n" ++
  " const float 0.5\n lt\n jumpif low\n return\nlow:\n fault low\nend\n"

def parts : Program where
  functions := [
    { name := "main", labels := [("low", 9)], code := #[
        { opcode := .input, line := 2, name := "x", kind := .int },
        { opcode := .invoke, line := 3, name := "Math.abs", count := 1 },
        { opcode := .input, line := 4, name := "n", kind := .int },
        { opcode := .apply, line := 5, operation := .div },
        { opcode := .input, line := 6, name := "r", kind := .float },
        { opcode := .const, line := 7, value := ⟨.float, 0x3F000000, none⟩ },
        { opcode := .apply, line := 8, operation := .lt },
        { opcode := .jumpif, line := 9, name := "low", target := 9 },
        { opcode := .ret, line := 10 },
        { opcode := .fault, line := 12, name := "low" }] }]
  entry := "main"

theorem terms_never_steer_parts :
    let setup : Setup := { program := parts, library := .standard, maxSteps := 100 }
    let s : RunState := {
      id := "r"
      given := ⟨[("n", ⟨.int, 2, none⟩), ("x", ⟨.int, 0xFFFFFFF7, none⟩)]⟩
      defaults := DefaultPolicy.zero.value 0 }
    let r := run setup false s
    let r' := runBy (execPlain setup) setup false s
    Program.parse partsText = .ok parts ∧
    r.2 = some (.error { site := some ("main", 12), cause := .fault "low" }) ∧
    r.1.state.frame.stack.map (fun v => (v.bits, v.isConcrete)) = [(4, false)] ∧
    r.1.state.path.toList.map Branch.direction = [("main:3/div", true), ("main:7", true)] ∧
    r.1.StripsTo r'.1 ∧ r'.2 = r.2 := by
  intro setup s r r'
  have parsed : Program.parse partsText = .ok parts := by decide +kernel
  have defaults : s.defaults = DefaultPolicy.zero.value 0 := rfl
  obtain ⟨-, same⟩ := terms_never_steer parsed (.inl rfl) 100 false "r" s.given s.defaults
  exact ⟨parsed, by decide +kernel, by decide +kernel, by decide +kernel,
    (same (.inl (RunState.faithful_of_policy defaults))).2⟩

def incrementText : String := "func main\n input x int\n const long 1\n add\n pop\n return\nend\n"

def increment : Program where
  functions := [
    { name := "main", code := #[
        { opcode := .input, line := 2, name := "x", kind := .int },
        { opcode := .const, line := 3, value := ⟨.long, 1, none⟩ },
        { opcode := .apply, line := 4, operation := .add },
        { opcode := .pop, line := 5 },
        { opcode := .ret, line := 6 }] }]
  entry := "main"

/-- The default value is of a longer kind than its variable, so that the sum has no term. -/
theorem longer_default_crashes :
    let setup : Setup := { program := increment, library := .standard }
    let s : RunState := { id := "r", defaults := fun _ _ => .ok ⟨.long, 5, none⟩ }
    Program.parse incrementText = .ok increment ∧
    (run setup false s).2 =
      some (.defect (.operandWidths .add (.var "x" .int) (.const (.ofNat 1 64)))) ∧
    (runBy (execPlain setup) setup false s).2 = none := by
  decide +kernel

end Concolic.Machine
