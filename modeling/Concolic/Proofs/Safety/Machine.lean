import Mathlib
import Concolic.Proofs.Exploration.Yield
import Concolic.Proofs.Safety.State

/-!
Assembled programs do not go wrong. The call stack of the machine and the frames of the state stay
level, every value keeps the shape of its kind, and so every instruction either goes through or ends
the run by an error of the program.
-/

namespace Concolic.Machine

open ExecM RunState

structure Instruction.Ready (p : Program) (i : Instruction) : Prop where
  const : i.opcode = .const → i.value.Regular
  input : i.opcode = .input → ∃ u, i.kind.shape? = some u
  call : i.opcode = .call → ∃ f, p.function? i.name = some f
  count : i.count < 2 ^ 31

structure Program.Ready (p : Program) : Prop where
  entry : ∃ f, p.function? p.entry = some f
  params : ∀ f ∈ p.functions, f.params < 2 ^ 31
  code : ∀ f ∈ p.functions, ∀ i ∈ f.code, i.Ready p

structure Setup.Ready (setup : Setup) : Prop where
  program : setup.program.Ready
  library : setup.library.AllReliable

namespace Configuration

structure Level (p : Program) (n : Nat) (c : Configuration) : Prop where
  functions : ∀ a ∈ c.calls, a.function ∈ p.functions
  depth : c.calls.length = n + 1
  state : c.state.Regular n

inductive Regular (p : Program) : Configuration → Prop
  | ended {c : Configuration} : c.calls = [] → Regular p c
  | running {n : Nat} {c : Configuration} : c.Level p n → Regular p c

theorem Level.withState {p : Program} {n : Nat} {c : Configuration} (h : c.Level p n)
    {s : RunState} (hs : s.Regular n) : Level p n { c with state := s } :=
  ⟨h.functions, h.depth, hs⟩

end Configuration

variable {α : Type} {p : Program} {n : Nat} {c : Configuration}

theorem onState_safe {m : RunM α} {Q : α → RunState → Prop} {R : α → Configuration → Prop}
    (hm : Safe Q (m c.state)) (hR : ∀ a s, Q a s → R a { c with state := s }) :
    Safe R (onState m c) := by
  obtain ⟨calls, s, x, y⟩ := c
  simp only [onState] at hm ⊢
  generalize m s = r at hm ⊢
  cases hm with
  | ok hq => exact .ok (hR _ _ hq)
  | error he => exact .error he

theorem onState_regular {m : RunM α} (h : c.Level p n)
    (hm : Safe (fun _ s => s.Regular n) (m c.state)) :
    Safe (fun _ c => c.Regular p) (onState m c) :=
  onState_safe hm fun _ _ hs => .running (h.withState hs)

theorem jumpTo_safe (h : c.Level p n) (target : Nat) :
    Safe (fun _ c => c.Regular p) (jumpTo target c) := by
  obtain ⟨calls, s, x, y⟩ := c
  cases calls with
  | nil => cases h.depth
  | cons a rest =>
    refine .ok (.running ⟨?_, h.depth, h.state⟩)
    simpa using h.functions

theorem ofOperation_safe (h : c.Level p n) (op : Operation) {args : List Value}
    (ha : ∀ v ∈ args, v.Regular) :
    Safe (fun v c => v.Regular ∧ c.Level p n) (ofOperation (op.apply args) c) := by
  rcases op.apply_regular ha with ⟨v, hv, hr, -⟩ | ⟨e, he⟩
  · rw [hv]
    exact .ok ⟨hr, h⟩
  · rw [he]
    exact .error (RunError.orderly_operation e)

theorem guardDivision_safe (h : c.Level p n) (pos : String) (op : Operation) {divisor : Value}
    (hd : divisor.kind.isIntegral → divisor.Regular) :
    Safe (fun _ c => c.Level p n) (guardDivision pos op divisor c) := by
  unfold guardDivision
  split
  next hop =>
    have hv := hd (by simp_all)
    obtain ⟨u, hu, -⟩ := id hv
    obtain ⟨z, hz, hzr, -⟩ := Value.exists_zero hu
    rw [hz]
    have operands : ∀ v ∈ [divisor, z], v.Regular := by simpa using ⟨hv, hzr⟩
    refine (ofOperation_safe h .ne operands).bind fun v c hc => ?_
    have recorded := onState_safe (recordBranch_safe hc.2.state (pos ++ "/div") hc.1)
      (R := fun _ c => c.Level p n) fun _ _ hs => hc.2.withState hs
    exact recorded.discard.imp fun _ _ ⟨_, h⟩ => h
  next => exact .ok h

theorem applyOperation_safe (h : c.Level p n) (pos : String) (op : Operation) :
    Safe (fun _ c => c.Regular p) (applyOperation pos op c) := by
  have arity : op.arity ≤ maxValues := by
    rcases op.arity_cases with ha | ha <;> rw [ha] <;> decide
  refine (onState_safe (popN_safe arity h.state) (R := fun vs c => (∀ v ∈ vs, v.Regular) ∧ c.Level p n)
    fun vs s hs => ⟨hs.1.1, h.withState hs.2⟩).bind fun args c hc => ?_
  have divisor : (args.getD 1 .unset).kind.isIntegral → (args.getD 1 .unset).Regular := by
    rw [List.getD_eq_getElem?_getD]
    cases hd : args[1]? with
    | none => simp [Value.unset, Kind.invalid, Kind.isIntegral]
    | some v => exact fun _ => hc.1 v (List.mem_of_getElem? hd)
  refine (guardDivision_safe hc.2 pos op divisor).bind fun _ c' hc' => ?_
  refine (ofOperation_safe hc' op hc.1).bind fun v c hv => ?_
  exact onState_regular hv.2 (push_safe hv.2.state hv.1)

theorem storeFrom_safe {s : RunState} {vs : List Value} (slot : Nat) (h : s.Regular n)
    (hv : ∀ v ∈ vs, v.Regular) (hk : slot + vs.length ≤ maxValues) :
    Safe (fun _ s => s.Regular n) (storeFrom slot vs s) := by
  induction vs generalizing slot s with
  | nil => exact .ok h
  | cons v vs ih =>
    rw [List.forall_mem_cons] at hv
    rw [List.length_cons] at hk
    refine (store_safe (by omega) h hv.1).bind fun _ s hs => ?_
    exact ih (slot + 1) hs hv.2 (by omega)

theorem lt_maxValues {k : Nat} (h : k < 2 ^ 31) : k < maxValues :=
  Nat.lt_trans h (by decide)

theorem callFunction_safe (h : c.Level p n) (hp : p.Ready) {name : String} {f : Function}
    (hf : p.function? name = some f) :
    Safe (fun _ c => c.Regular p) (callFunction p name c) := by
  have member := List.mem_of_find?_eq_some hf
  have small := lt_maxValues (hp.params f member)
  have entered : Safe (fun _ s => s.Regular (n + 1))
      ((do
        let args ← RunState.popN f.params
        RunState.enter f.name f.slotLimit
        storeFrom 0 args : RunM Unit) c.state) := by
    refine (popN_safe (Nat.le_of_lt small) h.state).bind fun args s hs => ?_
    refine (enter_safe hs.2 f.name f.slotLimit).bind fun _ s' hs' => ?_
    refine storeFrom_safe 0 hs' hs.1.1 ?_
    rw [hs.1.2]
    omega
  unfold callFunction
  rw [hf]
  refine (onState_safe entered (R := fun _ d => d.calls = c.calls ∧ d.state.Regular (n + 1))
    fun _ s hs => ⟨rfl, hs⟩).bind fun _ d hd => ?_
  refine .ok (.running (n := n + 1) ⟨?_, ?_, hd.2⟩)
  · simpa [hd.1] using ⟨member, h.functions⟩
  · simp [hd.1, h.depth]

theorem leaveFrame_safe {s : RunState} (h : s.Regular (n + 1)) :
    Safe (fun _ s => s.Regular n) (leaveFrame s) := by
  rw [leaveFrame_apply]
  split
  · exact leave_safe h
  · refine (pop_safe h).bind fun v s hv => ?_
    refine (leave_safe hv.2).bind fun _ s hs => ?_
    simp only [hv.1.isValid, if_true]
    exact push_safe hs hv.1

theorem returnFromCall_safe (h : c.Level p n) :
    Safe (fun _ c => c.Regular p) (returnFromCall c) := by
  rw [returnFromCall_apply]
  have depth := h.depth
  have functions : ∀ a ∈ c.calls.tail, a.function ∈ p.functions :=
    fun a ha => h.functions a (List.mem_of_mem_tail ha)
  split
  next he => exact .ok (.ended (List.isEmpty_iff.mp he))
  next he =>
    obtain ⟨m, rfl⟩ : ∃ m, n = m + 1 := by
      refine Nat.exists_eq_succ_of_ne_zero fun hn => he ?_
      rw [List.isEmpty_iff, ← List.length_eq_zero_iff, List.length_tail]
      omega
    refine onState_safe (leaveFrame_safe h.state) fun _ s hs => .running (n := m) ⟨functions, ?_, hs⟩
    rw [List.length_tail]
    omega

theorem acceptResult_safe (h : c.Level p n) {r : ModelResult}
    (hr : r.value.isValid → r.value.Regular) :
    Safe (fun _ c => c.Regular p) (acceptResult r c) := by
  unfold acceptResult
  cases he : r.error? with
  | some e =>
    refine .error ?_
    unfold ModelResult.error? at he
    split at he <;> cases he
    · exact .unsupported _
    · exact .fault _
    · exact .fault _
  | none =>
    by_cases hv : r.value.isValid
    · simp only [hv, if_true]
      exact onState_regular h (push_safe h.state (hr hv))
    · simp only [hv]
      exact .ok (.running h)

theorem askModel_safe {library : Library} (hl : library.AllReliable) (h : c.Level p n)
    (name : String) {args : List Value} (ha : ∀ v ∈ args, v.Regular) :
    Safe (fun r c => (r.value.isValid → r.value.Regular) ∧ c.Level p n)
      (askModel library name args c) := by
  obtain ⟨calls, s, x, y⟩ := c
  obtain ⟨r, he, hr⟩ := hl.invoke name ha s
  simp only [askModel, he]
  exact .ok ⟨hr, h.functions, h.depth, h.state⟩

theorem invokeModel_safe {library : Library} (hl : library.AllReliable) (h : c.Level p n)
    (name : String) {k : Nat} (hk : k < 2 ^ 31) :
    Safe (fun _ c => c.Regular p) (invokeModel library name k c) := by
  refine (onState_safe (popN_safe (Nat.le_of_lt (lt_maxValues hk)) h.state)
    (R := fun vs c => (∀ v ∈ vs, v.Regular) ∧ c.Level p n)
    fun vs s hs => ⟨hs.1.1, h.withState hs.2⟩).bind fun args c hc => ?_
  exact (askModel_safe hl hc.2 name hc.1).bind fun r c hr => acceptResult_safe hr.2 hr.1

theorem exec_safe {setup : Setup} (hs : setup.Ready) (f : Function) (pc : Nat) {i : Instruction}
    (hi : i.Ready setup.program) (h : c.Level setup.program n) :
    Safe (fun _ c => c.Regular setup.program) (exec setup f pc i c) := by
  have small := lt_maxValues hi.count
  unfold exec
  cases ho : i.opcode with
  | nop => exact .ok (.running h)
  | const => exact onState_regular h (push_safe h.state (hi.const ho))
  | input =>
    obtain ⟨u, hu⟩ := hi.input ho
    exact onState_regular h ((input_safe h.state i.name hu).bind fun v s hv => push_safe hv.2 hv.1)
  | load =>
    exact onState_regular h ((load_safe i.count h.state).bind fun v s hv => push_safe hv.2 hv.1)
  | store =>
    exact onState_regular h ((pop_safe h.state).bind fun v s hv => store_safe small hv.2 hv.1)
  | dup => exact onState_regular h ((peek_safe h.state).bind fun v s hv => push_safe hv.2 hv.1)
  | pop =>
    exact onState_regular h ((pop_safe h.state).discard.imp fun _ _ ⟨_, hv⟩ => hv.2)
  | swap =>
    refine onState_regular h ((popN_safe (k := 2) (by decide) h.state).bind fun args s hv => ?_)
    obtain ⟨x, y, rfl⟩ := List.length_eq_two.mp hv.1.2
    refine (push_safe hv.2 (hv.1.1 y (by simp))).bind fun _ s hs => ?_
    exact push_safe hs (hv.1.1 x (by simp))
  | apply => exact applyOperation_safe h _ _
  | jump => exact jumpTo_safe h _
  | jumpif =>
    have tested : Safe (fun _ s => s.Regular n)
        ((do RunState.recordBranch (position f pc) (← RunState.pop) : RunM Bool) c.state) :=
      (pop_safe h.state).bind fun v s hv => recordBranch_safe hv.2 _ hv.1
    refine (onState_safe tested (R := fun _ c => c.Level setup.program n)
      fun _ s hs => h.withState hs).bind fun taken c hc => ?_
    cases taken with
    | true => exact jumpTo_safe hc _
    | false => exact .ok (.running hc)
  | call =>
    obtain ⟨g, hg⟩ := hi.call ho
    exact callFunction_safe h hs.program hg
  | ret => exact returnFromCall_safe h
  | invoke => exact invokeModel_safe hs.library h i.name hi.count
  | fault => exact .error (.fault _)
  | halt => exact .error .stopped
  | unknown => exact .error (.misuse rfl)

def Ending.Orderly (e : Ending) : Prop :=
  e = none ∨ ∃ early : EarlyEnd, e = some (.error early) ∧ early.cause.Orderly

inductive StepSafe (p : Program) : Configuration ⊕ (Configuration × Ending) → Prop
  | on {c : Configuration} : c.Regular p → StepSafe p (.inl c)
  | ended {c : Configuration} {e : Ending} : e.Orderly → StepSafe p (.inr (c, e))

theorem perform_safe {setup : Setup} (hs : setup.Ready) {a : Activation} {rest : List Activation}
    (hc : c.calls = a :: rest) (h : c.Level setup.program n) :
    StepSafe setup.program (perform setup a rest c) := by
  have functions := h.functions
  have depth := h.depth
  rw [hc, List.forall_mem_cons] at functions
  rw [hc] at depth
  unfold perform
  cases hi : a.function.code[a.pc]? with
  | none => exact .ended (.inr ⟨_, rfl, .misuse rfl⟩)
  | some i =>
    have moved : Configuration.Level setup.program n
        { c with calls := { a with pc := a.pc + 1 } :: rest } :=
      ⟨List.forall_mem_cons.mpr functions, depth, h.state⟩
    have ready := hs.program.code _ functions.1 i (Array.mem_of_getElem? hi)
    have done := exec_safe hs a.function a.pc ready moved
    dsimp only
    generalize exec setup a.function a.pc i { c with calls := _ } = x at done ⊢
    cases done with
    | ok hr => exact .on hr
    | error he => exact .ended (.inr ⟨_, rfl, he⟩)

theorem step_eq_limit {setup : Setup} {a : Activation} {rest : List Activation} {number : Nat}
    (hc : c.calls = a :: rest) (hm : setup.maxSteps < number) :
    step setup number c = .inr (c, some (.error { cause := .stepLimit })) := by
  obtain ⟨calls, s, x, y⟩ := c
  obtain rfl : calls = a :: rest := hc
  rw [step, if_pos hm]

theorem step_limit {setup : Setup} {number : Nat} (hm : setup.maxSteps < number) :
    ∃ e, step setup number c = .inr (c, e) := by
  cases hc : c.calls with
  | nil =>
    obtain ⟨calls, s, x, y⟩ := c
    cases hc
    exact ⟨none, rfl⟩
  | cons a rest => exact ⟨_, step_eq_limit hc hm⟩

theorem step_safe {setup : Setup} (hs : setup.Ready) (number : Nat)
    (h : c.Regular setup.program) : StepSafe setup.program (step setup number c) := by
  cases h with
  | ended hc =>
    obtain ⟨calls, s, x, y⟩ := c
    cases hc
    exact .ended (.inl rfl)
  | running h =>
    obtain ⟨a, rest, hc⟩ := List.exists_cons_of_length_eq_add_one h.depth
    by_cases hm : setup.maxSteps < number
    · rw [step_eq_limit hc hm]
      exact .ended (.inr ⟨_, rfl, .stepLimit⟩)
    · cases hx : (number % 1024 = 0 && c.cancelled) with
      | true =>
        rw [step_eq_interrupted hc hm hx]
        exact .ended (.inr ⟨_, rfl, .cancelled⟩)
      | false =>
        rw [step_eq_perform hc hm hx]
        exact perform_safe hs hc h

section Run

variable {setup : Setup} {x : Bool} {s : RunState}

theorem Reaches.le (h : Reaches setup x s n c) : n ≤ setup.maxSteps + 1 := by
  cases h with
  | start => omega
  | @step n c d _ hd =>
    by_contra hm
    obtain ⟨e, he⟩ := step_limit (c := c) (show setup.maxSteps < n by omega)
    rw [he] at hd
    cases hd

theorem Reaches.ends {fuel : Nat} (h : Reaches setup x s n c) (hf : n + fuel = setup.maxSteps + 2) :
    ∃ m d, Reaches setup x s m d ∧ Machine.step setup m d = .inr (runFrom setup fuel n c) := by
  induction fuel generalizing n c with
  | zero =>
    have := h.le
    omega
  | succ fuel ih =>
    rw [runFrom_succ]
    cases hd : Machine.step setup n c with
    | inl d => exact ih (h.step hd) (by omega)
    | inr ended => exact ⟨n, c, h, hd⟩

theorem start_regular {f : Function} (hf : setup.program.function? setup.program.entry = some f)
    (h : s.Regular 0) :
    Configuration.Regular setup.program { calls := [{ function := f }], state := s, cancelled := x } :=
  .running (n := 0) ⟨by simpa using List.mem_of_find?_eq_some hf, rfl, h⟩

theorem Reaches.regular (hs : setup.Ready) (h : s.Regular 0) (hc : Reaches setup x s n c) :
    c.Regular setup.program := by
  induction hc with
  | start hf => exact start_regular hf h
  | @step n c d _ hd ih =>
    have safe := step_safe hs n ih
    rw [hd] at safe
    cases safe with
    | on hr => exact hr

theorem run_ends (hs : setup.Ready) (x : Bool) (s : RunState) :
    ∃ n c, Reaches setup x s n c ∧ step setup n c = .inr (run setup x s) := by
  obtain ⟨f, hf⟩ := hs.program.entry
  rw [run, hf]
  exact (Reaches.start hf).ends (by omega)

theorem run_safe (hs : setup.Ready) (h : s.Regular 0) (x : Bool) :
    (run setup x s).2.Orderly := by
  obtain ⟨n, c, hr, hc⟩ := run_ends hs x s
  have safe := step_safe hs n (hr.regular hs h)
  rw [hc] at safe
  generalize run setup x s = r at safe
  cases safe with
  | ended he => exact he

end Run

structure Program.Bounded (p : Program) : Prop where
  params : ∀ f ∈ p.functions, f.params < 2 ^ 31
  counts : ∀ f ∈ p.functions, ∀ i ∈ f.code, i.count < 2 ^ 31

theorem Program.Bounded.ready {text : String} (hb : p.Bounded) (hp : Program.parse text = .ok p) :
    p.Ready := by
  obtain ⟨entry, calls⟩ := Program.parse_linked hp
  refine ⟨entry, hb.params, fun f hf i hi => ?_⟩
  have proper := Program.parse_proper hp f hf i hi
  refine ⟨fun ho => ?_, fun ho => ?_, calls f hf i hi, hb.counts f hf i hi⟩
  · obtain ⟨⟨w, hw⟩, he⟩ := proper.concrete ho
    obtain ⟨u, hu⟩ := Kind.exists_shape hw
    exact ⟨u, hu, by simp [he]⟩
  · obtain ⟨w, hw⟩ := proper.input ho
    exact Kind.exists_shape hw

def instructionLimit (limit : Int) : Nat := if 0 < limit then limit.toNat else twoPow 20

end Concolic.Machine

namespace Concolic

open Machine

theorem Explorer.initial_regular (e : Explorer) (id : String) (input : Input) :
    (e.initial id input).Regular 0 where
  running := by simp [Explorer.initial]
  depth := rfl
  frame := .new ..
  callers := by simp [Explorer.initial]
  defaults := fun name k u hu => by
    obtain ⟨v, hv, hk, -⟩ := DefaultPolicy.value_fits (g := e.generator) e.settings.policy
      e.settings.seed name (Kind.width_of_shape hu)
    exact ⟨v, hv, hk⟩

/-- An assembled program ends within its limit, by the return of its entry function or by an error
of its own. All along the machine and the state agree on how deep the calls are, and every function
that is called is there. -/
theorem Machine.assembled_programs_never_crash {text : String} {p : Program}
    (hp : Program.parse text = .ok p) (hb : p.Bounded) {library : Library}
    (hl : library = .standard ∨ library = .empty) (limit : Int) (e : Explorer) (id : String)
    (input : Input) (cancelled : Bool) :
    let setup : Setup := { program := p, library, maxSteps := instructionLimit limit }
    let s := e.initial id input
    let r := run setup cancelled s
    r.2.Orderly ∧
    (∃ n c, Reaches setup cancelled s n c ∧ step setup n c = .inr r ∧
      n ≤ instructionLimit limit + 1 ∧ (n = instructionLimit limit + 1 → r.1 = c)) ∧
    ∀ n c, Reaches setup cancelled s n c → ∀ a rest, c.calls = a :: rest →
      c.calls.length = c.state.depth ∧ a.function ∈ p.functions ∧
      ∀ i, a.function.code[a.pc]? = some i → i.opcode = .call →
        ∃ f ∈ p.functions, p.function? i.name = some f := by
  intro setup s r
  have ready : setup.Ready := ⟨hb.ready hp, Library.allReliable_of hl⟩
  have regular : s.Regular 0 := e.initial_regular id input
  refine ⟨run_safe ready regular cancelled, ?_, fun n c hc a rest ha => ?_⟩
  · obtain ⟨n, c, hr, hs⟩ := run_ends ready cancelled s
    refine ⟨n, c, hr, hs, hr.le, fun hn => ?_⟩
    obtain ⟨e, he⟩ := step_limit (c := c) (show setup.maxSteps < n by
      rw [hn]
      exact Nat.lt_succ_self _)
    exact congrArg Prod.fst (Sum.inr.inj (hs.symm.trans he))
  · cases hc.regular ready regular with
    | ended hn => simp [hn] at ha
    | running h =>
      have member := h.functions a (by simp [ha])
      refine ⟨?_, member, fun i hi ho => ?_⟩
      · rw [h.depth, RunState.depth, h.state.depth]
      · obtain ⟨f, hf⟩ := (ready.program.code _ member i (Array.mem_of_getElem? hi)).call ho
        exact ⟨f, List.mem_of_find?_eq_some hf, hf⟩

namespace Machine

def clockText : String :=
  "func main\n input hours int\n input step double\n call turn\n f2i\n const int 7\n swap\n" ++
  " div\n jumpif late\n return\nlate:\n const float 1.5\n halt late\nend\n" ++
  "func turn params=2\n load 0\n i2f\n load 1\n d2f\n rem\n neg\n return\nend\n"

def clock : Program where
  functions := [
    { name := "main", labels := [("late", 9)], code := #[
        { opcode := .input, line := 2, name := "hours", kind := .int },
        { opcode := .input, line := 3, name := "step", kind := .double },
        { opcode := .call, line := 4, name := "turn" },
        { opcode := .apply, line := 5, operation := .f2i },
        { opcode := .const, line := 6, value := ⟨.int, 7, none⟩ },
        { opcode := .swap, line := 7 },
        { opcode := .apply, line := 8, operation := .div },
        { opcode := .jumpif, line := 9, name := "late", target := 9 },
        { opcode := .ret, line := 10 },
        { opcode := .const, line := 12, value := ⟨.float, 0x3FC00000, none⟩ },
        { opcode := .halt, line := 13, name := "late" }] },
    { name := "turn", params := 2, code := #[
        { opcode := .load, line := 16, count := 0 },
        { opcode := .apply, line := 17, operation := .i2f },
        { opcode := .load, line := 18, count := 1 },
        { opcode := .apply, line := 19, operation := .d2f },
        { opcode := .apply, line := 20, operation := .rem },
        { opcode := .apply, line := 21, operation := .neg },
        { opcode := .ret, line := 22 }] }]
  entry := "main"

def clockExplorer : Explorer where
  subject := Setup.subject { program := clock }
  settings := { policy := .random }

def clockInput : Input :=
  ⟨[("hours", ⟨.int, 5, none⟩), ("step", ⟨.double, 0x4000000000000000, none⟩)]⟩

theorem assembled_programs_never_crash_clock :
    let setup : Setup := { program := clock, library := .standard, maxSteps := instructionLimit 0 }
    let s := clockExplorer.initial "r" clockInput
    Program.parse clockText = .ok clock ∧ clock.Bounded ∧
    (run setup true s).2 =
      some (.error { site := some ("main", 9), cause := .misuse (.condition "main:7" .int) }) ∧
    (run setup true s).2.Orderly ∧
    ∀ n c, Reaches setup true s n c → c.calls ≠ [] → c.calls.length = c.state.depth := by
  intro setup s
  have parsed : Program.parse clockText = .ok clock := by decide +kernel
  have bounded : clock.Bounded := ⟨by decide +kernel, by decide +kernel⟩
  obtain ⟨orderly, -, level⟩ := assembled_programs_never_crash parsed bounded (.inl rfl) 0
    clockExplorer "r" clockInput true
  refine ⟨parsed, bounded, by decide +kernel, orderly, fun n c hc hn => ?_⟩
  obtain ⟨a, rest, ha⟩ := List.exists_cons_of_ne_nil hn
  exact (level n c hc a rest ha).1

end Machine

end Concolic
