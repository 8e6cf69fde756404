import Mathlib
import Concolic.Proofs.Lockstep.State
import Concolic.Proofs.MachineEffect

namespace Concolic

namespace Machine

structure Instruction.Exact (i : Instruction) : Prop where
  const : i.opcode = .const → i.value.IsPlain
  input : i.opcode = .input → i.kind.isFloat = false ∧ ∃ w, i.kind.width? = some w
  apply : i.opcode = .apply → i.operation.isExact

def Function.Exact (f : Function) : Prop := ∀ i ∈ f.code, i.Exact

structure Setup.Exact (setup : Setup) : Prop where
  functions : ∀ f ∈ setup.program.functions, f.Exact
  library : setup.library.AllTame

namespace Configuration

/-- Configurations in the same place of the program whose states are twins. -/
structure Aligned (i j : Input) (c d : Configuration) : Prop where
  calls : c.calls = d.calls
  exact : ∀ a ∈ c.calls, a.function.Exact
  state : c.state.Twin i j d.state

def Twin (c d : Configuration) : Prop := ∃ i j, Aligned i j c d

def Forked (c d : Configuration) : Prop := c.state.Forked d.state

end Configuration

open ExecM RunState

variable {α : Type} {i j : Input} {c d : Configuration} {F : Configuration → Configuration → Prop}
  {Q : α → α → Prop}

theorem onState_abreast {m n : RunM α} {i' j' : Input} {F : RunState → RunState → Prop}
    (h : Configuration.Aligned i j c d)
    (hm : Abreast (RunState.Twin i' j') F Q (m c.state) (n d.state)) :
    Abreast (Configuration.Aligned i' j') (fun c d => F c.state d.state) Q (onState m c)
      (onState n d) := by
  obtain ⟨calls, s, x, y⟩ := c
  obtain ⟨calls', t, x', y'⟩ := d
  obtain ⟨rfl, he, -⟩ := h
  simp only [onState] at hm ⊢
  generalize m s = a at hm ⊢
  generalize n t = b at hm ⊢
  cases hm with
  | ok ht hq => exact .ok ⟨rfl, he, ht⟩ hq
  | error ht => exact .error ⟨rfl, he, ht⟩
  | forked hf => exact .forked hf

theorem onState_together {m n : RunM α} {i' j' : Input} (h : Configuration.Aligned i j c d)
    (hm : Abreast (RunState.Twin i' j') (fun _ _ => False) Q (m c.state) (n d.state)) :
    Abreast (Configuration.Aligned i' j') F Q (onState m c) (onState n d) :=
  (onState_abreast h hm).imp (fun _ _ h => h) (fun _ _ h => h.elim) fun _ _ h => h

theorem jumpTo_abreast (target : Nat) (h : Configuration.Aligned i j c d) :
    Abreast (Configuration.Aligned i j) F Anything (jumpTo target c) (jumpTo target d) := by
  obtain ⟨calls, s, x, y⟩ := c
  obtain ⟨calls', t, x', y'⟩ := d
  obtain ⟨rfl, he, hst⟩ := h
  cases calls with
  | nil => exact .ok ⟨rfl, he, hst⟩ trivial
  | cons a rest =>
    refine .ok ⟨rfl, ?_, hst⟩ trivial
    simpa using he

theorem storeFrom_abreast {s t : RunState} {G : RunState → RunState → Prop} {vs us : List Value}
    (slot : Nat) (h : RunState.Twin i j s t) (hvs : List.Forall₂ (Value.Twin i j) vs us) :
    Abreast (RunState.Twin i j) G Anything (storeFrom slot vs s) (storeFrom slot us t) := by
  induction hvs generalizing slot s t with
  | nil => exact .ok h trivial
  | cons hv _ ih =>
    refine (store_abreast slot h hv).bind ?_
    intro _ _ s t h _
    exact ih (slot + 1) h

theorem leaveFrame_abreast {s t : RunState} {G : RunState → RunState → Prop}
    (h : RunState.Twin i j s t) :
    Abreast (RunState.Twin i j) G Anything (leaveFrame s) (leaveFrame t) := by
  have empty : s.frame.stack.isEmpty = t.frame.stack.isEmpty := by
    rcases h.stack_cases with ⟨hs, ht⟩ | ⟨_, _, _, _, hs, ht, -, -⟩ <;> simp [hs, ht]
  rw [leaveFrame_apply, leaveFrame_apply, empty]
  split
  · exact leave_abreast h
  · refine (pop_abreast h).bind fun v u s t h hv => ?_
    refine (leave_abreast h).bind fun _ _ s t h _ => ?_
    simp only [hv.isValid, if_true]
    exact push_abreast h hv

theorem returnFromCall_abreast (h : Configuration.Aligned i j c d) :
    Abreast (Configuration.Aligned i j) F Anything (returnFromCall c) (returnFromCall d) := by
  have tail : Configuration.Aligned i j { c with calls := c.calls.tail }
      { d with calls := d.calls.tail } :=
    ⟨congrArg List.tail h.calls, fun a ha => h.exact a (List.mem_of_mem_tail ha), h.state⟩
  rw [returnFromCall_apply, returnFromCall_apply, h.calls]
  split
  · exact .ok (h.calls ▸ tail) trivial
  · exact onState_together (h.calls ▸ tail) (leaveFrame_abreast tail.state)

theorem callFunction_abreast {p : Program} (hp : ∀ f ∈ p.functions, f.Exact) (name : String)
    (h : Configuration.Aligned i j c d) :
    Abreast (Configuration.Aligned i j) F Anything (callFunction p name c)
      (callFunction p name d) := by
  unfold callFunction
  cases hf : p.function? name with
  | none => exact .error h
  | some f =>
    have entered : Abreast (RunState.Twin i j) (fun _ _ => False) Anything
        ((do
          let args ← RunState.popN f.params
          RunState.enter f.name f.slotLimit
          storeFrom 0 args : RunM Unit) c.state)
        ((do
          let args ← RunState.popN f.params
          RunState.enter f.name f.slotLimit
          storeFrom 0 args : RunM Unit) d.state) := by
      refine (popN_abreast _ h.state).bind fun vs us s t h hvs => ?_
      refine (enter_abreast _ _ h).bind fun _ _ s t h _ => ?_
      exact storeFrom_abreast 0 h hvs
    refine (onState_together h entered).bind fun _ _ c d h _ => ?_
    refine .ok ⟨?_, ?_, h.state⟩ trivial
    · simp [h.calls]
    · intro a ha
      rcases List.mem_cons.mp ha with rfl | ha
      · exact hp f (List.mem_of_find?_eq_some hf)
      · exact h.exact a ha

theorem askModel_abreast {library : Library} (hl : library.AllTame) (name : String)
    (h : Configuration.Aligned i j c d) {vs us : List Value}
    (hvs : List.Forall₂ (Value.Twin i j) vs us) :
    Abreast (Configuration.Aligned i j) F
      (fun m n => (m = n ∧ m.error?.isSome) ∨ ∃ v u, Value.Twin i j v u ∧ m = .ok v ∧ n = .ok u)
      (askModel library name vs c) (askModel library name us d) := by
  obtain ⟨ss, hss, rfl, rfl⟩ := Value.exists_symbolics hvs
  obtain ⟨f, hf, ha⟩ := hl.invoke name
  obtain ⟨calls, s, x, y⟩ := c
  obtain ⟨calls', t, x', y'⟩ := d
  simp only [askModel, hf]
  rcases ha ss with ⟨m, hm, he⟩ | ⟨r, hr, he⟩ <;> dsimp only at he
  · rw [he, he]
    exact .ok ⟨h.calls, h.exact, h.state⟩ (.inl ⟨rfl, hm⟩)
  · rw [he, he]
    refine .ok ⟨h.calls, h.exact, h.state⟩ (.inr ⟨_, _, ⟨r, ?_, ?_, rfl, rfl⟩, rfl, rfl⟩)
    · exact Symbolic.bound_of_subset hr fun s hs => (hss s hs).1
    · exact Symbolic.bound_of_subset hr fun s hs => (hss s hs).2

theorem invokeModel_abreast {library : Library} (hl : library.AllTame) (name : String) (n : Nat)
    (h : Configuration.Aligned i j c d) :
    Abreast (Configuration.Aligned i j) F Anything (invokeModel library name n c)
      (invokeModel library name n d) := by
  refine (onState_together h (popN_abreast _ h.state)).bind fun vs us c d h hvs => ?_
  refine (askModel_abreast hl name h hvs).bind fun m n c d h hmn => ?_
  unfold acceptResult
  rcases hmn with ⟨rfl, he⟩ | ⟨v, u, hvu, rfl, rfl⟩
  · obtain ⟨e, he⟩ := Option.isSome_iff_exists.mp he
    rw [he]
    exact .error h
  · change Abreast _ _ _
      ((if v.isValid then onState (RunState.push v) else pure () : ExecM Unit) c)
      ((if u.isValid then onState (RunState.push u) else pure () : ExecM Unit) d)
    simp only [hvu.isValid, if_true]
    exact onState_together h (push_abreast h.state hvu)

section Operations

variable {op : Operation} {ss : List Symbolic} {pos : String}

def SameDivisor (i j : Input) (op : Operation) (ss : List Symbolic) : Prop :=
  ∀ b, ss[1]? = some b → op.isDivision → b.kind.isIntegral →
    ((b.value i).bits = 0 ↔ (b.value j).bits = 0)

theorem isIntegral_divisor {kind : Kind} (hd : op.isDivision)
    (hk : op.resultKind (ss.map (·.kind)) = .ok kind) :
    ∃ a b, ss = [a, b] ∧ b.kind.isIntegral := by
  have kinds : op.resultKind ((ss.map (·.value ∅)).map (·.kind)) = .ok kind := by
    simpa [Function.comp_def] using hk
  obtain ⟨v, vs, hv, hn, hr⟩ := Operation.resultKind_ok kinds
  obtain ⟨a, rest, rfl, rfl, rfl⟩ := List.map_eq_cons_iff.mp hv
  have cases : op = .div ∨ op = .rem := by cases op <;> simp_all [Operation.isDivision]
  obtain ⟨b, rfl⟩ : ∃ b, rest = [b] := by
    rw [List.length_map] at hn
    apply List.length_eq_one_iff.mp
    rcases cases with rfl | rfl <;> exact Nat.succ.inj hn
  refine ⟨a, b, rfl, ?_⟩
  have same : b.kind = a.kind ∧ a.kind.isWord := by
    rcases cases with rfl | rfl <;>
    · simp [Operation.resultOf, Operation.conversion?, Operation.ite_error_iff,
        Operation.ite_ok_iff, a.exact] at hr
      exact ⟨hr.2.2.1, hr.2.1⟩
  rw [same.1]
  cases hk : a.kind <;> simp_all [Kind.isWord, Kind.isIntegral]

theorem apply_twins (ho : op.isExact) (hs : ∀ s ∈ ss, s.Bound i ∧ s.Bound j)
    (hz : SameDivisor i j op ss) :
    (∃ e, op.apply (ss.map (·.value i)) = .error (.error e) ∧
      op.apply (ss.map (·.value j)) = .error (.error e)) ∨
    ∃ v u, Value.Twin i j v u ∧ op.apply (ss.map (·.value i)) = .ok v ∧
      op.apply (ss.map (·.value j)) = .ok u := by
  rcases op.apply_symbolic ho ss with ⟨e, he⟩ | ⟨r, hr, hk, h⟩
  · exact .inl ⟨e, he i, he j⟩
  have twin : Value.Twin i j (r.value i) (r.value j) :=
    ⟨r, Symbolic.bound_of_subset hr fun s h => (hs s h).1,
      Symbolic.bound_of_subset hr fun s h => (hs s h).2, rfl, rfl⟩
  rw [h i, h j]
  cases hd : op.isDivision with
  | false => exact .inr ⟨_, _, twin, by simp, by simp⟩
  | true =>
    obtain ⟨a, b, rfl, hb⟩ := isIntegral_divisor hd hk
    have zero := hz b rfl hd hb
    by_cases hi : (b.value i).bits = 0
    · have hj := zero.mp hi
      exact .inl ⟨.zeroDivisor op, by simp_all, by simp_all⟩
    · have hj := mt zero.mpr hi
      exact .inr ⟨_, _, twin, by simp_all, by simp_all⟩

theorem guardDivision_abreast (h : Configuration.Aligned i j c d)
    (hs : ∀ s ∈ ss, s.Bound i ∧ s.Bound j) :
    Abreast (Configuration.Aligned i j) Configuration.Forked (fun _ _ => SameDivisor i j op ss)
      (guardDivision pos op ((ss.map (·.value i)).getD 1 .unset) c)
      (guardDivision pos op ((ss.map (·.value j)).getD 1 .unset) d) := by
  unfold guardDivision
  rcases hb : ss[1]? with _ | b
  · have unset : ∀ i, (ss.map (·.value i)).getD 1 .unset = .unset := by
      intro i
      simp [List.getD, hb]
    rw [unset, unset, if_neg (by simp [Value.unset, Kind.invalid, Kind.isIntegral])]
    exact .ok h fun b hb' => by simp [hb] at hb'
  · have divisor : ∀ i, (ss.map (·.value i)).getD 1 .unset = b.value i := by
      intro i
      simp [List.getD, hb]
    simp only [divisor, Symbolic.value_kind]
    split
    next hg =>
      obtain ⟨z, hz, r, hr, hn⟩ := Operation.ne_zero_symbolic b
      have hbound := hs b (List.mem_of_getElem? hb)
      have twin : Value.Twin i j (r.value i) (r.value j) :=
        ⟨r, fun p hp => hbound.1 p (hr hp), fun p hp => hbound.2 p (hr hp), rfl, rfl⟩
      rw [hz]
      change Abreast _ _ _ ((ofOperation (Operation.ne.apply [b.value i, z]) >>= _) c)
        ((ofOperation (Operation.ne.apply [b.value j, z]) >>= _) d)
      rw [(hn i).1, (hn j).1]
      have recorded := onState_abreast h (recordBranch_abreast (pos ++ "/div") h.state twin)
      refine recorded.discard.imp (fun _ _ h => h) (fun _ _ h => h) ?_
      rintro _ _ ⟨x, y, hxy, hx, hy⟩ b' hb' - -
      obtain rfl : b = b' := by simpa [hb] using hb'
      have := hx.symm.trans (hxy.trans hy)
      rw [(hn i).2, (hn j).2, decide_eq_decide] at this
      exact not_iff_not.mp this
    next hg =>
      refine .ok h fun b' hb' hd hk => ?_
      obtain rfl : b = b' := by simpa [hb] using hb'
      simp [hd, hk] at hg

end Operations

section Growth

def Configuration.Later (c d : Configuration) : Prop :=
  c.state.Grows d.state ∧ d.cancelled = c.cancelled

theorem Configuration.Later.refl (c : Configuration) : c.Later c := ⟨Grows.refl _, rfl⟩

theorem Configuration.Later.trans (c d e : Configuration) (h : c.Later d) (h' : d.Later e) :
    c.Later e :=
  ⟨Grows.trans _ _ _ h.1 h'.1, h'.2.trans h.2⟩

theorem Configuration.Forked.later {c d c' d' : Configuration} (h : c.Forked d) (hc : c.Later c')
    (hd : d.Later d') : c'.Forked d' :=
  RunState.Forked.grows h hc.1 hd.1

theorem Proceeds.later {C : Call → Prop} {c d : Configuration} (h : Proceeds C c d)
    (hC : ∀ x, C x → ¬x.Ends) : c.Later d :=
  ⟨h.state.grows hC, h.cancelled⟩

end Growth

theorem applyOperation_abreast {op : Operation} (ho : op.isExact) (pos : String)
    (h : Configuration.Aligned i j c d) :
    Abreast (Configuration.Aligned i j) Configuration.Forked Anything (applyOperation pos op c)
      (applyOperation pos op d) := by
  refine (onState_together h (popN_abreast _ h.state)).bind fun vs us c d h hvs => ?_
  obtain ⟨ss, hss, rfl, rfl⟩ := Value.exists_symbolics hvs
  have later (r : Except (Failure OperationError) Value) :
      Advances Configuration.Later (ofOperation r >>= fun v => onState (RunState.push v)) :=
    fun c => (applyResult_goes (fun _ => Call.Local.not_ends) r c).later fun _ h => h
  refine (guardDivision_abreast h hss).bind_forked (fun _ _ c d h hz => ?_) .refl
    (fun _ _ _ _ hf hc hd => hf.later hc hd) (fun _ => later _) (fun _ => later _)
  rcases apply_twins ho hss hz with ⟨e, hv, hu⟩ | ⟨v, u, hvu, hv, hu⟩
  · rw [hv, hu]
    exact .error h
  · rw [hv, hu]
    exact onState_together h (push_abreast h.state hvu)

theorem jumpif_abreast (pos : String) (target : Nat) (h : Configuration.Aligned i j c d) :
    Abreast (Configuration.Aligned i j) Configuration.Forked Anything
      ((do
        let taken ← onState do RunState.recordBranch pos (← RunState.pop)
        if taken then jumpTo target : ExecM Unit) c)
      ((do
        let taken ← onState do RunState.recordBranch pos (← RunState.pop)
        if taken then jumpTo target : ExecM Unit) d) := by
  have recorded : Abreast (RunState.Twin i j) RunState.Forked (fun a b => a = b)
      ((do RunState.recordBranch pos (← RunState.pop) : RunM Bool) c.state)
      ((do RunState.recordBranch pos (← RunState.pop) : RunM Bool) d.state) := by
    refine (pop_abreast h.state).bind fun v u s t h hv => ?_
    exact (recordBranch_abreast pos h hv).imp (fun _ _ h => h) (fun _ _ h => h) fun _ _ h => h.1
  have later (taken : Bool) :
      Advances Configuration.Later (if taken then jumpTo target else pure () : ExecM Unit) := by
    intro c
    cases taken with
    | false => exact .refl c
    | true => exact (jumpTo_goes target c).later fun _ h => h
  refine (onState_abreast h recorded).bind_forked (fun a b c d h hab => ?_) .refl
    (fun _ _ _ _ hf hc hd => Configuration.Forked.later hf hc hd) later later
  subst hab
  cases a with
  | false => exact .ok h trivial
  | true => exact jumpTo_abreast target h

theorem exec_abreast {setup : Setup} (hs : setup.Exact) (f : Function) (pc : Nat)
    {instr : Instruction} (hi : instr.Exact) (h : c.Twin d) :
    Abreast Configuration.Twin Configuration.Forked Anything (exec setup f pc instr c)
      (exec setup f pc instr d) := by
  obtain ⟨i, j, h⟩ := h
  have aligned {x y : Except (Failure RunError) Unit × Configuration} {i j : Input}
      (h : Abreast (Configuration.Aligned i j) Configuration.Forked Anything x y) :
      Abreast Configuration.Twin Configuration.Forked Anything x y :=
    h.imp (fun _ _ h => ⟨i, j, h⟩) (fun _ _ h => h) fun _ _ h => h
  have state {m n : RunM Unit} {i' j' : Input}
      (hm : Abreast (RunState.Twin i' j') (fun _ _ => False) Anything (m c.state) (n d.state)) :
      Abreast Configuration.Twin Configuration.Forked Anything (onState m c) (onState n d) :=
    aligned (onState_together h hm)
  have hst := h.state
  unfold exec
  cases ho : instr.opcode with
  | nop => exact aligned (.ok h trivial)
  | const => exact state (push_abreast hst (hi.const ho).twin)
  | input =>
    obtain ⟨hf, w, hw⟩ := hi.input ho
    obtain ⟨i', j', hin⟩ := input_abreast hf hw hst
    exact state (hin.bind fun _ _ _ _ h hv => push_abreast h hv)
  | load => exact state ((load_abreast _ hst).bind fun _ _ _ _ h hv => push_abreast h hv)
  | store => exact state ((pop_abreast hst).bind fun _ _ _ _ h hv => store_abreast _ h hv)
  | dup => exact state ((peek_abreast hst).bind fun _ _ _ _ h hv => push_abreast h hv)
  | pop =>
    exact state ((pop_abreast hst).discard.imp (fun _ _ h => h) (fun _ _ h => h) fun _ _ _ => trivial)
  | swap =>
    refine state ((popN_abreast 2 hst).bind fun vs us s t h hvs => ?_)
    exact (push_getD_abreast 1 h hvs).bind fun _ _ s t h _ => push_getD_abreast 0 h hvs
  | apply => exact aligned (applyOperation_abreast (hi.apply ho) _ h)
  | jump => exact aligned (jumpTo_abreast _ h)
  | jumpif => exact aligned (jumpif_abreast _ _ h)
  | call => exact aligned (callFunction_abreast hs.functions _ h)
  | ret => exact aligned (returnFromCall_abreast h)
  | invoke => exact aligned (invokeModel_abreast hs.library _ _ h)
  | fault => exact aligned (.error h)
  | halt => exact aligned (.error ⟨rfl, fun a ha => absurd ha List.not_mem_nil, h.state⟩)
  | unknown code outside => exact aligned (.error h)

theorem exec_later {setup : Setup} (hl : setup.library.AllTame) (f : Function) (pc : Nat)
    (instr : Instruction) : Advances Configuration.Later (exec setup f pc instr) :=
  fun c => (exec_proceeds (fun _ => hl) c).later fun _ => Makes.not_ends

end Machine

end Concolic
