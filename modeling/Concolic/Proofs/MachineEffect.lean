import Mathlib
import Concolic.Machine.Execution
import Concolic.Proofs.Library
import Concolic.Proofs.RunEffect

namespace Concolic

/-- The call neither begins nor ends a frame or the run, and records no branch. -/
def RunState.Call.Local : RunState.Call → Prop
  | enter _ _ | leave | recordBranch _ _ | finish _ _ => False
  | _ => True

theorem RunState.Call.Local.not_ends {c : RunState.Call} (h : c.Local) : ¬c.Ends := by
  cases c with
  | finish => cases h
  | enter | leave | push | pop | popN | peek | load | store | input | recordBranch | path
  | constraints | inputs => exact fun ends => ends

namespace Machine

open ExecM RunState

structure Proceeds (C : Call → Prop) (c d : Configuration) : Prop where
  state : c.state.Follows C d.state
  cancelled : d.cancelled = c.cancelled

theorem Proceeds.trans {C : Call → Prop} (c d e : Configuration) (h : Proceeds C c d)
    (h' : Proceeds C d e) : Proceeds C c e :=
  ⟨.trans _ _ _ h.state h'.state, h'.cancelled.trans h.cancelled⟩

/-- Moreover the innermost call goes on, though maybe elsewhere. -/
structure Goes (C : Call → Prop) (c d : Configuration) : Prop extends Proceeds C c d where
  functions : d.calls.map (·.function) = c.calls.map (·.function)
  rest : d.calls.tail = c.calls.tail

namespace Goes

variable {C : Call → Prop}

theorem refl (c : Configuration) : Goes C c c := ⟨⟨.refl, rfl⟩, rfl, rfl⟩

theorem trans (c d e : Configuration) (h : Goes C c d) (h' : Goes C d e) : Goes C c e :=
  ⟨.trans _ _ _ h.toProceeds h'.toProceeds, h'.functions.trans h.functions, h'.rest.trans h.rest⟩

end Goes

theorem leaveFrame_apply (s : RunState) :
    leaveFrame s = (if s.frame.stack.isEmpty then RunState.leave else do
      let v ← RunState.pop
      RunState.leave
      if v.isValid then RunState.push v) s := rfl

theorem returnFromCall_apply (c : Configuration) :
    returnFromCall c = (if c.calls.tail.isEmpty then pure () else onState leaveFrame : ExecM Unit)
      { c with calls := c.calls.tail } := rfl

section Actions

variable {α : Type} {C : Call → Prop}

theorem pure_goes (a : α) : Advances (Goes C) (pure a : ExecM α) := fun c => .refl c

theorem fail_goes (e : RunError) : Advances (Goes C) (fail e : ExecM α) := fun c => .refl c

theorem onState_goes {m : RunM α} (hm : Advances (Follows C) m) :
    Advances (Goes C) (onState m) := fun c => ⟨⟨hm c.state, rfl⟩, rfl, rfl⟩

theorem ofOperation_goes (r : Except (Failure OperationError) Value) :
    Advances (Goes C) (ofOperation r) := by
  intro c
  unfold ofOperation
  split <;> exact .refl c

theorem ofDefect_goes (r : Except Defect α) : Advances (Goes C) (ofDefect r) := by
  intro c
  unfold ofDefect
  split <;> exact .refl c

theorem jumpTo_goes (target : Nat) : Advances (Goes C) (jumpTo target) := by
  intro c
  rcases c with ⟨_ | _, _, _, _⟩ <;> exact ⟨⟨.refl, rfl⟩, rfl, rfl⟩

theorem askModel_goes {library : Library} (hl : library.AllTame) (name : String)
    (args : List Value) : Advances (Goes C) (askModel library name args) := by
  intro c
  obtain ⟨f, hf, -⟩ := hl.invoke name
  simp only [askModel, hf, Bool.or_false]
  exact ⟨⟨.refl, rfl⟩, rfl, rfl⟩

theorem guardDivision_goes {pos : String} {op : Operation} (divisor : Value)
    (hp : op.isDivision = true → ∀ v, C (.recordBranch (pos ++ "/div") v)) :
    Advances (Goes C) (guardDivision pos op divisor) := by
  unfold guardDivision
  split
  next h =>
    rw [Bool.and_eq_true] at h
    refine (ofDefect_goes _).bind .trans fun _ => ?_
    refine (ofOperation_goes _).bind .trans fun v => ?_
    exact (onState_goes (recordBranch_performs.follows (hp h.1 v))).discard
  next => exact pure_goes ()

variable (own : ∀ c : Call, c.Local → C c)
include own

theorem applyResult_goes (r : Except (Failure OperationError) Value) :
    Advances (Goes C) (ofOperation r >>= fun v => onState (RunState.push v)) :=
  (ofOperation_goes r).bind .trans fun _ => onState_goes (push_performs.follows (own _ trivial))

theorem applyOperation_goes {pos : String} {op : Operation}
    (hp : op.isDivision = true → ∀ v, C (.recordBranch (pos ++ "/div") v)) :
    Advances (Goes C) (applyOperation pos op) :=
  (onState_goes ((popN_performs _).follows (own _ trivial))).bind .trans fun _ =>
    (guardDivision_goes _ hp).bind .trans fun _ => applyResult_goes own _

theorem acceptResult_goes (r : ModelResult) : Advances (Goes C) (acceptResult r) := by
  unfold acceptResult
  split
  · exact fail_goes _
  · split
    · exact onState_goes (push_performs.follows (own _ trivial))
    · exact pure_goes ()

theorem storeFrom_follows (slot : Nat) (vs : List Value) :
    Advances (Follows C) (storeFrom slot vs) := by
  induction vs generalizing slot with
  | nil => exact fun _ => .refl
  | cons v vs ih =>
    exact (store_performs.follows (own _ trivial)).bind Follows.trans fun _ => ih (slot + 1)

theorem callFunction_proceeds (p : Program) (name : String)
    (enters : ∀ name limit, C (.enter name limit)) :
    Advances (Proceeds C) (callFunction p name) := by
  unfold callFunction
  split
  · exact fun c => ⟨.refl, rfl⟩
  next f _ =>
    have entered : Advances (Follows C) (do
        let args ← RunState.popN f.params
        RunState.enter f.name f.slotLimit
        storeFrom 0 args) :=
      ((popN_performs _).follows (own _ trivial)).bind Follows.trans fun args =>
        (enter_performs.follows (enters _ _)).bind Follows.trans fun _ =>
          storeFrom_follows own 0 args
    exact Advances.bind .trans (fun c => (onState_goes entered c).toProceeds)
      fun _ c => ⟨.refl, rfl⟩

theorem leaveFrame_follows (leaves : C .leave) : Advances (Follows C) leaveFrame := by
  intro s
  rw [leaveFrame_apply]
  split
  · exact leave_performs.follows leaves s
  · refine (pop_performs.follows (own _ trivial)).bind Follows.trans (fun v => ?_) s
    refine (leave_performs.follows leaves).bind Follows.trans fun _ => ?_
    split
    · exact push_performs.follows (own _ trivial)
    · exact fun _ => .refl

theorem returnFromCall_proceeds (leaves : C .leave) : Advances (Proceeds C) returnFromCall := by
  intro c
  rw [returnFromCall_apply]
  split
  · exact ⟨.refl, rfl⟩
  · exact ⟨leaveFrame_follows own leaves c.state, rfl⟩

end Actions

section Instructions

variable {setup : Setup} {f : Function} {pc : Nat} {i : Instruction}

/-- The calls on the state that an instruction may make. -/
def Makes (f : Function) (pc : Nat) (i : Instruction) : Call → Prop
  | .enter _ _ => i.opcode = .call
  | .leave => i.opcode = .ret
  | .recordBranch pos _ => i.opcode = .jumpif ∧ pos = position f pc ∨
      i.opcode = .apply ∧ i.operation.isDivision = true ∧ pos = position f pc ++ "/div"
  | .finish _ _ => False
  | _ => True

theorem makes_of_local (c : Call) (h : c.Local) : Makes f pc i c := by
  cases c with
  | enter | leave | recordBranch | finish => cases h
  | push | pop | popN | peek | load | store | input | path | constraints | inputs => trivial

theorem Makes.not_ends {c : Call} (h : Makes f pc i c) : ¬c.Ends := by
  cases c with
  | finish => cases h
  | enter | leave | push | pop | popN | peek | load | store | input | recordBranch | path
  | constraints | inputs => exact fun ends => ends

/-- The instructions that neither begin nor end a call. -/
theorem exec_goes (hl : i.opcode = .invoke → setup.library.AllTame)
    (ordinary : i.opcode ∉ [.call, .ret, .halt]) :
    Advances (Goes (Makes f pc i)) (exec setup f pc i) := by
  unfold exec
  cases ho : i.opcode with
  | nop => exact pure_goes ()
  | const => exact onState_goes (push_performs.follows trivial)
  | input =>
    exact onState_goes ((input_performs.follows trivial).bind Follows.trans fun _ =>
      push_performs.follows trivial)
  | load =>
    exact onState_goes ((load_performs.follows trivial).bind Follows.trans fun _ =>
      push_performs.follows trivial)
  | store =>
    exact onState_goes ((pop_performs.follows trivial).bind Follows.trans fun _ =>
      store_performs.follows trivial)
  | dup =>
    exact onState_goes ((peek_performs.follows trivial).bind Follows.trans fun _ =>
      push_performs.follows trivial)
  | pop => exact onState_goes (pop_performs.follows trivial).discard
  | swap =>
    exact onState_goes (((popN_performs 2).follows trivial).bind Follows.trans fun _ =>
      (push_performs.follows trivial).bind Follows.trans fun _ => push_performs.follows trivial)
  | apply => exact applyOperation_goes makes_of_local fun hd v => .inr ⟨ho, hd, rfl⟩
  | jump => exact jumpTo_goes _
  | jumpif =>
    have tested : Advances (Follows (Makes f pc i))
        (do RunState.recordBranch (position f pc) (← RunState.pop)) :=
      (pop_performs.follows trivial).bind Follows.trans fun _ =>
        recordBranch_performs.follows (.inl ⟨ho, rfl⟩)
    refine (onState_goes tested).bind .trans fun taken => ?_
    split
    · exact jumpTo_goes _
    · exact pure_goes ()
  | invoke =>
    refine (onState_goes ((popN_performs _).follows trivial)).bind .trans fun _ => ?_
    exact (askModel_goes (hl ho) _ _).bind .trans fun _ => acceptResult_goes makes_of_local _
  | fault => exact fail_goes _
  | unknown _ _ => exact fail_goes _
  | call | ret | halt => simp [ho] at ordinary

theorem exec_proceeds (hl : i.opcode = .invoke → setup.library.AllTame) :
    Advances (Proceeds (Makes f pc i)) (exec setup f pc i) := by
  by_cases ordinary : i.opcode ∉ [.call, .ret, .halt]
  · exact fun c => (exec_goes hl ordinary c).toProceeds
  simp only [List.mem_cons, List.not_mem_nil, or_false, not_not] at ordinary
  unfold exec
  rcases ordinary with ho | ho | ho
  all_goals rw [ho]; dsimp only
  · exact callFunction_proceeds makes_of_local _ _ fun _ _ => ho
  · exact returnFromCall_proceeds makes_of_local ho
  · exact fun c => ⟨.refl, rfl⟩

end Instructions

end Machine

end Concolic
