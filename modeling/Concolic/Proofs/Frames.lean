import Mathlib
import Concolic.Proofs.Lockstep.Run

namespace Concolic

namespace Slots

variable {slot : Nat} {v : Value} {e : Nat × Value} {s : Slots}

theorem count_le {limit : Nat} (h : ∀ e ∈ s.entries, e.1 < limit) : s.count ≤ limit := by
  unfold count
  cases hl : s.entries.getLast? with
  | none => exact Nat.zero_le limit
  | some e => exact h e (List.mem_of_getLast? hl)

def setFrom (s : Slots) : Nat → List Value → Slots
  | _, [] => s
  | slot, v :: rest => (s.set slot v).setFrom (slot + 1) rest

theorem get?_setFrom (s : Slots) (slot : Nat) (vs : List Value) (other : Nat) :
    (s.setFrom slot vs).get? other =
      if slot ≤ other ∧ other < slot + vs.length then vs[other - slot]? else s.get? other := by
  induction vs generalizing s slot with
  | nil =>
    rw [setFrom, if_neg]
    simp only [List.length_nil]
    omega
  | cons v vs ih =>
    rw [setFrom, ih, get?_set, List.length_cons]
    rcases Nat.lt_trichotomy slot other with h | rfl | h
    · obtain ⟨k, rfl⟩ := Nat.exists_eq_add_of_lt h
      have index : slot + k + 1 - slot = k + 1 := by omega
      have index' : slot + k + 1 - (slot + 1) = k := by omega
      have ne : slot ≠ slot + k + 1 := by omega
      simp only [index, index', List.getElem?_cons_succ, if_neg ne]
      congr 1
      simp only [eq_iff_iff]
      omega
    · simp
    · rw [if_neg (by omega), if_neg (by omega), if_neg (by omega)]

theorem mem_setFrom {vs : List Value} (h : e ∈ (s.setFrom slot vs).entries) :
    e.1 < slot + vs.length ∨ e ∈ s.entries := by
  induction vs generalizing s slot with
  | nil => exact .inr h
  | cons v vs ih =>
    rw [List.length_cons]
    rcases ih h with h | h
    · exact .inl (by omega)
    · rcases Entries.mem_place h with rfl | h
      · exact .inl (by omega)
      · exact .inr h

theorem get?_setFrom_empty (vs : List Value) (slot : Nat) :
    (({} : Slots).setFrom 0 vs).get? slot = vs[slot]? := by
  rw [get?_setFrom]
  split
  · rw [Nat.sub_zero]
  next h =>
    rw [List.getElem?_eq_none (by omega)]
    rfl

end Slots

structure Frame.Sound (f : Frame) : Prop where
  stack : ∀ v ∈ f.stack, v.isValid = true
  slots : 0 < f.limit → ∀ e ∈ f.slots.entries, (e.1 : Int) < f.limit

theorem Frame.Sound.new (name : String) (limit : Int) : Frame.Sound { name, limit } where
  stack := by simp
  slots := by simp

theorem Frame.Sound.called {f : Machine.Function} {args : List Value} (h : args.length = f.params) :
    Frame.Sound { name := f.name, limit := f.slotLimit, slots := ({} : Slots).setFrom 0 args } where
  stack := by simp
  slots := by
    rintro - e he
    have bound : (f.params : Int) ≤ f.slotLimit := by
      unfold Machine.Function.slotLimit
      omega
    rcases Slots.mem_setFrom he with he | he
    · dsimp only
      omega
    · cases he

namespace RunState

variable {P : String → Prop} {s t u : RunState} {v : Value}

def Logs (P : String → Prop) (s t : RunState) : Prop :=
  ∃ bs, t.path.toList = s.path.toList ++ bs ∧ ∀ b ∈ bs, P b.pos

theorem Logs.of_eq (h : t.path = s.path) : Logs P s t := ⟨[], by simp [h], by simp⟩

theorem Logs.trans (s t u : RunState) (h : Logs P s t) (h' : Logs P t u) : Logs P s u := by
  obtain ⟨bs, hb, hp⟩ := h
  obtain ⟨bs', hb', hp'⟩ := h'
  refine ⟨bs ++ bs', by rw [hb', hb, List.append_assoc], fun b hm => ?_⟩
  exact (List.mem_append.mp hm).elim (hp b) (hp' b)

/-- Of all frames at most the current one differs, in what it holds. -/
structure Within (P : String → Prop) (s t : RunState) : Prop where
  callers : t.callers = s.callers
  name : t.frame.name = s.frame.name
  limit : t.frame.limit = s.frame.limit
  frozen : t.frozen = s.frozen
  sound : s.frame.Sound → t.frame.Sound
  logs : Logs P s t

namespace Within

theorem refl (s : RunState) : Within P s s := ⟨rfl, rfl, rfl, rfl, fun h => h, .of_eq rfl⟩

theorem trans (s t u : RunState) (h : Within P s t) (h' : Within P t u) : Within P s u :=
  ⟨h'.callers.trans h.callers, h'.name.trans h.name, h'.limit.trans h.limit,
    h'.frozen.trans h.frozen, h'.sound ∘ h.sound, .trans s t u h.logs h'.logs⟩

theorem withStack {stack : List Value}
    (h : s.frame.Sound → ∀ v ∈ stack, v.isValid = true) :
    Within P s { s with frame := { s.frame with stack } } :=
  ⟨rfl, rfl, rfl, rfl, fun hs => ⟨h hs, hs.slots⟩, .of_eq rfl⟩

end Within

def Call.Marks (P : String → Prop) : Call → Prop
  | recordBranch pos _ => P pos
  | _ => True

def Call.Stays (P : String → Prop) : Call → Prop
  | enter _ _ | leave | finish _ _ => False
  | c => c.Marks P

theorem Call.Stays.marks {c : Call} (h : c.Stays P) : c.Marks P := by
  cases c with
  | recordBranch => exact h
  | enter | leave | push | pop | popN | peek | load | store | input | finish | path | constraints
  | inputs => trivial

namespace Effect

variable {c : Call} {a : Answer}

theorem logs (h : Effect s c a t) (hc : c.Marks P) : Logs P s t := by
  cases h with
  | @branched pos cond term _ =>
    have hp : P pos := hc
    exact ⟨[⟨pos, term, cond.toBool⟩], by simp, by simpa using hp⟩
  | finished =>
    unfold finish
    split <;> exact .of_eq rfl
  | entered | left | pushed | popped | poppedMany | drained | peeked | loaded | placed | declared
  | redeclared | path | constraints | inputs | refused => exact .of_eq rfl

theorem within (h : Effect s c a t) (hc : c.Stays P) : Within P s t := by
  have hl := h.logs hc.marks
  cases h with
  | pushed hv => exact .withStack fun hs => by simpa using ⟨hv, hs.stack⟩
  | popped hst => exact .withStack fun hs w hw => hs.stack w (by simp [hst, hw])
  | poppedMany _ hst => exact .withStack fun hs w hw => hs.stack w (by simp [hst, hw])
  | drained => exact .withStack fun _ => by simp
  | placed _ below =>
    refine ⟨rfl, rfl, rfl, rfl, fun hs => ⟨hs.stack, fun limited e he => ?_⟩, hl⟩
    rcases Entries.mem_place he with rfl | he
    · have := below limited
      dsimp only
      omega
    · exact hs.slots limited e he
  | declared | branched => exact ⟨rfl, rfl, rfl, rfl, fun h => h, hl⟩
  | peeked | loaded | redeclared | path | constraints | inputs | refused => exact .refl s
  | entered | left | finished => cases hc

end Effect

namespace Follows

variable {C : Call → Prop}

theorem logs (h : s.Follows C t) (hC : ∀ c, C c → c.Marks P) : Logs P s t :=
  h.lift (fun _ => .of_eq rfl) .trans fun _ c _ _ hc he => he.logs (hC c hc)

theorem within (h : s.Follows C t) (hC : ∀ c, C c → c.Stays P) : Within P s t :=
  h.lift .refl .trans fun _ c _ _ hc he => he.within (hC c hc)

end Follows

theorem enter_eq_ok {name : String} {limit : Int} (h : enter name limit s = (.ok (), t)) :
    t = { s with frame := { name, limit }, callers := s.frame :: s.callers } := by
  cases enter_performs.effect h
  rfl

theorem leave_eq_ok (h : leave s = (.ok (), t)) :
    ∃ f rest, s.callers = f :: rest ∧ t = { s with frame := f, callers := rest } := by
  cases leave_performs.effect h with
  | left hc => exact ⟨_, _, hc, rfl⟩

theorem recordBranch_eq_ok {pos : String} {taken : Bool}
    (h : recordBranch pos v s = (.ok taken, t)) :
    ∃ b : Branch, b.pos = pos ∧ b.taken = taken ∧ t = { s with path := s.path.push b } := by
  cases recordBranch_performs.effect h
  exact ⟨_, rfl, rfl, rfl⟩

theorem push_eq_ok (h : push v s = (.ok (), t)) :
    t = { s with frame := { s.frame with stack := v :: s.frame.stack } } := by
  cases push_performs.effect h
  rfl

theorem pop_eq_ok (h : pop s = (.ok v, t)) :
    ∃ rest, s.frame.stack = v :: rest ∧ t = { s with frame := { s.frame with stack := rest } } := by
  cases pop_performs.effect h with
  | popped hst => exact ⟨_, hst, rfl⟩

theorem popN_eq_ok {n : Int} {vs : List Value} (h : popN n s = (.ok vs, t)) :
    ∃ rest, vs.length = n.toNat ∧ s.frame.stack = vs.reverse ++ rest ∧
      t = { s with frame := { s.frame with stack := rest } } := by
  cases (popN_performs n).effect h with
  | poppedMany hn hst => exact ⟨_, hn, hst, rfl⟩

theorem store_eq_ok {slot : Int} (h : store slot v s = (.ok (), t)) :
    t = { s with frame := { s.frame with slots := s.frame.slots.set slot.toNat v } } := by
  cases store_performs.effect h
  rfl

theorem storeFrom_eq_ok {slot : Nat} {vs : List Value}
    (h : Machine.storeFrom slot vs s = (.ok (), t)) :
    t = { s with frame := { s.frame with slots := s.frame.slots.setFrom slot vs } } := by
  induction vs generalizing slot s with
  | nil =>
    cases h
    rfl
  | cons v vs ih =>
    obtain ⟨_, s', hs, h⟩ := bind_apply_eq_ok h
    rw [store_eq_ok hs] at h
    exact ih h

theorem load_beyond {slot limit : Nat} (h : s.frame.Sound) (hl : s.frame.limit = limit)
    (pos : 0 < limit) (hs : limit ≤ slot) :
    load slot s = (.error (.error (.misuse (.loadRange slot s.frame.name))), s) := by
  have count : s.frame.slots.count ≤ limit := by
    refine Slots.count_le fun e he => ?_
    have := h.slots (by omega) e he
    omega
  rw [load, if_pos (.inr (by omega))]
  rfl

theorem store_beyond {slot limit : Nat} (hf : s.frozen = false) (hl : s.frame.limit = limit)
    (pos : 0 < limit) (hs : limit ≤ slot) (v : Value) :
    store slot v s = (.error (.error (.misuse (.storeRange slot s.frame.name))), s) := by
  rw [store, if_neg (by simp [hf]), if_pos (.inr ⟨by omega, by omega⟩)]
  rfl

end RunState

namespace Machine

open ExecM RunState

structure Around (P : String → Prop) (c d : Configuration) : Prop where
  functions : d.calls.map (·.function) = c.calls.map (·.function)
  rest : d.calls.tail = c.calls.tail
  state : c.state.Within P d.state

variable {α : Type} {P : String → Prop} {c d : Configuration}

namespace Around

theorem trans (c d e : Configuration) (h : Around P c d) (h' : Around P d e) : Around P c e :=
  ⟨h'.functions.trans h.functions, h'.rest.trans h.rest, .trans _ _ _ h.state h'.state⟩

theorem calls (h : Around P c d) {a : Activation} {rest : List Activation}
    (hc : c.calls = a :: rest) : ∃ pc, d.calls = { a with pc } :: rest := by
  obtain ⟨functions, tail, -⟩ := h
  rw [hc] at functions tail
  cases hd : d.calls with
  | nil => simp [hd] at functions
  | cons b later =>
    rw [hd] at functions tail
    obtain rfl : later = rest := tail
    obtain ⟨f, pc⟩ := b
    obtain rfl : f = a.function := (List.cons.inj functions).1
    exact ⟨pc, rfl⟩

end Around

section Instructions

variable {setup : Setup} {f : Function} {pc : Nat} {i : Instruction}

theorem Makes.marks {call : Call} (h : Makes f pc i call)
    (jump : i.opcode = .jumpif → P (position f pc))
    (division : i.opcode = .apply → i.operation.isDivision = true → P (position f pc ++ "/div")) :
    call.Marks P := by
  cases call with
  | recordBranch =>
    rcases h with ⟨ho, rfl⟩ | ⟨ho, hd, rfl⟩
    · exact jump ho
    · exact division ho hd
  | enter | leave | push | pop | popN | peek | load | store | input | finish | path | constraints
  | inputs => trivial

theorem Makes.stays {call : Call} (h : Makes f pc i call)
    (ordinary : i.opcode ∉ [.call, .ret, .halt]) (marks : call.Marks P) : call.Stays P := by
  cases call with
  | enter =>
    have ho : i.opcode = .call := h
    simp [ho] at ordinary
  | leave =>
    have ho : i.opcode = .ret := h
    simp [ho] at ordinary
  | finish => exact h
  | recordBranch => exact marks
  | push | pop | popN | peek | load | store | input | path | constraints | inputs => trivial

theorem exec_around (hl : i.opcode = .invoke → setup.library.AllTame)
    (ordinary : i.opcode ∉ [.call, .ret, .halt]) (jump : i.opcode = .jumpif → P (position f pc))
    (division : i.opcode = .apply → i.operation.isDivision = true → P (position f pc ++ "/div")) :
    Advances (Around P) (exec setup f pc i) := by
  intro c
  have h : Goes (Makes f pc i) c (exec setup f pc i c).2 := exec_goes hl ordinary c
  exact ⟨h.functions, h.rest,
    h.state.within fun _ hm => hm.stays ordinary (hm.marks jump division)⟩

theorem exec_logs (hl : i.opcode = .invoke → setup.library.AllTame)
    (jump : i.opcode = .jumpif → P (position f pc))
    (division : i.opcode = .apply → i.operation.isDivision = true → P (position f pc ++ "/div"))
    (c : Configuration) : c.state.Logs P (exec setup f pc i c).2.state :=
  (exec_proceeds hl c).state.logs fun _ hm => hm.marks jump division

end Instructions

section Success

theorem onState_eq_ok {m : RunM α} {a : α} (h : onState m c = (.ok a, d)) :
    ∃ t, m c.state = (.ok a, t) ∧ d = { c with state := t } := by
  obtain ⟨calls, s, x, y⟩ := c
  obtain ⟨hr, rfl⟩ := Prod.mk.inj h
  exact ⟨_, Prod.ext hr rfl, rfl⟩

theorem ofDefect_eq_ok {r : Except Defect α} {a : α} (h : ofDefect r c = (.ok a, d)) :
    d = c := by
  unfold ofDefect at h
  split at h <;> cases h
  rfl

theorem ofOperation_eq_ok {r : Except (Failure OperationError) Value} {v : Value}
    (h : ofOperation r c = (.ok v, d)) : d = c := by
  unfold ofOperation at h
  split at h <;> cases h
  rfl

theorem callFunction_eq_ok {p : Program} {name : String}
    (h : callFunction p name c = (.ok (), d)) :
    ∃ f args stack, p.function? name = some f ∧ args.length = f.params ∧
      c.state.frame.stack = args.reverse ++ stack ∧
      d = { c with
        calls := { function := f } :: c.calls
        state := { c.state with
          frame := { name := f.name, limit := f.slotLimit, slots := ({} : Slots).setFrom 0 args }
          callers := { c.state.frame with stack } :: c.state.callers } } := by
  unfold callFunction at h
  cases hf : p.function? name with
  | none =>
    rw [hf] at h
    cases h
  | some f =>
    rw [hf] at h
    obtain ⟨_, c', moved, h⟩ := bind_apply_eq_ok h
    cases h
    obtain ⟨t, entered, rfl⟩ := onState_eq_ok moved
    obtain ⟨args, s, popped, rest⟩ := bind_apply_eq_ok entered
    obtain ⟨_, s', framed, stored⟩ := bind_apply_eq_ok rest
    obtain ⟨stack, hn, hstack, rfl⟩ := popN_eq_ok popped
    rw [enter_eq_ok framed] at stored
    rw [storeFrom_eq_ok stored]
    exact ⟨f, args, stack, rfl, by simpa using hn, hstack, rfl⟩

theorem leaveFrame_eq_ok {s t : RunState} (hs : s.frame.Sound) (h : leaveFrame s = (.ok (), t)) :
    ∃ caller callers, s.callers = caller :: callers ∧
      t = { s with
        frame := { caller with stack := s.frame.stack.head?.toList ++ caller.stack }, callers } := by
  rw [leaveFrame_apply] at h
  split at h
  next he =>
    obtain ⟨f, rest, hc, rfl⟩ := leave_eq_ok h
    rw [List.isEmpty_iff] at he
    exact ⟨f, rest, hc, by simp [he]⟩
  next =>
    obtain ⟨v, s', hv, h⟩ := bind_apply_eq_ok h
    obtain ⟨_, s'', hl, h⟩ := bind_apply_eq_ok h
    obtain ⟨stack, hstack, rfl⟩ := pop_eq_ok hv
    obtain ⟨f, rest, hc, rfl⟩ := leave_eq_ok hl
    rw [if_pos (hs.stack v (by simp [hstack]))] at h
    obtain rfl := push_eq_ok h
    exact ⟨f, rest, hc, by simp [hstack]⟩

theorem returnFromCall_eq_ok (hs : c.state.frame.Sound) (h : returnFromCall c = (.ok (), d)) :
    (c.calls.tail = [] ∧ d = { c with calls := [] }) ∨
      (c.calls.tail ≠ [] ∧ ∃ caller callers, c.state.callers = caller :: callers ∧
        d = { c with
          calls := c.calls.tail
          state := { c.state with
            frame := { caller with stack := c.state.frame.stack.head?.toList ++ caller.stack }
            callers } }) := by
  rw [returnFromCall_apply] at h
  split at h
  next he =>
    cases h
    rw [List.isEmpty_iff] at he
    exact .inl ⟨he, by rw [he]⟩
  next he =>
    obtain ⟨t, ht, rfl⟩ := onState_eq_ok h
    obtain ⟨caller, callers, hc, rfl⟩ := leaveFrame_eq_ok hs ht
    exact .inr ⟨by simpa using he, caller, callers, hc, rfl⟩

end Success

def Configuration.next? (c : Configuration) : Option Instruction :=
  c.calls.head?.bind fun a => a.function.code[a.pc]?

/-- What one step does to the calls and the frames. -/
inductive Moves (p : Program) (c : Configuration) : Configuration → Prop
  | inside {i : Instruction} {d : Configuration} (next : c.next? = some i)
      (ordinary : i.opcode ∉ [.call, .ret, .halt]) (around : Around (fun _ => True) c d) :
      Moves p c d
  | call {i : Instruction} {f : Function} {a : Activation} {rest : List Activation}
      {args stack : List Value} (next : c.next? = some i) (opcode : i.opcode = .call)
      (function : p.function? i.name = some f) (calls : c.calls = a :: rest)
      (count : args.length = f.params) (top : c.state.frame.stack = args.reverse ++ stack) :
      Moves p c { c with
        calls := { function := f } :: { a with pc := a.pc + 1 } :: rest
        state := { c.state with
          frame := { name := f.name, limit := f.slotLimit, slots := ({} : Slots).setFrom 0 args }
          callers := { c.state.frame with stack } :: c.state.callers } }
  | ret {i : Instruction} {a b : Activation} {rest : List Activation} {caller : Frame}
      {callers : List Frame} (next : c.next? = some i) (opcode : i.opcode = .ret)
      (calls : c.calls = a :: b :: rest) (frames : c.state.callers = caller :: callers) :
      Moves p c { c with
        calls := b :: rest
        state := { c.state with
          frame := { caller with stack := c.state.frame.stack.head?.toList ++ caller.stack }
          callers } }
  | finish {i : Instruction} {a : Activation} (next : c.next? = some i) (opcode : i.opcode = .ret)
      (calls : c.calls = [a]) : Moves p c { c with calls := [] }

theorem step_eq_inl {setup : Setup} {number : Nat} (h : step setup number c = .inl d) :
    ∃ a rest i, c.calls = a :: rest ∧ a.function.code[a.pc]? = some i ∧
      exec setup a.function a.pc i { c with calls := { a with pc := a.pc + 1 } :: rest } =
        (.ok (), d) := by
  obtain ⟨calls, s, x, y⟩ := c
  cases calls with
  | nil => cases h
  | cons a rest =>
    rw [step] at h
    split_ifs at h
    split at h
    · cases h
    next i hi =>
      split at h
      next hx =>
        cases h
        exact ⟨a, rest, i, rfl, hi, hx⟩
      next => cases h

theorem step_moves {setup : Setup} (hl : setup.library.AllTame) {number : Nat}
    (hs : c.state.frame.Sound) (h : step setup number c = .inl d) : Moves setup.program c d := by
  obtain ⟨a, rest, i, hc, hi, hx⟩ := step_eq_inl h
  have next : c.next? = some i := by simp [Configuration.next?, hc, hi]
  have advanced : Around (fun _ => True) c
      { c with calls := { a with pc := a.pc + 1 } :: rest } := by
    refine ⟨?_, ?_, .refl _⟩ <;> simp [hc]
  by_cases ordinary : i.opcode ∉ [.call, .ret, .halt]
  · have moved : Advances (Around fun _ => True) (exec setup a.function a.pc i) :=
      exec_around (fun _ => hl) ordinary (fun _ => trivial) fun _ _ => trivial
    have := moved { c with calls := { a with pc := a.pc + 1 } :: rest }
    rw [hx] at this
    exact .inside next ordinary (.trans _ _ _ advanced this)
  simp only [List.mem_cons, List.not_mem_nil, or_false, not_not] at ordinary
  unfold exec at hx
  rcases ordinary with ho | ho | ho
  all_goals rw [ho] at hx; dsimp only at hx
  · obtain ⟨f, args, stack, hf, hn, hstack, rfl⟩ := callFunction_eq_ok hx
    exact .call next ho hf hc hn hstack
  · rcases returnFromCall_eq_ok (c := { c with calls := { a with pc := a.pc + 1 } :: rest }) hs hx with
      ⟨he, rfl⟩ | ⟨he, caller, callers, hf, rfl⟩
    · obtain rfl : rest = [] := he
      exact .finish next ho hc
    · obtain ⟨b, later, rfl⟩ := List.exists_cons_of_ne_nil he
      exact .ret next ho hc hf
  · cases hx

/-- The calls in progress beside their frames. The frame of the entry function is as it was given. -/
inductive Beside : List Activation → Frame → List Frame → Prop
  | entry (a : Activation) (root : Frame) : Beside [a] root []
  | call {a : Activation} {rest : List Activation} {frame caller : Frame} {callers : List Frame}
      (name : frame.name = a.function.name) (limit : frame.limit = a.function.slotLimit)
      (below : Beside rest caller callers) : Beside (a :: rest) frame (caller :: callers)

theorem Beside.around {a : Activation} {rest : List Activation} {frame frame' : Frame}
    {callers : List Frame} (h : Beside (a :: rest) frame callers) (pc : Nat)
    (name : frame'.name = frame.name) (limit : frame'.limit = frame.limit) :
    Beside ({ a with pc } :: rest) frame' callers := by
  cases h with
  | entry => exact .entry _ _
  | call hn hl below => exact .call (name.trans hn) (limit.trans hl) below

structure Configuration.Sound (p : Program) (c : Configuration) : Prop where
  functions : ∀ a ∈ c.calls, a.function ∈ p.functions
  beside : c.calls ≠ [] → Beside c.calls c.state.frame c.state.callers
  frames : ∀ f ∈ c.state.frame :: c.state.callers, f.Sound
  running : c.state.frozen = false

theorem Configuration.Sound.moves {p : Program} (h : c.Sound p) (hm : Moves p c d) : d.Sound p := by
  obtain ⟨frame, callers⟩ := List.forall_mem_cons.mp h.frames
  cases hm with
  | @inside i _ next _ around =>
    have ne : c.calls ≠ [] := by
      rintro he
      simp [Configuration.next?, he] at next
    obtain ⟨a, rest, hc⟩ := List.exists_cons_of_ne_nil ne
    obtain ⟨pc, hd⟩ := around.calls hc
    have functions := h.functions
    have beside := h.beside ne
    have state := around.state
    rw [hc] at functions beside
    refine ⟨by simpa [hd] using functions, fun _ => ?_, ?_, state.frozen.trans h.running⟩
    · rw [hd, state.callers]
      exact beside.around pc state.name state.limit
    · rw [state.callers]
      exact List.forall_mem_cons.mpr ⟨state.sound frame, callers⟩
  | @call i f a rest args stack next _ function calls count top =>
    have functions := h.functions
    have beside := h.beside (by simp [calls])
    rw [calls] at functions beside
    refine ⟨?_, fun _ => ?_, ?_, h.running⟩
    · exact List.forall_mem_cons.mpr ⟨List.mem_of_find?_eq_some function, by simpa using functions⟩
    · exact .call rfl rfl (beside.around _ rfl rfl)
    · refine List.forall_mem_cons.mpr
        ⟨.called count, List.forall_mem_cons.mpr ⟨⟨?_, frame.slots⟩, callers⟩⟩
      exact fun v hv => frame.stack v (top ▸ List.mem_append_right _ hv)
  | @ret i a b rest caller callers' next _ calls hf =>
    have functions := h.functions
    have beside := h.beside (by simp [calls])
    rw [calls] at functions beside
    rw [hf] at beside callers
    obtain ⟨sound, callers⟩ := List.forall_mem_cons.mp callers
    refine ⟨fun b hb => functions b (List.mem_cons_of_mem _ hb), fun _ => ?_, ?_, h.running⟩
    · obtain ⟨⟩ | ⟨-, -, below⟩ := beside
      exact below.around _ rfl rfl
    · refine List.forall_mem_cons.mpr ⟨⟨fun v hv => ?_, sound.slots⟩, callers⟩
      rcases List.mem_append.mp hv with hv | hv
      · exact frame.stack v (List.mem_of_head? (by simpa using hv))
      · exact sound.stack v hv
  | @finish i a next _ calls => exact ⟨by simp, by simp, h.frames, h.running⟩

theorem Reaches.sound {setup : Setup} (hl : setup.library.AllTame) {x : Bool} {s : RunState}
    (frame : s.frame.Sound) (root : s.callers = []) (running : s.frozen = false) {n : Nat}
    (h : Reaches setup x s n c) : c.Sound setup.program := by
  induction h with
  | @start f hf =>
    refine ⟨by simpa using List.mem_of_find?_eq_some hf, fun _ => ?_, ?_, running⟩
    · rw [root]
      exact .entry _ _
    · simpa [root] using frame
  | step _ hd ih => exact ih.moves (step_moves hl (ih.frames _ List.mem_cons_self) hd)

end Machine

end Concolic
