import Mathlib
import Concolic.Proofs.Frames

/-!
What a run keeps of its past, over every sequence of calls on its state. Main statement: inputs and
path only grow, the first end freezes the state for good, a refused call changes nothing but what
popping several values has popped, the root frame stays, and a slot has what was last stored in it.
-/

namespace Concolic

namespace Slots

variable {slot : Nat} {v : Value} {s : Slots}

theorem lt_count (h : Entries.Ascending s.entries) (hs : s.get? slot = some v) : slot < s.count := by
  obtain ⟨init, last, hl⟩ := List.eq_nil_or_concat' s.entries |>.resolve_left
    (List.ne_nil_of_mem (Entries.mem_of_lookup hs))
  have hc : s.count = last.1 + 1 := by simp [count, hl]
  have hm := Entries.mem_of_lookup hs
  rw [Entries.Ascending, hl, List.pairwise_append] at h
  rw [hl, List.mem_append, List.mem_singleton] at hm
  rcases hm with hm | rfl
  · have := h.2.2 _ hm last (List.mem_singleton_self last)
    dsimp only at this
    omega
  · omega

end Slots

def Frame.local? (f : Frame) (slot : Int) : Option Value :=
  if 0 ≤ slot then f.slots.get? slot.toNat else none

@[simp] theorem Frame.local?_new (name : String) (limit slot : Int) :
    ({ name, limit } : Frame).local? slot = none := by
  simp [local?, Slots.get?]

theorem Frame.local?_set (f : Frame) {slot : Int} (h : 0 ≤ slot) (other : Int) (v : Value) :
    ({ f with slots := f.slots.set slot.toNat v } : Frame).local? other =
      if slot = other then some v else f.local? other := by
  by_cases ho : 0 ≤ other
  · have : slot.toNat = other.toNat ↔ slot = other := by omega
    simp [local?, ho, this]
  · rw [if_neg (by omega)]
    simp [local?, ho]

namespace RunState

namespace Call

def Writes : Call → Prop
  | enter _ _ | leave | push _ | pop | store _ _ | input _ _ | recordBranch _ _ => True
  | popN n => 1 ≤ n ∧ n ≤ maxValues
  | _ => False

def Reads : Call → Prop
  | peek | load _ | path | constraints | inputs => True
  | _ => False

end Call

def after (s : RunState) (calls : List Call) : RunState :=
  calls.foldl (fun s c => (s.call c).2) s

def history (s : RunState) : List Call → List (Call × Answer)
  | [] => []
  | c :: rest => (c, (s.call c).1) :: (s.call c).2.history rest

def frames (s : RunState) : List Frame := s.frame :: s.callers

def root (s : RunState) : Frame := s.callers.getLast?.getD s.frame

/-- The latest value that was stored in a slot of the frame `up` levels above the current one. The
history has its latest call first. -/
def stored (slot : Int) : Nat → List (Call × Answer) → Option Value
  | _, [] => none
  | up, (.leave, .done) :: h => stored slot (up + 1) h
  | 0, (.enter _ _, .done) :: _ => none
  | up + 1, (.enter _ _, .done) :: h => stored slot up h
  | 0, (.store i v, .done) :: h => if i = slot then some v else stored slot 0 h
  | up, _ :: h => stored slot up h

structure Extends (s t : RunState) : Prop where
  inputs : ∀ name v, s.declared.get? name = some v → t.declared.get? name = some v
  path : s.path.toList <+: t.path.toList

variable {s t : RunState} {c : Call} {a : Answer}

theorem popN_of_frozen {n : Int} (hf : s.frozen = true) (h : 1 ≤ n ∧ n ≤ maxValues) :
    popN n s = (.error (.error .frozen), s) := by
  obtain ⟨k, rfl⟩ : ∃ k : Nat, n = k + 1 := ⟨n.toNat - 1, by omega⟩
  rw [popN, if_pos (by omega)]
  exact popOnto_of_frozen hf k []

theorem popN_outside {n : Int} (h : n < 0 ∨ (maxValues : Int) < n) (s : RunState) :
    popN n s = (.error (.defect .sizeOutOfRange), s) := by
  rw [popN, if_neg (by omega)]
  rfl

namespace Extends

theorem of_eq (hd : t.declared = s.declared) (hp : t.path = s.path) : Extends s t :=
  ⟨fun _ _ h => hd ▸ h, hp ▸ List.prefix_rfl⟩

theorem trans {s t u : RunState} (h : Extends s t) (h' : Extends t u) : Extends s u :=
  ⟨fun n v hn => h'.inputs n v (h.inputs n v hn), h.path.trans h'.path⟩

end Extends

namespace Effect

theorem extending (h : Effect s c a t) : Extends s t := by
  cases h with
  | declared fresh =>
    refine ⟨fun name v hv => ?_, List.prefix_rfl⟩
    rw [Input.get?_insert, if_neg, hv]
    rintro rfl
    simp [fresh] at hv
  | branched => exact ⟨fun _ _ h => h, by simp⟩
  | finished =>
    unfold finish
    split <;> exact .of_eq rfl rfl
  | entered | left | pushed | popped | poppedMany | drained | peeked | loaded | placed | redeclared
  | path | constraints | inputs | refused => exact .of_eq rfl rfl

/-- A call reaches the root frame only as the current one, and never removes it. -/
theorem root_eq (h : Effect s c a t) :
    (t.root = s.root ∨ s.callers = [] ∧ t.callers = []) ∧
      t.root.name = s.root.name ∧ t.root.limit = s.root.limit := by
  cases h with
  | entered => simp [root, List.getLast?_cons]
  | left hc => simp [root, hc, List.getLast?_cons]
  | finished =>
    unfold finish
    split <;> simp [root]
  | peeked | loaded | declared | redeclared | branched | path | constraints | inputs | refused =>
    simp [root]
  | pushed | popped | poppedMany | drained | placed =>
    cases hc : s.callers with
    | nil => simp [root, hc]
    | cons f rest => simp [root, hc, List.getLast?_cons]

end Effect

theorem snd_call_of_reads (hc : c.Reads) : (s.call c).2 = s := by
  have h := call_effect s c
  generalize (s.call c).1 = a, (s.call c).2 = t at h ⊢
  cases h with
  | peeked | loaded | redeclared | path | constraints | inputs | refused => rfl
  | entered | left | pushed | popped | poppedMany | drained | placed | declared | branched
  | finished => cases hc

theorem call_of_frozen_writes (hf : s.frozen = true) (hc : c.Writes) :
    s.call c = (.failed (.error .frozen), s) := by
  cases c with
  | popN n => rw [call, popN_of_frozen hf hc, reply]
  | enter | leave | push | pop | store | input | recordBranch =>
    simp [call, enter, leave, push, pop, store, input, recordBranch, hf, RunM.fail, reply]
  | peek | load | finish | path | constraints | inputs => cases hc

theorem call_of_frozen (hf : s.frozen = true) (c : Call) : (s.call c).2 = s := by
  cases c with
  | popN n =>
    by_cases hn : n < 0 ∨ (maxValues : Int) < n
    · rw [call, popN_outside hn, reply]
    · by_cases zero : n = 0
      · subst zero
        rfl
      · refine congrArg Prod.snd (call_of_frozen_writes hf ?_)
        exact ⟨by omega, by omega⟩
  | enter | leave | push | pop | store | input | recordBranch =>
    refine congrArg Prod.snd (call_of_frozen_writes hf ?_)
    trivial
  | peek | load | path | constraints | inputs => exact snd_call_of_reads trivial
  | finish => exact if_pos hf

theorem call_of_reads (hc : c.Reads) (status : RunStatus) (reason : String) :
    (({ s with status, reason, frozen := true } : RunState).call c).1 = (s.call c).1 := by
  cases c with
  | peek =>
    rw [call, call, peek, peek]
    dsimp only
    split <;> rfl
  | load slot =>
    rw [call, call, load, load]
    dsimp only
    split
    · rfl
    · split <;> rfl
  | path | constraints | inputs => rfl
  | enter | leave | push | pop | popN | store | input | recordBranch | finish => cases hc

theorem stored_cons {slot : Int} {up : Nat} {h : List (Call × Answer)} (ha : a ≠ .done) :
    stored slot up ((c, a) :: h) = stored slot up h := by
  rw [stored] <;> simp [ha]

structure Recalls (s : RunState) (h : List (Call × Answer)) : Prop where
  ascending : ∀ f ∈ s.frames, Entries.Ascending f.slots.entries
  latest : ∀ slot up, (s.frames[up]?.bind fun f => f.local? slot) = stored slot up h

namespace Recalls

variable {h : List (Call × Answer)}

theorem unmoved (hr : s.Recalls h) (hs : t.frame.slots = s.frame.slots)
    (hc : t.callers = s.callers) (hh : ∀ slot up, stored slot up ((c, a) :: h) = stored slot up h) :
    t.Recalls ((c, a) :: h) := by
  refine ⟨fun f hf => ?_, fun slot up => ?_⟩
  · rcases List.mem_cons.mp hf with rfl | hf
    · exact hs ▸ hr.ascending _ List.mem_cons_self
    · exact hr.ascending f (List.mem_cons_of_mem _ (hc ▸ hf))
  · rw [hh, ← hr.latest, frames, hc, frames]
    cases up with
    | zero => simp [Frame.local?, hs]
    | succ up => rfl

theorem step (hr : s.Recalls h) (he : Effect s c a t) : t.Recalls ((c, a) :: h) := by
  cases he with
  | entered =>
    refine ⟨fun f hf => ?_, fun slot up => ?_⟩
    · rcases List.mem_cons.mp hf with rfl | hf
      · exact List.Pairwise.nil
      · exact hr.ascending f hf
    · cases up with
      | zero => simp [frames, stored]
      | succ up => exact hr.latest slot up
  | left hc =>
    refine ⟨fun f hf => hr.ascending f ?_, fun slot up => ?_⟩
    · rw [frames, hc]
      exact List.mem_cons_of_mem _ hf
    · have := hr.latest slot (up + 1)
      rwa [frames, hc] at this
  | placed hs =>
    refine ⟨fun f hf => ?_, fun slot up => ?_⟩
    · rcases List.mem_cons.mp hf with rfl | hf
      · exact (hr.ascending _ List.mem_cons_self).alter
      · exact hr.ascending f (List.mem_cons_of_mem _ hf)
    · cases up with
      | zero =>
        rw [stored, ← hr.latest slot 0]
        exact Frame.local?_set _ hs slot _
      | succ up => exact hr.latest slot (up + 1)
  | finished =>
    unfold finish
    split <;> exact hr.unmoved rfl rfl fun slot up => by rw [stored] <;> simp
  | pushed => exact hr.unmoved rfl rfl fun slot up => by rw [stored] <;> simp
  | popped | poppedMany | drained | peeked | loaded | declared | redeclared | branched | path
  | constraints | inputs | refused => exact hr.unmoved rfl rfl fun _ _ => stored_cons (by simp)

end Recalls

theorem Recalls.load {h : List (Call × Answer)} (hr : s.Recalls h) (slot : Int) :
    match stored slot 0 h with
    | some v => (s.call (.load slot)).1 = .value v
    | none => ∃ m : Misuse, m.action = "load" ∧
        (s.call (.load slot)).1 = .failed (.error (.misuse m)) := by
  have hl : s.frame.local? slot = stored slot 0 h := hr.latest slot 0
  rw [← hl, call, RunState.load]
  by_cases hs : 0 ≤ slot
  · rw [Frame.local?, if_pos hs]
    cases hg : s.frame.slots.get? slot.toNat with
    | some v =>
      have := Slots.lt_count (hr.ascending s.frame List.mem_cons_self) hg
      rw [if_neg (by omega)]
      rfl
    | none =>
      by_cases range : slot < 0 ∨ (s.frame.slots.count : Int) ≤ slot
      · rw [if_pos range]
        exact ⟨_, rfl, rfl⟩
      · rw [if_neg range]
        exact ⟨_, rfl, rfl⟩
  · rw [Frame.local?, if_neg hs, if_pos (by omega)]
    exact ⟨_, rfl, rfl⟩

theorem leave_of_root (h : s.callers = []) : ∃ e, s.call .leave = (.failed (.error e), s) := by
  rw [call, leave, h]
  split <;> exact ⟨_, rfl⟩

theorem after_concat (s : RunState) (calls : List Call) (c : Call) :
    s.after (calls ++ [c]) = ((s.after calls).call c).2 := by
  simp [after]

theorem history_concat (s : RunState) (calls : List Call) (c : Call) :
    s.history (calls ++ [c]) = s.history calls ++ [(c, ((s.after calls).call c).1)] := by
  induction calls generalizing s with
  | nil => rfl
  | cons d rest ih =>
    rw [List.cons_append, history, ih]
    rfl

theorem recalls_after (hs : s.Recalls []) (calls : List Call) :
    (s.after calls).Recalls (s.history calls).reverse := by
  induction calls using List.reverseRecOn with
  | nil => exact hs
  | append_singleton calls c ih =>
    rw [after_concat, history_concat, List.reverse_append]
    exact ih.step (call_effect _ c)

theorem after_induction {P : RunState → Prop} {calls : List Call} (start : P s)
    (step : ∀ t c, c ∈ calls → P t → P (t.call c).2) : P (s.after calls) :=
  calls.foldlRecOn (motive := P) _ start fun t ht c hc => step t c hc ht

theorem extends_after (s : RunState) (calls : List Call) : s.Extends (s.after calls) :=
  after_induction (.of_eq rfl rfl) fun t c _ h => h.trans (call_effect t c).extending

theorem root_after (s : RunState) (calls : List Call) :
    (s.after calls).root.name = s.root.name ∧ (s.after calls).root.limit = s.root.limit := by
  refine after_induction (P := fun t => t.root.name = s.root.name ∧ t.root.limit = s.root.limit)
    ⟨rfl, rfl⟩ fun t c _ h => ?_
  obtain ⟨-, hn, hl⟩ := (call_effect t c).root_eq
  exact ⟨hn.trans h.1, hl.trans h.2⟩

theorem frozen_after (hs : s.frozen = false) {calls : List Call} (hc : ∀ c ∈ calls, ¬c.Ends) :
    (s.after calls).frozen = false :=
  after_induction (P := fun t => t.frozen = false) hs fun t c hm h =>
    ((call_effect t c).grows (hc c hm)).2.2.trans h

theorem after_of_frozen (hf : s.frozen = true) (calls : List Call) : s.after calls = s :=
  after_induction (P := fun t => t = s) rfl fun t c _ h => by rw [h, call_of_frozen hf]

theorem call_of_failed {f : Failure RunError} (hf : s.frozen = false)
    (h : (s.call c).1 = .failed f) : (s.call c).2 = s.afterFailure c f := by
  have he := call_effect s c
  rw [h] at he
  generalize (s.call c).2 = t at he ⊢
  cases he with
  | drained => rfl
  | refused unmoved => exact (unmoved hf).symm

/-- Whatever is called, what the run has read and decided stays, its first end is final, a failed
call leaves the state as it was but for the values that it popped, the frame that the run began with
stays, and loading a slot gives what was last stored there. -/
theorem calls_keep_the_past (id : String) (given : Input)
    (defaults : String → Kind → Except Defect Value) (calls : List Call) :
    let s := after { id, given, defaults } calls
    (∀ later, s.Extends (s.after later)) ∧
    ((∀ c ∈ calls, ¬c.Ends) → ∀ status reason,
      let ended : RunState := { s with status, reason, frozen := true }
      (∀ later, s.after (.finish status reason :: later) = ended) ∧
      (∀ c : Call, c.Writes → (ended.call c).1 = .failed (.error .frozen)) ∧
      ∀ c : Call, c.Reads → (ended.call c).1 = (s.call c).1) ∧
    (s.frozen = false → ∀ c f, (s.call c).1 = .failed f →
      (s.call c).2 = s.afterFailure c f) ∧
    (∀ n : Int, n < 0 ∨ (maxValues : Int) < n →
      s.call (.popN n) = (.failed (.defect .sizeOutOfRange), s)) ∧
    (s.root.name = "main" ∧ s.root.limit = 0 ∧
      (∀ c, (s.call c).2.root = s.root ∨ s.callers = [] ∧ (s.call c).2.callers = []) ∧
      (s.callers = [] → ∃ e, s.call .leave = (.failed (.error e), s))) ∧
    ∀ slot, match stored slot 0 (history { id, given, defaults } calls).reverse with
      | some v => (s.call (.load slot)).1 = .value v
      | none => ∃ m : Misuse, m.action = "load" ∧
          (s.call (.load slot)).1 = .failed (.error (.misuse m)) := by
  intro s
  have recalls : s.Recalls (history { id, given, defaults } calls).reverse := by
    refine recalls_after ⟨?_, ?_⟩ calls
    · simp [frames, Entries.Ascending]
    · intro slot up
      cases up <;> simp [frames, stored]
  refine ⟨s.extends_after,
    fun running status reason => ⟨fun later => ?_, fun c hc => ?_, fun c hc => ?_⟩,
    fun running c f => call_of_failed running, fun n hn => ?_, ?_, recalls.load⟩
  · have hf : s.frozen = false := frozen_after rfl running
    have end_eq : s.finish status reason = { s with status, reason, frozen := true } :=
      if_neg (by simp [hf])
    rw [← end_eq]
    have frozen : (s.finish status reason).frozen = true := by rw [end_eq]
    exact after_of_frozen frozen later
  · exact congrArg Prod.fst (call_of_frozen_writes rfl hc)
  · exact call_of_reads hc status reason
  · rw [call, popN_outside hn, reply]
  · obtain ⟨hn, hl⟩ := root_after { id, given, defaults } calls
    exact ⟨hn, hl, fun c => (call_effect s c).root_eq.1, leave_of_root⟩

theorem calls_keep_the_past_nested :
    let seven : Value := { kind := .int, bits := 7 }
    let eight : Value := { kind := .int, bits := 8 }
    let calls : List Call :=
      [.push eight, .store 1 seven, .enter "f" 2, .store 1 eight, .push eight, .leave]
    let s := after { id := "run" } calls
    ((∀ c ∈ calls, ¬c.Ends) ∧ s.frozen = false ∧
      (s.call (.popN 3)).1 = .failed (.error (.misuse (.underflow "main")))) ∧
    s.after [.finish .faulted "over", .push eight, .finish .completed ""] =
      { s with status := .faulted, reason := "over", frozen := true } ∧
    (s.call (.popN 3)).2 = { s with frame := { s.frame with stack := [] } } ∧
    (s.call (.load 1)).1 = .value seven := by
  intro seven eight calls s
  obtain ⟨-, ended, failed, -, -, loaded⟩ :=
    calls_keep_the_past "run" ∅ (fun _ kind => Value.zero kind) calls
  have running : ∀ c ∈ calls, ¬c.Ends := by simp [calls, Call.Ends]
  have short : (s.call (.popN 3)).1 = .failed (.error (.misuse (.underflow "main"))) := by
    rw [call, popN, if_pos (by decide)]
    rfl
  exact ⟨⟨running, rfl, short⟩, (ended running .faulted "over").1 _, failed rfl (.popN 3) _ short,
    loaded 1⟩

/-- A run that has ended does not say so when more values are asked for than a list can hold. -/
theorem popN_of_frozen_crashes :
    let s := after { id := "run" } [.finish .completed ""]
    s.frozen = true ∧ (1 : Int) ≤ 2 ^ 62 ∧
      (s.call (.popN (2 ^ 62))).1 = .failed (.defect .sizeOutOfRange) :=
  ⟨rfl, by decide, congrArg Prod.fst (congrArg (reply .values) (popN_outside (by decide) _))⟩

end RunState

end Concolic
