import Mathlib
import Concolic.Run.State

/-!
What each operation on the state of a run can answer and leave behind. Every fact about how a state
changes follows from `RunState.call_effect`, without a look at the operation itself.
-/

namespace Concolic

section Actions

variable {ε α β σ : Type} {r : σ → σ → Prop} {m : ExceptT ε (StateM σ) α}
  {f : α → ExceptT ε (StateM σ) β}

theorem bind_apply (m : ExceptT ε (StateM σ) α) (f : α → ExceptT ε (StateM σ) β) (s : σ) :
    (m >>= f) s = match m s with
      | (.ok a, s) => f a s
      | (.error e, s) => (.error e, s) := by
  change (match m s with | (x, s) => ExceptT.bindCont f x s) = _
  rcases m s with ⟨_ | _, _⟩ <;> rfl

theorem bind_apply_eq_ok {s u : σ} {b : β} (h : (m >>= f) s = (.ok b, u)) :
    ∃ a t, m s = (.ok a, t) ∧ f a t = (.ok b, u) := by
  rw [bind_apply] at h
  split at h
  next a t hm => exact ⟨a, t, hm, h⟩
  next => cases h

theorem discard_apply (m : ExceptT ε (StateM σ) α) (s : σ) :
    (discard m : ExceptT ε (StateM σ) PUnit) s = match m s with
      | (.ok _, s) => (.ok ⟨⟩, s)
      | (.error e, s) => (.error e, s) := by
  change (match m s with
    | (x, s) => (match x with
      | .ok _ => pure (.ok ⟨⟩)
      | .error e => pure (.error e) : StateM σ (Except ε PUnit)) s) = _
  rcases m s with ⟨_ | _, _⟩ <;> rfl

def Advances (r : σ → σ → Prop) (m : ExceptT ε (StateM σ) α) : Prop := ∀ s, r s (m s).2

namespace Advances

theorem bind (hr : ∀ s t u, r s t → r t u → r s u) (hm : Advances r m)
    (hf : ∀ a, Advances r (f a)) : Advances r (m >>= f) := by
  intro s
  have h := hm s
  rw [bind_apply]
  generalize m s = x at h ⊢
  rcases x with ⟨_ | a, t⟩
  · exact h
  · exact hr s t _ h (hf a t)

theorem discard (hm : Advances r m) :
    Advances r (Functor.discard m : ExceptT ε (StateM σ) PUnit) := by
  intro s
  have h := hm s
  rw [discard_apply]
  generalize m s = x at h ⊢
  rcases x with ⟨_ | a, t⟩ <;> exact h

end Advances

end Actions

namespace RunState

inductive Call
  | enter (name : String) (limit : Int)
  | leave
  | push (v : Value)
  | pop
  | popN (n : Int)
  | peek
  | load (slot : Int)
  | store (slot : Int) (v : Value)
  | input (name : String) (kind : Kind)
  | recordBranch (pos : String) (cond : Value)
  | finish (status : RunStatus) (reason : String)
  | path
  | constraints
  | inputs
  deriving DecidableEq

def Call.Ends : Call → Prop
  | finish _ _ => True
  | _ => False

inductive Answer
  | done
  | value (v : Value)
  | values (vs : List Value)
  | taken (taken : Bool)
  | path (branches : Array Branch)
  | constraints (terms : List Term)
  | inputs (declared : Input)
  | failed (f : Failure RunError)

def reply {α : Type} (wrap : α → Answer) :
    Except (Failure RunError) α × RunState → Answer × RunState
  | (.ok a, t) => (wrap a, t)
  | (.error f, t) => (.failed f, t)

def call (s : RunState) : Call → Answer × RunState
  | .enter name limit => reply (fun _ => .done) (enter name limit s)
  | .leave => reply (fun _ => .done) (leave s)
  | .push v => reply (fun _ => .done) (push v s)
  | .pop => reply .value (pop s)
  | .popN n => reply .values (popN n s)
  | .peek => reply .value (peek s)
  | .load slot => reply .value (load slot s)
  | .store slot v => reply (fun _ => .done) (store slot v s)
  | .input name kind => reply .value (input name kind s)
  | .recordBranch pos cond => reply .taken (recordBranch pos cond s)
  | .finish status reason => (.done, s.finish status reason)
  | .path => (.path s.path, s)
  | .constraints => (.constraints s.constraints, s)
  | .inputs => (.inputs s.declared, s)

def afterFailure (s : RunState) : Call → Failure RunError → RunState
  | .popN _, .error _ => { s with frame := { s.frame with stack := [] } }
  | _, _ => s

/-- What a call can answer and leave behind. Where it fails the state stays as it is, except that
popping several values while the run goes on takes away all there are. -/
inductive Effect (s : RunState) : Call → Answer → RunState → Prop
  | entered {name : String} {limit : Int} : Effect s (.enter name limit) .done
      { s with frame := { name, limit }, callers := s.frame :: s.callers }
  | left {f : Frame} {rest : List Frame} : s.callers = f :: rest →
      Effect s .leave .done { s with frame := f, callers := rest }
  | pushed {v : Value} : v.isValid = true → Effect s (.push v) .done
      { s with frame := { s.frame with stack := v :: s.frame.stack } }
  | popped {v : Value} {stack : List Value} : s.frame.stack = v :: stack →
      Effect s .pop (.value v) { s with frame := { s.frame with stack } }
  | poppedMany {n : Int} {vs stack : List Value} : vs.length = n.toNat →
      s.frame.stack = vs.reverse ++ stack →
      Effect s (.popN n) (.values vs) { s with frame := { s.frame with stack } }
  | drained {n : Int} : Effect s (.popN n) (.failed (.error (.misuse (.underflow s.frame.name))))
      { s with frame := { s.frame with stack := [] } }
  | peeked {v : Value} : Effect s .peek (.value v) s
  | loaded {slot : Int} {v : Value} : Effect s (.load slot) (.value v) s
  | placed {slot : Int} {v : Value} : 0 ≤ slot → (0 < s.frame.limit → slot < s.frame.limit) →
      Effect s (.store slot v) .done
        { s with frame := { s.frame with slots := s.frame.slots.set slot.toNat v } }
  | declared {name : String} {kind : Kind} {v w : Value} : s.declared.get? name = none →
      Effect s (.input name kind) (.value v) { s with declared := s.declared.insert name w }
  | redeclared {name : String} {kind : Kind} {v : Value} : Effect s (.input name kind) (.value v) s
  | branched {pos : String} {cond : Value} {term : Term} : cond.term = .ok term →
      Effect s (.recordBranch pos cond) (.taken cond.toBool)
        { s with path := s.path.push ⟨pos, term, cond.toBool⟩ }
  | finished {status : RunStatus} {reason : String} :
      Effect s (.finish status reason) .done (s.finish status reason)
  | path : Effect s .path (.path s.path) s
  | constraints : Effect s .constraints (.constraints s.constraints) s
  | inputs : Effect s .inputs (.inputs s.declared) s
  | refused {c : Call} {f : Failure RunError} : (s.frozen = false → s.afterFailure c f = s) →
      Effect s c (.failed f) s

variable {s t : RunState}

/-- Popping more values than there are pops them all. -/
theorem popOnto_apply (hf : s.frozen = false) (n : Nat) (acc : List Value) :
    popOnto n acc s =
      if n ≤ s.frame.stack.length then
        (.ok ((s.frame.stack.take n).reverse ++ acc),
          { s with frame := { s.frame with stack := s.frame.stack.drop n } })
      else (.error (.error (.misuse (.underflow s.frame.name))),
        { s with frame := { s.frame with stack := [] } }) := by
  induction n generalizing acc s with
  | zero => rfl
  | succ n ih =>
    rw [popOnto, bind_apply]
    cases hs : s.frame.stack with
    | nil =>
      have hp : pop s = (.error (.error (.misuse (.underflow s.frame.name))), s) := by
        simp [pop, hf, hs, RunM.fail, RunM.misuse]
      rw [hp, ← hs, if_neg (by simp [hs])]
    | cons v rest =>
      have hp : pop s = (.ok v, { s with frame := { s.frame with stack := rest } }) := by
        simp [pop, hf, hs]
      rw [hp]
      simp [ih (s := { s with frame := { s.frame with stack := rest } }) hf]

theorem popOnto_of_frozen (hf : s.frozen = true) (n : Nat) (acc : List Value) :
    popOnto (n + 1) acc s = (.error (.error .frozen), s) := by
  have hp : pop s = (.error (.error .frozen), s) := by simp [pop, hf, RunM.fail]
  rw [popOnto, bind_apply, hp]

theorem popN_effect (n : Int) (s : RunState) :
    Effect s (.popN n) (reply .values (popN n s)).1 (reply .values (popN n s)).2 := by
  unfold popN
  split
  · cases hf : s.frozen with
    | false =>
      rw [popOnto_apply hf]
      split
      next enough =>
        refine .poppedMany ?_ (by simp)
        rw [List.append_nil, List.length_reverse, List.length_take]
        omega
      · exact .drained
    | true =>
      cases hn : n.toNat with
      | zero => exact .poppedMany (by simp [hn]) rfl
      | succ k =>
        rw [popOnto_of_frozen hf]
        exact .refused fun running => by simp [hf] at running
  · exact .refused fun _ => rfl

theorem call_effect (s : RunState) (c : Call) : Effect s c (s.call c).1 (s.call c).2 := by
  cases c with
  | enter name limit =>
    rw [call, enter]
    split
    · exact .refused fun _ => rfl
    · exact .entered
  | leave =>
    rw [call, leave]
    split
    · exact .refused fun _ => rfl
    · split
      · exact .refused fun _ => rfl
      · exact .left ‹_›
  | push v =>
    rw [call, push]
    split
    · exact .refused fun _ => rfl
    · split
      · exact .refused fun _ => rfl
      next hv => exact .pushed (by simpa using hv)
  | pop =>
    rw [call, pop]
    split
    · exact .refused fun _ => rfl
    · split
      · exact .refused fun _ => rfl
      · exact .popped ‹_›
  | popN n => exact popN_effect n s
  | peek =>
    rw [call, peek]
    split
    · exact .refused fun _ => rfl
    · exact .peeked
  | load slot =>
    rw [call, load]
    split
    · exact .refused fun _ => rfl
    · split
      · exact .loaded
      · exact .refused fun _ => rfl
  | store slot v =>
    rw [call, store]
    split
    · exact .refused fun _ => rfl
    · split
      · exact .refused fun _ => rfl
      · split
        · exact .refused fun _ => rfl
        · split
          · exact .refused fun _ => rfl
          · exact .placed (by omega) (by omega)
  | input name kind =>
    rw [call, input]
    split
    · exact .refused fun _ => rfl
    · split
      · split
        · exact .redeclared
        · exact .refused fun _ => rfl
      · split
        · exact .refused fun _ => rfl
        · exact .declared ‹_›
  | recordBranch pos cond =>
    rw [call, recordBranch]
    split
    · exact .refused fun _ => rfl
    · split
      · exact .refused fun _ => rfl
      · split
        · exact .refused fun _ => rfl
        · exact .branched ‹_›
  | finish => exact .finished
  | path => exact .path
  | constraints => exact .constraints
  | inputs => exact .inputs

def Performs {α : Type} (m : RunM α) (c : Call) (wrap : α → Answer) : Prop :=
  ∀ s, s.call c = reply wrap (m s)

namespace Performs

variable {α : Type} {m : RunM α} {c : Call} {wrap : α → Answer}

theorem advances {r : RunState → RunState → Prop} (hm : Performs m c wrap)
    (hr : ∀ s a t, Effect s c a t → r s t) : Advances r m := by
  intro s
  have he := call_effect s c
  rw [hm s] at he
  generalize m s = x at he ⊢
  rcases x with ⟨_ | _, _⟩ <;> exact hr _ _ _ he

theorem effect {a : α} (hm : Performs m c wrap) (h : m s = (.ok a, t)) :
    Effect s c (wrap a) t := by
  have he := call_effect s c
  rwa [hm s, h] at he

end Performs

abbrev Follows (C : Call → Prop) : RunState → RunState → Prop :=
  Relation.ReflTransGen fun s t => ∃ c a, C c ∧ Effect s c a t

namespace Follows

variable {C : Call → Prop}

theorem trans (s t u : RunState) (h : s.Follows C t) (h' : t.Follows C u) : s.Follows C u :=
  Relation.ReflTransGen.trans h h'

/-- What every call keeps is kept by all of them. -/
theorem lift {r : RunState → RunState → Prop} (h : s.Follows C t) (refl : ∀ s, r s s)
    (trans : ∀ s t u, r s t → r t u → r s u)
    (step : ∀ s c a t, C c → Effect s c a t → r s t) : r s t := by
  induction h with
  | refl => exact refl s
  | tail _ he ih =>
    obtain ⟨c, a, hc, he⟩ := he
    exact trans _ _ _ ih (step _ c a _ hc he)

end Follows

theorem Performs.follows {α : Type} {m : RunM α} {c : Call} {wrap : α → Answer} {C : Call → Prop}
    (hm : Performs m c wrap) (hc : C c) : Advances (Follows C) m :=
  hm.advances fun _ _ _ he => .single ⟨c, _, hc, he⟩

section Operations

variable {v : Value} {slot : Int} {name : String} {kind : Kind} {limit : Int} {pos : String}

theorem enter_performs : Performs (enter name limit) (.enter name limit) fun _ => .done :=
  fun _ => rfl

theorem leave_performs : Performs leave .leave fun _ => .done := fun _ => rfl

theorem push_performs : Performs (push v) (.push v) fun _ => .done := fun _ => rfl

theorem pop_performs : Performs pop .pop .value := fun _ => rfl

theorem popN_performs (n : Int) : Performs (popN n) (.popN n) .values := fun _ => rfl

theorem peek_performs : Performs peek .peek .value := fun _ => rfl

theorem load_performs : Performs (load slot) (.load slot) .value := fun _ => rfl

theorem store_performs : Performs (store slot v) (.store slot v) fun _ => .done := fun _ => rfl

theorem input_performs : Performs (input name kind) (.input name kind) .value := fun _ => rfl

theorem recordBranch_performs : Performs (recordBranch pos v) (.recordBranch pos v) .taken :=
  fun _ => rfl

end Operations

end RunState

end Concolic
