import Mathlib
import Concolic.Proofs.Library
import Concolic.Proofs.Lockstep.State
import Concolic.Proofs.Safety.Operation

namespace Concolic

/-- What a program can be blamed for. Frames and values that are not there are never its doing. -/
def Misuse.isOrderly : Misuse → Bool
  | noCaller | pushUnset | storeUnset | noEntry _ | crash _ => false
  | _ => true

/-- An error that a program may end by. The state is never frozen while it runs. -/
inductive RunError.Orderly : RunError → Prop
  | operands (op : Operation) (kinds : List Kind) (fault : OperandFault) :
    Orderly (.operation (.operands op kinds fault))
  | zeroDivisor (op : Operation) : Orderly (.operation (.zeroDivisor op))
  | misuse {m : Misuse} : m.isOrderly → Orderly (.misuse m)
  | unsupported (message : String) : Orderly (.unsupported message)
  | fault (message : String) : Orderly (.fault message)
  | stopped : Orderly .stopped
  | stepLimit : Orderly .stepLimit
  | cancelled : Orderly .cancelled

theorem RunError.orderly_operation (e : OperationError) : (operation e).Orderly := by
  cases e with
  | operands => exact .operands ..
  | zeroDivisor => exact .zeroDivisor _

section Safe

variable {α β σ : Type} {Q Q' : α → σ → Prop} {R : β → σ → Prop}

inductive Safe (Q : α → σ → Prop) : Except (Failure RunError) α × σ → Prop
  | ok {a : α} {s : σ} : Q a s → Safe Q (.ok a, s)
  | error {e : RunError} {s : σ} : e.Orderly → Safe Q (.error (.error e), s)

namespace Safe

variable {m : ExceptT (Failure RunError) (StateM σ) α}
  {f : α → ExceptT (Failure RunError) (StateM σ) β} {s : σ}

theorem bind (hm : Safe Q (m s)) (hf : ∀ a s, Q a s → Safe R (f a s)) :
    Safe R ((m >>= f) s) := by
  rw [bind_apply]
  generalize m s = x at hm ⊢
  cases hm with
  | ok hq => exact hf _ _ hq
  | error he => exact .error he

theorem discard (hm : Safe Q (m s)) :
    Safe (fun _ s => ∃ a, Q a s)
      ((Functor.discard m : ExceptT (Failure RunError) (StateM σ) PUnit) s) := by
  rw [discard_apply]
  generalize m s = x at hm ⊢
  cases hm with
  | ok hq => exact .ok ⟨_, hq⟩
  | error he => exact .error he

theorem imp {x : Except (Failure RunError) α × σ} (h : Safe Q x)
    (hQ : ∀ a s, Q a s → Q' a s) : Safe Q' x := by
  cases h with
  | ok hq => exact .ok (hQ _ _ hq)
  | error he => exact .error he

end Safe

end Safe

structure Frame.Regular (f : Frame) : Prop where
  stack : ∀ v ∈ f.stack, v.Regular
  slots : ∀ slot v, f.slots.get? slot = some v → v.Regular

theorem Frame.Regular.new (name : String) (limit : Int) : Frame.Regular { name, limit } where
  stack := by simp
  slots := by simp [Slots.get?]

namespace RunState

structure Regular (n : Nat) (s : RunState) : Prop where
  running : ¬s.frozen
  depth : s.callers.length = n
  frame : s.frame.Regular
  callers : ∀ f ∈ s.callers, f.Regular
  defaults : ∀ name k u, k.shape? = some u → ∃ v, s.defaults name k = .ok v ∧ v.kind = k

variable {n : Nat} {s : RunState} {v : Value}

theorem Regular.withFrame (h : s.Regular n) {f : Frame} (hf : f.Regular) :
    Regular n { s with frame := f } :=
  ⟨h.running, h.depth, hf, h.callers, h.defaults⟩

theorem enter_safe (h : s.Regular n) (name : String) (limit : Int) :
    Safe (fun _ => Regular (n + 1)) (enter name limit s) := by
  rw [enter, if_neg h.running]
  refine .ok ⟨h.running, by simp [h.depth], .new name limit, ?_, h.defaults⟩
  simpa using ⟨h.frame, h.callers⟩

theorem leave_safe (h : s.Regular (n + 1)) : Safe (fun _ => Regular n) (leave s) := by
  rw [leave, if_neg h.running]
  obtain ⟨f, rest, hs⟩ := List.exists_cons_of_length_eq_add_one h.depth
  have depth := h.depth
  have callers := h.callers
  simp only [hs, List.length_cons, Nat.add_right_cancel_iff, List.forall_mem_cons] at depth callers ⊢
  exact .ok ⟨h.running, depth, callers.1, callers.2, h.defaults⟩

theorem push_safe (h : s.Regular n) (hv : v.Regular) :
    Safe (fun _ => Regular n) (push v s) := by
  rw [push, if_neg h.running, if_neg (by simp [hv.isValid])]
  exact .ok (h.withFrame ⟨by simpa using ⟨hv, h.frame.stack⟩, h.frame.slots⟩)

theorem pop_safe (h : s.Regular n) : Safe (fun v s => v.Regular ∧ Regular n s) (pop s) := by
  rw [pop, if_neg h.running]
  split
  next => exact .error (.misuse rfl)
  next v rest hs =>
    have stack := h.frame.stack
    rw [hs, List.forall_mem_cons] at stack
    exact .ok ⟨stack.1, h.withFrame ⟨stack.2, h.frame.slots⟩⟩

theorem popOnto_safe (k : Nat) {acc : List Value} (h : s.Regular n) (ha : ∀ v ∈ acc, v.Regular) :
    Safe (fun vs s => ((∀ v ∈ vs, v.Regular) ∧ vs.length = k + acc.length) ∧ Regular n s)
      (popOnto k acc s) := by
  induction k generalizing acc s with
  | zero => exact .ok ⟨⟨ha, by simp⟩, h⟩
  | succ k ih =>
    refine (pop_safe h).bind fun v s hv => ?_
    refine (ih hv.2 (by simpa using ⟨hv.1, ha⟩)).imp fun vs s hs => ?_
    refine ⟨⟨hs.1.1, ?_⟩, hs.2⟩
    rw [hs.1.2, List.length_cons]
    omega

theorem popN_safe {k : Nat} (hk : k ≤ maxValues) (h : s.Regular n) :
    Safe (fun vs s => ((∀ v ∈ vs, v.Regular) ∧ vs.length = k) ∧ Regular n s) (popN k s) := by
  rw [popN, if_pos ⟨Int.natCast_nonneg k, by exact_mod_cast hk⟩, Int.toNat_natCast]
  simpa using popOnto_safe k h (show ∀ v ∈ ([] : List Value), v.Regular by simp)

theorem peek_safe (h : s.Regular n) : Safe (fun v s => v.Regular ∧ Regular n s) (peek s) := by
  unfold peek
  split
  next => exact .error (.misuse rfl)
  next v rest hs => exact .ok ⟨h.frame.stack v (by simp [hs]), h⟩

theorem load_safe (slot : Int) (h : s.Regular n) :
    Safe (fun v s => v.Regular ∧ Regular n s) (load slot s) := by
  unfold load
  split
  · exact .error (.misuse rfl)
  · split
    next v hs => exact .ok ⟨h.frame.slots _ v hs, h⟩
    next => exact .error (.misuse rfl)

theorem store_safe {slot : Nat} (hk : slot < maxValues) (h : s.Regular n) (hv : v.Regular) :
    Safe (fun _ => Regular n) (store slot v s) := by
  rw [store, if_neg h.running]
  split
  · exact .error (.misuse rfl)
  · rw [if_neg (by simp [hv.isValid]), if_neg (by omega)]
    refine .ok (h.withFrame ⟨h.frame.stack, fun other u hu => ?_⟩)
    rw [Slots.get?_set] at hu
    split at hu
    · cases hu
      exact hv
    · exact h.frame.slots other u hu

theorem initial_safe (h : s.Regular n) (name : String) {k : Kind} {u : Shape}
    (hk : k.shape? = some u) : ∃ v, s.initial name k = .ok v ∧ v.kind = k := by
  unfold initial
  split
  · split
    next v _ hv => exact ⟨v, rfl, hv⟩
    next => exact h.defaults name k u hk
  · exact h.defaults name k u hk

theorem input_safe (h : s.Regular n) (name : String) {k : Kind} {u : Shape}
    (hk : k.shape? = some u) :
    Safe (fun v s => v.Regular ∧ Regular n s) (input name k s) := by
  have variable_regular : ∀ v : Value, v.kind = k → (v.withTerm (some (.var name k))).Regular := by
    rintro v rfl
    exact Value.regular_withTerm hk (.var hk)
  rw [input, if_neg h.running]
  split
  · split
    next v _ hv => exact .ok ⟨variable_regular v hv, h⟩
    next => exact .error (.misuse rfl)
  · obtain ⟨v, hv, hvk⟩ := initial_safe h name hk
    rw [hv]
    exact .ok ⟨variable_regular v hvk, ⟨h.running, h.depth, h.frame, h.callers, h.defaults⟩⟩

theorem recordBranch_safe (h : s.Regular n) (pos : String) (hv : v.Regular) :
    Safe (fun _ => Regular n) (recordBranch pos v s) := by
  rw [recordBranch, if_neg h.running]
  split
  · exact .error (.misuse rfl)
  · obtain ⟨u, hu, hx⟩ := hv
    obtain ⟨t, ht, -⟩ := Value.term_builds hu hx
    rw [ht]
    exact .ok ⟨h.running, h.depth, h.frame, h.callers, h.defaults⟩

end RunState

theorem Value.exists_zero {k : Kind} {u : Shape} (hk : k.shape? = some u) :
    ∃ v, Value.zero k = .ok v ∧ v.Regular ∧ v.kind = k := by
  obtain ⟨b, hb⟩ := Value.ofBits_ok hk 0
  exact ⟨_, hb, .of_concrete hk b, rfl⟩

namespace Library

def Replies (e : Except Defect ModelResult) : Prop :=
  ∃ r, e = .ok r ∧ (r.value.isValid → r.value.Regular)

def Reliable (m : Model) : Prop :=
  ∃ f, m = .ofFunction f ∧ ∀ args : List Value, (∀ v ∈ args, v.Regular) → Replies (f args)

def AllReliable (l : Library) : Prop := ∀ name m, l.lookup name = some m → Reliable m

variable {name : String} {m : Model} {args : List Value}

theorem replies_unsupported (reason : String) : Replies (.ok (.unsupported reason)) :=
  ⟨_, rfl, nofun⟩

theorem replies_ok {v : Value} (hv : v.Regular) : Replies (.ok (.ok v)) := ⟨_, rfl, fun _ => hv⟩

theorem onWords_replies {count : Nat} {body : Kind → Except Defect ModelResult}
    (h : ∀ kind, args.length = count → (∀ v ∈ args, v.kind = kind) → Replies (body kind)) :
    Replies (onWords name count args body) := by
  unfold onWords
  split
  · exact replies_unsupported _
  next hn =>
    dsimp only
    split
    next hk =>
      apply h _ (not_not.mp hn)
      intro v hv
      have := List.all_eq_true.mp hk v hv
      simp_all
    next => exact replies_unsupported _

theorem applying_replies {op : Operation} {next : Value → Except Defect ModelResult}
    (ha : ∀ v ∈ args, v.Regular)
    (h : ∀ v : Value, v.Regular → op.resultKind (args.map (·.kind)) = .ok v.kind → Replies (next v)) :
    Replies (applying name op args next) := by
  unfold applying
  rcases op.apply_regular ha with ⟨v, hv, hs, hk⟩ | ⟨e, he⟩
  · rw [hv]
    exact h v hs hk
  · rw [he]
    exact ⟨_, rfl, nofun⟩

theorem choose_regular {c a b : Value} (hc : c.Regular) (hb : c.kind = .bool) (ha : a.Regular)
    (hb' : b.Regular) (hk : b.kind = a.kind) : ∃ v, choose c a b = .ok v ∧ v.Regular := by
  have chosen : (if c.toBool then a else b).Regular := by
    split
    · exact ha
    · exact hb'
  have kind : (if c.toBool then a else b).kind = a.kind := by
    split
    · rfl
    · exact hk
  unfold choose
  generalize (if c.toBool then a else b) = x at chosen kind ⊢
  dsimp only
  split_ifs
  · exact ⟨x, rfl, chosen⟩
  · exact ⟨x, rfl, chosen⟩
  · obtain ⟨u, hu, hcx⟩ := hc
    obtain ⟨s, hs, hax⟩ := ha
    obtain ⟨s', hs', hbx⟩ := hb'
    obtain rfl : u = .bits 1 := by
      rw [hb] at hu
      cases hu
      rfl
    obtain rfl : s' = s := by simpa [hk, hs] using hs'.symm
    obtain ⟨ct, hct, hcs⟩ := Value.term_builds hu hcx
    obtain ⟨y, hy, hys⟩ := Value.term_builds hs hax
    obtain ⟨z, hz, hzs⟩ := Value.term_builds hs' hbx
    obtain ⟨t, ht, hts⟩ := Term.mkIte_builds hcs hys hzs
    refine ⟨x.concrete.withTerm (some t), ?_, Value.regular_withTerm (kind ▸ hs) hts⟩
    simp only [hct, hy, hz, ht, ok_bind, pure_eq_ok]

theorem chosen_replies {c a b : Value} (hc : c.Regular) (hb : c.kind = .bool) (ha : a.Regular)
    (hb' : b.Regular) (hk : b.kind = a.kind) :
    Replies (do return .ok (← choose c a b)) := by
  obtain ⟨v, hv, hs⟩ := choose_regular hc hb ha hb' hk
  rw [hv]
  exact replies_ok hs

theorem abs_reliable : Reliable (.ofFunction abs) := by
  refine ⟨_, rfl, fun args ha => onWords_replies ?_⟩
  intro kind hn hk
  obtain ⟨x, rfl⟩ := List.length_eq_one_iff.mp hn
  obtain rfl := hk x (by simp)
  have hx := ha x (by simp)
  obtain ⟨s, hs, -⟩ := id hx
  obtain ⟨z, hz, hzs, hzk⟩ := Value.exists_zero hs
  simp only [hz, ok_bind, List.headD_cons]
  refine applying_replies (by simpa using ⟨hx, hzs⟩) fun c hc hck => ?_
  refine applying_replies (by simpa using hx) fun m hm hmk => ?_
  obtain ⟨_, _, he, -, hr⟩ := Operation.resultKind_ok hck
  cases he
  obtain ⟨_, _, he, -, hr'⟩ := Operation.resultKind_ok hmk
  cases he
  exact chosen_replies hc (Operation.resultOf_compare rfl hr).2 hm hx
    (Operation.resultOf_arithmetic rfl hr').1.symm

theorem select_reliable {op : Operation} (ho : op.isCompare) (name : String) :
    Reliable (.ofFunction (select name op)) := by
  refine ⟨_, rfl, fun args ha => onWords_replies ?_⟩
  intro kind hn hk
  obtain ⟨x, y, rfl⟩ := List.length_eq_two.mp hn
  refine applying_replies ha fun c hc hck => ?_
  obtain ⟨_, _, he, -, hr⟩ := Operation.resultKind_ok hck
  cases he
  obtain ⟨hy, hcb⟩ := Operation.resultOf_compare ho hr
  exact chosen_replies hc hcb (ha x (by simp)) (ha y (by simp)) hy

theorem signum_reliable : Reliable (.ofFunction signum) := by
  refine ⟨_, rfl, fun args ha => onWords_replies ?_⟩
  intro kind hn hk
  obtain ⟨x, rfl⟩ := List.length_eq_one_iff.mp hn
  obtain rfl := hk x (by simp)
  have hx := ha x (by simp)
  obtain ⟨s, hs, -⟩ := id hx
  obtain ⟨z, hz, hzs, -⟩ := Value.exists_zero hs
  simp only [hz, ok_bind, List.headD_cons]
  exact applying_replies (by simpa using ⟨hx, hzs⟩) fun v hv _ => replies_ok hv

theorem matcherFind_reliable : Reliable (.ofFunction matcherFind) :=
  ⟨_, rfl, fun _ _ => replies_unsupported _⟩

theorem AllReliable.register {l : Library} (hl : l.AllReliable) (hm : Reliable m) :
    (l.register name m).AllReliable := by
  intro other k hk
  rw [lookup_register] at hk
  split at hk
  · cases hk
    exact hm
  · exact hl other k hk

theorem AllReliable.invoke {l : Library} (hl : l.AllReliable) (name : String)
    (ha : ∀ v ∈ args, v.Regular) (s : RunState) :
    ∃ r, l.invoke name args s = { result := .ok r, state := s } ∧
      (r.value.isValid → r.value.Regular) := by
  unfold Library.invoke
  cases hm : l.lookup name with
  | none => exact ⟨_, rfl, nofun⟩
  | some m =>
    obtain ⟨f, rfl, hf⟩ := hl name m hm
    obtain ⟨r, hr, hv⟩ := hf args ha
    exact ⟨r, by simp [Model.ofFunction, hr], hv⟩

theorem empty_allReliable : empty.AllReliable := by
  intro name m hm
  cases hm

theorem standard_allReliable : standard.AllReliable :=
  (((((empty_allReliable.register abs_reliable).register (select_reliable rfl _)).register
    (select_reliable rfl _)).register signum_reliable).register signum_reliable).register
      matcherFind_reliable

theorem allReliable_of {l : Library} (hl : l = standard ∨ l = empty) : l.AllReliable := by
  rcases hl with rfl | rfl
  · exact standard_allReliable
  · exact empty_allReliable

end Library

end Concolic
