import Mathlib
import Concolic.Proofs.Exploration.Direction
import Concolic.Proofs.Safety.State

/-!
The terms of a run are its shadow: what is left without them is a plain state. Operations, models
and actions on a state compute the concrete parts from concrete parts alone, so that they do to the
plain state what they do to the full one. Only the terms themselves can get in the way, where an
input has a value that its variable cannot stand for.
-/

namespace Concolic

section Alongside

variable {α β σ : Type} {p : Prop} {T : σ → σ → Prop} {Q Q' : α → α → Prop} {R : β → β → Prop}

/-- An action and its plain counterpart: both succeed or fail alike and leave related states. Unless
`p` holds, the first may crash instead. -/
inductive Alongside (p : Prop) (T : σ → σ → Prop) (Q : α → α → Prop) :
    Except (Failure RunError) α × σ → Except (Failure RunError) α × σ → Prop
  | ok {a b : α} {s t : σ} : T s t → Q a b → Alongside p T Q (.ok a, s) (.ok b, t)
  | error {e : Failure RunError} {s t : σ} : T s t → Alongside p T Q (.error e, s) (.error e, t)
  | crash {d : Defect} {s : σ} {y : Except (Failure RunError) α × σ} : ¬p →
    Alongside p T Q (.error (.defect d), s) y

namespace Alongside

variable {m n : ExceptT (Failure RunError) (StateM σ) α}
  {f g : α → ExceptT (Failure RunError) (StateM σ) β} {s t : σ}

theorem bind (hm : Alongside p T Q (m s) (n t))
    (hf : ∀ a b s t, T s t → Q a b → Alongside p T R (f a s) (g b t)) :
    Alongside p T R ((m >>= f) s) ((n >>= g) t) := by
  rw [bind_apply, bind_apply]
  generalize m s = x at hm ⊢
  generalize n t = y at hm ⊢
  cases hm with
  | ok ht hq => exact hf _ _ _ _ ht hq
  | error ht => exact .error ht
  | crash hp => exact .crash hp

theorem discard (hm : Alongside p T Q (m s) (n t)) :
    Alongside p T Eq ((Functor.discard m : ExceptT (Failure RunError) (StateM σ) PUnit) s)
      ((Functor.discard n : ExceptT (Failure RunError) (StateM σ) PUnit) t) := by
  rw [discard_apply, discard_apply]
  generalize m s = x at hm ⊢
  generalize n t = y at hm ⊢
  cases hm with
  | ok ht _ => exact .ok ht rfl
  | error ht => exact .error ht
  | crash hp => exact .crash hp

end Alongside

end Alongside

theorem bind_eq_refusal {ε α β : Type} {x : Except Defect α} {f : α → Except (Failure ε) β} {e : ε}
    (h : (liftM x >>= f) = .error (.error e)) : ∃ a, x = .ok a ∧ f a = .error (.error e) := by
  cases x with
  | error d => cases h
  | ok a => exact ⟨a, rfl, h⟩

namespace Value

variable {v : Value}

@[simp] theorem concrete_kind (v : Value) : v.concrete.kind = v.kind := rfl

@[simp] theorem isValid_concrete (v : Value) : v.concrete.isValid = v.isValid := rfl

@[simp] theorem concrete_withTerm (v : Value) (t : Option Term) :
    (v.withTerm t).concrete = v.concrete := rfl

@[simp] theorem isConcrete_concrete (v : Value) : v.concrete.isConcrete = true := rfl

theorem concrete_of_expr (h : v.expr = none) : v.concrete = v := by
  cases v
  cases h
  rfl

theorem ofBits_expr {k : Kind} {n : Nat} (h : ofBits k n = .ok v) : v.expr = none := by
  obtain ⟨w, -, h⟩ := bind_eq_ok h
  cases h
  rfl

theorem concrete_of_zero {k : Kind} (h : zero k = .ok v) : v.concrete = v :=
  concrete_of_expr (ofBits_expr h)

end Value

namespace Operation

variable {op : Operation} {args : List Value} {v : Value}

theorem fold_expr {kind k : Kind} {l r : Term} (h : op.fold kind k l r = .ok v) :
    v.expr = none := by
  obtain ⟨t, ht, -⟩ := bind_eq_ok h
  obtain ⟨n, hn⟩ := Value.ofBits_of_ofTerm (fold_ok ht h)
  exact Value.ofBits_expr hn

theorem secondTerm_literal (args : List Value) :
    secondTerm Value.literal (args.map Value.concrete) = secondTerm Value.literal args := by
  rcases args with _ | ⟨a, _ | ⟨b, rest⟩⟩ <;> rfl

theorem all_isConcrete (args : List Value) :
    (args.map Value.concrete).all Value.isConcrete = true := by
  simp

/-- The concrete part of a result is computed first, from the concrete parts of the operands; what
can still go wrong after that is the building of a term. -/
theorem apply_eq (op : Operation) (args : List Value) :
    op.apply args = do
      let result ← op.apply (args.map Value.concrete)
      if args.all Value.isConcrete then return result
      let t ← op.build (args.headD .unset).kind (← (args.headD .unset).term)
        (← secondTerm Value.term args)
      return result.withTerm (some t) := by
  have kinds : (args.map Value.concrete).map (·.kind) = args.map (·.kind) := by simp
  unfold apply
  rw [kinds]
  cases op.resultKind (args.map (·.kind)) with
  | error e => rfl
  | ok kind =>
    cases args with
    | nil => rfl
    | cons a rest =>
      have divisor : (rest.map Value.concrete).any (fun b => !b.kind.isFloat && b.bits = 0) =
          rest.any fun b => !b.kind.isFloat && b.bits = 0 := by
        rw [List.any_map]
        rfl
      have second := secondTerm_literal (a :: rest)
      have all := all_isConcrete (a :: rest)
      simp only [List.map_cons] at second all ⊢
      simp only [divisor, second, all]
      split
      · rfl
      · -- Concrete operands leave nothing to build.
        simp only [if_true, bind_assoc, bind_pure]
        rfl

theorem expr_of_apply_concrete (h : op.apply (args.map Value.concrete) = .ok v) :
    v.expr = none := by
  unfold apply at h
  obtain ⟨kind, -, h⟩ := bind_eq_ok h
  simp only [all_isConcrete, if_true] at h
  split at h
  · cases h
  split at h
  · cases h
  obtain ⟨l, -, h⟩ := bind_eq_ok h
  obtain ⟨r, -, h⟩ := bind_eq_ok h
  obtain ⟨x, hx, h⟩ := bind_eq_ok h
  cases h
  exact fold_expr (liftM_eq_ok hx)

theorem apply_concrete_of_ok (h : op.apply args = .ok v) :
    op.apply (args.map Value.concrete) = .ok v.concrete := by
  rw [apply_eq] at h
  obtain ⟨x, hx, h⟩ := bind_eq_ok h
  have plain := Value.concrete_of_expr (expr_of_apply_concrete hx)
  split at h
  · cases h
    rw [hx, plain]
  · obtain ⟨l, -, h⟩ := bind_eq_ok h
    obtain ⟨r, -, h⟩ := bind_eq_ok h
    obtain ⟨t, -, h⟩ := bind_eq_ok h
    cases h
    rw [hx, Value.concrete_withTerm, plain]

theorem apply_concrete_of_error {e : OperationError} (h : op.apply args = .error (.error e)) :
    op.apply (args.map Value.concrete) = .error (.error e) := by
  rw [apply_eq] at h
  cases hx : op.apply (args.map Value.concrete) with
  | error f =>
    rw [hx] at h
    exact h
  | ok x =>
    rw [hx] at h
    dsimp only [ok_bind] at h
    split at h
    · cases h
    · obtain ⟨l, -, h⟩ := bind_eq_refusal h
      obtain ⟨r, -, h⟩ := bind_eq_refusal h
      obtain ⟨t, -, h⟩ := bind_eq_refusal h
      cases h

end Operation

theorem headD_concrete (args : List Value) :
    (args.map Value.concrete).headD .unset = (args.headD .unset).concrete := by
  cases args <;> rfl

theorem getD_concrete (args : List Value) (n : Nat) :
    (args.map Value.concrete).getD n .unset = (args.getD n .unset).concrete :=
  List.getD_map args .unset Value.concrete

def ModelResult.concrete (r : ModelResult) : ModelResult := { r with value := r.value.concrete }

namespace Library

def Transparent (m : Model) : Prop :=
  ∃ f, m = .ofFunction f ∧
    ∀ args r, f args = .ok r → f (args.map Value.concrete) = .ok r.concrete

def AllTransparent (l : Library) : Prop := ∀ name m, l.lookup name = some m → Transparent m

variable {name : String} {m : Model} {args : List Value} {r : ModelResult} {v : Value}

theorem onWords_concrete {count : Nat} {body body' : Kind → Except Defect ModelResult}
    (h : onWords name count args body = .ok r)
    (hb : ∀ kind r, body kind = .ok r → body' kind = .ok r.concrete) :
    onWords name count (args.map Value.concrete) body' = .ok r.concrete := by
  have head : (args.map Value.concrete).head?.map Value.kind = args.head?.map Value.kind := by
    cases args <;> rfl
  have all (kind : Kind) : (args.map Value.concrete).all (fun v => v.kind == kind && kind.isWord) =
      args.all fun v => v.kind == kind && kind.isWord := List.all_map
  unfold onWords at h ⊢
  rw [List.length_map, head]
  dsimp only at h ⊢
  rw [all]
  split_ifs at h ⊢
  · cases h
    rfl
  · exact hb _ r h
  · cases h
    rfl

theorem applying_concrete {op : Operation} {next next' : Value → Except Defect ModelResult}
    (h : applying name op args next = .ok r)
    (hn : ∀ v r, next v = .ok r → next' v.concrete = .ok r.concrete) :
    applying name op (args.map Value.concrete) next' = .ok r.concrete := by
  unfold applying at h ⊢
  cases ha : op.apply args with
  | ok v =>
    rw [ha] at h
    rw [Operation.apply_concrete_of_ok ha]
    exact hn v r h
  | error f =>
    rw [ha] at h
    cases f with
    | error e =>
      rw [Operation.apply_concrete_of_error ha]
      cases h
      rfl
    | defect d => cases h

theorem choose_concrete {c a b : Value} (h : choose c a b = .ok v) :
    choose c.concrete a.concrete b.concrete = .ok v.concrete := by
  have plain : choose c.concrete a.concrete b.concrete =
      .ok (if c.toBool then a else b).concrete := by
    simp only [choose, Value.isConcrete_concrete, if_true, apply_ite Value.concrete]
    rfl
  rw [plain]
  unfold choose at h
  generalize (if c.toBool then a else b) = x at h ⊢
  dsimp only at h
  split_ifs at h
  · cases h
    rfl
  · cases h
    rfl
  · obtain ⟨ct, -, h⟩ := bind_eq_ok h
    obtain ⟨y, -, h⟩ := bind_eq_ok h
    obtain ⟨z, -, h⟩ := bind_eq_ok h
    obtain ⟨t, -, h⟩ := bind_eq_ok h
    cases h
    rfl

theorem chosen_concrete {c a b : Value} (h : (do return .ok (← choose c a b)) = Except.ok r) :
    (do return .ok (← choose c.concrete a.concrete b.concrete)) =
      (Except.ok r.concrete : Except Defect ModelResult) := by
  obtain ⟨v, hv, h⟩ := bind_eq_ok h
  cases h
  rw [choose_concrete hv]
  rfl

theorem abs_transparent : Transparent (.ofFunction abs) := by
  refine ⟨_, rfl, fun args r h => onWords_concrete h fun kind r h => ?_⟩
  obtain ⟨zero, hz, h⟩ := bind_eq_ok h
  -- The operands on the plain side are then those of the other, made concrete.
  rw [hz, headD_concrete, ← Value.concrete_of_zero hz]
  refine applying_concrete h fun negative r h => ?_
  exact applying_concrete h fun minus r h => chosen_concrete h

theorem select_transparent (name : String) (op : Operation) :
    Transparent (.ofFunction (select name op)) := by
  refine ⟨_, rfl, fun args r h => onWords_concrete h fun kind r h => ?_⟩
  refine applying_concrete h fun cond r h => ?_
  rw [getD_concrete, getD_concrete]
  exact chosen_concrete h

theorem signum_transparent : Transparent (.ofFunction signum) := by
  refine ⟨_, rfl, fun args r h => onWords_concrete h fun kind r h => ?_⟩
  obtain ⟨zero, hz, h⟩ := bind_eq_ok h
  rw [hz, headD_concrete, ← Value.concrete_of_zero hz]
  refine applying_concrete h fun v r h => ?_
  cases h
  rfl

theorem matcherFind_transparent : Transparent (.ofFunction matcherFind) := by
  refine ⟨_, rfl, fun args r h => ?_⟩
  cases h
  rfl

theorem AllTransparent.register {l : Library} (hl : l.AllTransparent) (hm : Transparent m) :
    (l.register name m).AllTransparent := by
  intro other k hk
  rw [lookup_register] at hk
  split at hk
  · cases hk
    exact hm
  · exact hl other k hk

theorem empty_allTransparent : empty.AllTransparent := by
  intro name m hm
  cases hm

theorem standard_allTransparent : standard.AllTransparent :=
  (((((empty_allTransparent.register abs_transparent).register (select_transparent _ _)).register
    (select_transparent _ _)).register signum_transparent).register signum_transparent).register
      matcherFind_transparent

theorem allTransparent_of {l : Library} (hl : l = standard ∨ l = empty) : l.AllTransparent := by
  rcases hl with rfl | rfl
  · exact standard_allTransparent
  · exact empty_allTransparent

theorem AllTransparent.invoke {l : Library} (hl : l.AllTransparent) (name : String)
    (args : List Value) :
    ∃ e e', (∀ s, l.invoke name args s = { result := e, state := s }) ∧
      (∀ s, l.invoke name (args.map Value.concrete) s = { result := e', state := s }) ∧
      ∀ r, e = .ok r → e' = .ok r.concrete := by
  unfold Library.invoke
  cases hm : l.lookup name with
  | none =>
    refine ⟨_, _, fun _ => rfl, fun _ => rfl, fun r h => ?_⟩
    cases h
    rfl
  | some m =>
    obtain ⟨f, rfl, hf⟩ := hl name m hm
    exact ⟨_, _, fun _ => rfl, fun _ => rfl, hf args⟩

end Library

namespace Slots

def concrete (s : Slots) : Slots := ⟨s.entries.map fun e => (e.1, e.2.concrete)⟩

theorem get?_concrete (s : Slots) (slot : Nat) :
    s.concrete.get? slot = (s.get? slot).map Value.concrete := Entries.lookup_map Value.concrete

theorem set_concrete (s : Slots) (slot : Nat) (v : Value) :
    (s.set slot v).concrete = s.concrete.set slot v.concrete :=
  congrArg mk (Entries.place_map Value.concrete).symm

theorem count_concrete (s : Slots) : s.concrete.count = s.count := by
  simp only [count, concrete, List.getLast?_map, Option.map_map]
  rfl

end Slots

def Frame.concrete (f : Frame) : Frame :=
  { f with stack := f.stack.map Value.concrete, slots := f.slots.concrete }

namespace RunState

/-- `t` is `s` on the plain machine: no value in its frames has a term, the conditions of its path
may be others than those of `s`, and all else is the same. -/
structure StripsTo (s t : RunState) : Prop where
  id : t.id = s.id
  given : t.given = s.given
  defaults : t.defaults = s.defaults
  declared : t.declared = s.declared
  frame : t.frame = s.frame.concrete
  callers : t.callers = s.callers.map Frame.concrete
  path : t.path.toList.map Branch.direction = s.path.toList.map Branch.direction
  status : t.status = s.status
  reason : t.reason = s.reason
  frozen : t.frozen = s.frozen

/-- What an input is by default, its variable can stand for: it has as many bits, and is a number in
floating point if the variable is one. -/
def Faithful (s : RunState) : Prop :=
  ∀ name kind shape v, kind.shape? = some shape → s.defaults name kind = .ok v →
    v.kind.shape? = some shape

structure Shapely (s : RunState) : Prop where
  frame : s.frame.Regular
  callers : ∀ f ∈ s.callers, f.Regular
  defaults : s.Faithful

structure Tracks (p : Prop) (s t : RunState) : Prop extends s.StripsTo t where
  shapely : p → s.Shapely

variable {p : Prop} {s t : RunState} {v : Value}

theorem Tracks.withFrame (h : s.Tracks p t) {f g : Frame} (hg : g = f.concrete)
    (hf : p → f.Regular) : Tracks p { s with frame := f } { t with frame := g } :=
  { h with
    frame := hg
    shapely := fun hp => ⟨hf hp, (h.shapely hp).callers, (h.shapely hp).defaults⟩ }

theorem Tracks.unlessFrozen {α : Type} {Q : α → α → Prop}
    {x y : Except (Failure RunError) α × RunState} (h : s.Tracks p t)
    (hxy : Alongside p (Tracks p) Q x y) :
    Alongside p (Tracks p) Q (if s.frozen then RunM.fail .frozen s else x)
      (if t.frozen then RunM.fail .frozen t else y) := by
  by_cases hs : s.frozen
  · rw [if_pos hs, if_pos (h.frozen.trans hs)]
    exact .error h
  · rw [if_neg hs, if_neg (by rwa [h.frozen])]
    exact hxy

def Carries (p : Prop) (v u : Value) : Prop := u = v.concrete ∧ (p → v.Regular)

def CarriesAll (p : Prop) (vs us : List Value) : Prop :=
  us = vs.map Value.concrete ∧ (p → ∀ v ∈ vs, v.Regular)

theorem enter_alongside (h : s.Tracks p t) (name : String) (limit : Int) :
    Alongside p (Tracks p) Eq (enter name limit s) (enter name limit t) := by
  refine h.unlessFrozen (.ok { h with frame := rfl, callers := ?_, shapely := fun hp => ?_ } rfl)
  · simp only [List.map_cons, h.frame, h.callers]
  · have shapely := h.shapely hp
    exact ⟨.new name limit, List.forall_mem_cons.mpr ⟨shapely.frame, shapely.callers⟩,
      shapely.defaults⟩

theorem leave_alongside (h : s.Tracks p t) :
    Alongside p (Tracks p) Eq (leave s) (leave t) := by
  refine h.unlessFrozen ?_
  rw [h.callers]
  cases hs : s.callers with
  | nil => exact .error h
  | cons f rest =>
    refine .ok { h with frame := rfl, callers := rfl, shapely := fun hp => ?_ } rfl
    have shapely := h.shapely hp
    have callers := shapely.callers
    rw [hs, List.forall_mem_cons] at callers
    exact ⟨callers.1, callers.2, shapely.defaults⟩

theorem push_alongside (h : s.Tracks p t) (hv : p → v.isValid → v.Regular) :
    Alongside p (Tracks p) Eq (push v s) (push v.concrete t) := by
  refine h.unlessFrozen ?_
  rw [h.frame, Value.isValid_concrete]
  cases hi : v.isValid with
  | false => exact .error h
  | true =>
    refine .ok (h.withFrame rfl fun hp => ?_) rfl
    have frame := (h.shapely hp).frame
    exact ⟨List.forall_mem_cons.mpr ⟨hv hp hi, frame.stack⟩, frame.slots⟩

theorem Carries.push {u : Value} (hv : Carries p v u) (h : s.Tracks p t) :
    Alongside p (Tracks p) Eq (RunState.push v s) (RunState.push u t) := by
  rw [hv.1]
  exact push_alongside h fun hp _ => hv.2 hp

theorem pop_alongside (h : s.Tracks p t) :
    Alongside p (Tracks p) (Carries p) (pop s) (pop t) := by
  refine h.unlessFrozen ?_
  rw [h.frame]
  simp only [Frame.concrete]
  cases hs : s.frame.stack with
  | nil => exact .error h
  | cons v rest =>
    have stack (hp : p) : v.Regular ∧ ∀ u ∈ rest, u.Regular := by
      simpa [hs] using (h.shapely hp).frame.stack
    exact .ok (h.withFrame rfl fun hp => ⟨(stack hp).2, (h.shapely hp).frame.slots⟩)
      ⟨rfl, fun hp => (stack hp).1⟩

theorem popOnto_alongside (n : Nat) {vs us : List Value} (h : s.Tracks p t)
    (ha : CarriesAll p vs us) :
    Alongside p (Tracks p) (CarriesAll p) (popOnto n vs s) (popOnto n us t) := by
  induction n generalizing vs us s t with
  | zero => exact .ok h ha
  | succ n ih =>
    refine (pop_alongside h).bind fun v u s t h hv => ih h ?_
    exact ⟨by rw [hv.1, ha.1, List.map_cons], fun hp => List.forall_mem_cons.mpr ⟨hv.2 hp, ha.2 hp⟩⟩

theorem popN_alongside (n : Int) (h : s.Tracks p t) :
    Alongside p (Tracks p) (CarriesAll p) (popN n s) (popN n t) := by
  unfold popN
  split
  · exact popOnto_alongside _ h ⟨rfl, by simp⟩
  · exact .error h

theorem peek_alongside (h : s.Tracks p t) :
    Alongside p (Tracks p) (Carries p) (peek s) (peek t) := by
  unfold peek
  rw [h.frame]
  simp only [Frame.concrete]
  cases hs : s.frame.stack with
  | nil => exact .error h
  | cons v rest => exact .ok h ⟨rfl, fun hp => (h.shapely hp).frame.stack v (by simp [hs])⟩

theorem load_alongside (slot : Int) (h : s.Tracks p t) :
    Alongside p (Tracks p) (Carries p) (load slot s) (load slot t) := by
  unfold load
  rw [h.frame]
  simp only [Frame.concrete, Slots.count_concrete, Slots.get?_concrete]
  split
  · exact .error h
  · cases hs : s.frame.slots.get? slot.toNat with
    | none => exact .error h
    | some v => exact .ok h ⟨rfl, fun hp => (h.shapely hp).frame.slots _ v hs⟩

theorem store_alongside (slot : Int) {u : Value} (h : s.Tracks p t) (hv : Carries p v u) :
    Alongside p (Tracks p) Eq (store slot v s) (store slot u t) := by
  obtain ⟨rfl, hv⟩ := hv
  refine h.unlessFrozen ?_
  rw [h.frame, Value.isValid_concrete]
  simp only [Frame.concrete, Slots.count_concrete]
  split_ifs
  · exact .error h
  · exact .error h
  · exact .error h
  · refine .ok (h.withFrame ?_ fun hp => ?_) rfl
    · rw [Frame.concrete, Slots.set_concrete]
    · have frame := (h.shapely hp).frame
      refine ⟨frame.stack, fun other u hu => ?_⟩
      rw [Slots.get?_set] at hu
      split at hu
      · cases hu
        exact hv hp
      · exact frame.slots other u hu

theorem initial_eq (h : s.Tracks p t) (name : String) (kind : Kind) :
    t.initial name kind = s.initial name kind := by
  unfold initial
  rw [h.given, h.defaults]

theorem initial_shape (hd : s.Faithful) {name : String} {kind : Kind} {shape : Shape}
    (hk : kind.shape? = some shape) (h : s.initial name kind = .ok v) :
    v.kind.shape? = some shape := by
  unfold initial at h
  split at h
  · split at h
    next hv =>
      cases h
      rw [hv, hk]
    next => exact hd name kind shape v hk h
  · exact hd name kind shape v hk h

theorem input_alongside (h : s.Tracks p t) (name : String) {kind : Kind} {shape : Shape}
    (hk : kind.shape? = some shape) :
    Alongside p (Tracks p) (fun v u => u = v ∧ (p → v.Regular)) (input name kind s)
      (input name kind t) := by
  refine h.unlessFrozen ?_
  rw [h.declared, initial_eq h]
  split
  next v _ =>
    split
    next hv => exact .ok h ⟨rfl, fun _ => Value.regular_withTerm (hv ▸ hk) (.var hk)⟩
    next => exact .error h
  next =>
    cases hi : s.initial name kind with
    | error d => exact .error h
    | ok v =>
      refine .ok { h with declared := rfl, shapely := fun hp => ?_ } ⟨rfl, fun hp => ?_⟩
      · have shapely := h.shapely hp
        exact ⟨shapely.frame, shapely.callers, shapely.defaults⟩
      · exact Value.regular_withTerm (initial_shape (h.shapely hp).defaults hk hi) (.var hk)

theorem exists_condition (hv : v.kind = .bool) : ∃ t, v.term = .ok t := by
  unfold Value.term
  split
  · exact ⟨_, rfl⟩
  · simp [Value.literal, Kind.width, hv, Kind.width?, Kind.isFloat]

theorem recordBranch_alongside (h : s.Tracks p t) (pos : String) (v : Value) :
    Alongside p (Tracks p) Eq (recordBranch pos v s) (recordBranch pos v.concrete t) := by
  refine h.unlessFrozen ?_
  rw [Value.concrete_kind]
  split
  next => exact .error h
  next hk =>
    obtain ⟨x, hx⟩ := exists_condition (not_not.mp hk)
    obtain ⟨y, hy⟩ := exists_condition (v := v.concrete) (not_not.mp hk)
    rw [hx, hy]
    refine .ok { h with path := ?_, shapely := fun hp => ?_ } rfl
    · simp only [Array.toList_push, List.map_append, h.path]
      rfl
    · have shapely := h.shapely hp
      exact ⟨shapely.frame, shapely.callers, shapely.defaults⟩

end RunState

end Concolic
