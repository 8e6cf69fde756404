import Mathlib
import Concolic.Proofs.Entries
import Concolic.Proofs.RunEffect
import Concolic.Proofs.Symbolic

namespace Concolic

section Abreast

variable {ε α β σ : Type} {T T' F F' r : σ → σ → Prop} {Q Q' : α → α → Prop} {R : β → β → Prop}

/-- Two actions with their states: both succeed or fail alike and leave related states, or they
fork. -/
inductive Abreast (T F : σ → σ → Prop) (Q : α → α → Prop) :
    Except ε α × σ → Except ε α × σ → Prop
  | ok {a b : α} {s t : σ} : T s t → Q a b → Abreast T F Q (.ok a, s) (.ok b, t)
  | error {e : ε} {s t : σ} : T s t → Abreast T F Q (.error e, s) (.error e, t)
  | forked {x y : Except ε α} {s t : σ} : F s t → Abreast T F Q (x, s) (y, t)

namespace Abreast

variable {m n : ExceptT ε (StateM σ) α} {f g : α → ExceptT ε (StateM σ) β} {s t : σ}

theorem imp {x y : Except ε α × σ} (h : Abreast T F Q x y) (hT : ∀ s t, T s t → T' s t)
    (hF : ∀ s t, F s t → F' s t) (hQ : ∀ a b, Q a b → Q' a b) : Abreast T' F' Q' x y := by
  cases h with
  | ok ht hq => exact .ok (hT _ _ ht) (hQ _ _ hq)
  | error ht => exact .error (hT _ _ ht)
  | forked hf => exact .forked (hF _ _ hf)

theorem bind (hm : Abreast T (fun _ _ => False) Q (m s) (n t))
    (hf : ∀ a b s t, T s t → Q a b → Abreast T F R (f a s) (g b t)) :
    Abreast T F R ((m >>= f) s) ((n >>= g) t) := by
  rw [bind_apply, bind_apply]
  generalize m s = x at hm ⊢
  generalize n t = y at hm ⊢
  cases hm with
  | ok ht hq => exact hf _ _ _ _ ht hq
  | error ht => exact .error ht
  | forked hF => exact hF.elim

theorem discard (hm : Abreast T F Q (m s) (n t)) :
    Abreast T F (fun _ _ => ∃ a b, Q a b) ((discard m : ExceptT ε (StateM σ) PUnit) s)
      ((Functor.discard n : ExceptT ε (StateM σ) PUnit) t) := by
  rw [discard_apply, discard_apply]
  generalize m s = x at hm ⊢
  generalize n t = y at hm ⊢
  cases hm with
  | ok ht hq => exact .ok ht ⟨_, _, hq⟩
  | error ht => exact .error ht
  | @forked x y s t hF =>
    cases x <;> cases y <;> exact .forked hF

theorem bind_forked (hm : Abreast T F Q (m s) (n t))
    (hf : ∀ a b s t, T s t → Q a b → Abreast T F R (f a s) (g b t))
    (hr : ∀ s, r s s) (hF : ∀ s t s' t', F s t → r s s' → r t t' → F s' t')
    (hfr : ∀ a, Advances r (f a)) (hgr : ∀ a, Advances r (g a)) :
    Abreast T F R ((m >>= f) s) ((n >>= g) t) := by
  rw [bind_apply, bind_apply]
  generalize m s = x at hm ⊢
  generalize n t = y at hm ⊢
  cases hm with
  | ok ht hq => exact hf _ _ _ _ ht hq
  | error ht => exact .error ht
  | @forked x y s t hst =>
    cases x <;> cases y
    · exact .forked hst
    · exact .forked (hF _ _ _ _ hst (hr _) (hgr _ _))
    · exact .forked (hF _ _ _ _ hst (hfr _ _) (hr _))
    · exact .forked (hF _ _ _ _ hst (hfr _ _) (hgr _ _))

end Abreast

end Abreast

namespace Value

def Twin (i j : Input) (v u : Value) : Prop :=
  ∃ s : Symbolic, s.Bound i ∧ s.Bound j ∧ v = s.value i ∧ u = s.value j

variable {i i' j j' : Input} {v u : Value}

theorem Twin.mono (h : Twin i j v u) (hi : i.Within i') (hj : j.Within j') : Twin i' j' v u := by
  obtain ⟨s, hs, hs', rfl, rfl⟩ := h
  exact ⟨s, hs.mono hi, hs'.mono hj, hs.value_eq hi, hs'.value_eq hj⟩

theorem Twin.isValid (h : Twin i j v u) : v.isValid = true ∧ u.isValid = true := by
  obtain ⟨s, -, -, rfl, rfl⟩ := h
  exact ⟨s.isValid_value i, s.isValid_value j⟩

theorem exists_symbolics {vs us : List Value} (h : List.Forall₂ (Twin i j) vs us) :
    ∃ ss : List Symbolic, (∀ s ∈ ss, s.Bound i ∧ s.Bound j) ∧
      vs = ss.map (·.value i) ∧ us = ss.map (·.value j) := by
  induction h with
  | nil => exact ⟨[], by simp⟩
  | cons h _ ih =>
    obtain ⟨s, hi, hj, rfl, rfl⟩ := h
    obtain ⟨ss, hss, rfl, rfl⟩ := ih
    exact ⟨s :: ss, by simpa using ⟨⟨hi, hj⟩, hss⟩, rfl, rfl⟩

theorem IsPlain.twin (h : v.IsPlain) : Twin i j v v := by
  obtain ⟨⟨w, hw⟩, he⟩ := h
  have hv : ∀ i, v = (Symbolic.ofBits v.kind hw.exact hw.width (BitVec.ofNat w v.bits)).value i := by
    intro i
    rw [Symbolic.value_ofBits, BitVec.toNat_ofNat, Nat.mod_eq_of_lt hw.masked, ← he]
  exact ⟨_, Symbolic.ofBits_bound _ _ _ _, Symbolic.ofBits_bound _ _ _ _, hv i, hv j⟩

end Value

namespace Slots

theorem count_eq (s : Slots) : s.count = ((s.entries.map (·.1)).getLast?.map (· + 1)).getD 0 := by
  rw [count, List.getLast?_map, Option.map_map]
  rfl

theorem count_alike {R : Value → Value → Prop} {s t : Slots}
    (h : Entries.Alike R s.entries t.entries) : s.count = t.count := by
  rw [count_eq, count_eq, h.keys]

end Slots

namespace Frame

structure Twin (i j : Input) (f g : Frame) : Prop where
  name : f.name = g.name
  limit : f.limit = g.limit
  stack : List.Forall₂ (Value.Twin i j) f.stack g.stack
  slots : Entries.Alike (Value.Twin i j) f.slots.entries g.slots.entries

theorem Twin.mono {i i' j j' : Input} {f g : Frame} (h : Twin i j f g) (hi : i.Within i')
    (hj : j.Within j') : Twin i' j' f g where
  name := h.name
  limit := h.limit
  stack := h.stack.imp fun _ _ hv => hv.mono hi hj
  slots := h.slots.imp fun _ _ hv => hv.mono hi hj

end Frame

structure Branch.Holds (i : Input) (b : Branch) : Prop where
  typed : b.cond.Typed 1
  binds : i.Binds b.cond
  taken : b.taken = decide (b.cond.denote i 1 = 1#1)

theorem Branch.Holds.mono {i j : Input} {b : Branch} (h : b.Holds i) (hw : i.Within j) : b.Holds j where
  typed := h.typed
  binds := hw.binds h.binds
  taken := by rw [h.taken, hw.denote h.typed h.binds]

theorem Branch.not_prefix_flip {before path : List Branch} {b : Branch}
    (hp : before ++ [b] <+: path) : ¬before ++ [b.flip] <+: path := by
  intro hq
  have hlen : (before ++ [b]).length = (before ++ [b.flip]).length := by simp
  have h := (List.prefix_of_prefix_length_le hp hq hlen.le).eq_of_length hlen
  have taken : b.taken = b.flip.taken := by
    rw [List.append_cancel_left_eq, List.cons.injEq] at h
    exact congrArg Branch.taken h.1
  simp [Branch.flip] at taken

namespace Input

def Masked (i : Input) : Prop :=
  ∀ b ∈ i.entries, ∀ w, b.2.kind.width? = some w → b.2.bits < 2 ^ w

instance (i : Input) : Decidable i.Masked :=
  inferInstanceAs (Decidable (∀ b ∈ i.entries, ∀ w ∈ b.2.kind.width?, b.2.bits < 2 ^ w))

theorem Masked.get? {i : Input} (h : i.Masked) {n : String} {v : Value} {w : Nat}
    (hv : i.get? n = some v) (hw : v.kind.width? = some w) : v.bits < 2 ^ w :=
  h (n, v) (Entries.mem_of_lookup hv) w hw

theorem Masked.insert {i : Input} (h : i.Masked) {n : String} {v : Value}
    (hv : ∀ w, v.kind.width? = some w → v.bits < 2 ^ w) : (i.insert n v).Masked := by
  intro b hb
  rcases Entries.mem_place hb with rfl | hb
  · exact hv
  · exact h b hb

theorem Masked.merge {i j : Input} (hi : i.Masked) (hj : j.Masked) : (i.merge j).Masked := by
  unfold Input.merge
  unfold Masked at hj
  generalize j.entries = l at hj
  induction l generalizing i with
  | nil => exact hi
  | cons b l ih =>
    refine ih (hi.insert fun w hw => hj b (by simp) w hw) ?_
    exact fun c hc => hj c (by simp [hc])

/-- Inputs of the second that the first has a value of the same kind for have that value. -/
def Honours (given declared : Input) : Prop :=
  ∀ n v u, given.get? n = some v → declared.get? n = some u → v.kind = u.kind → u = v.concrete

end Input

namespace RunState

structure Steady (s : RunState) : Prop where
  running : ¬s.frozen
  given : s.given.Masked
  defaults : ∀ n k w, k.isFloat = false → k.width? = some w →
    ∃ v, s.defaults n k = .ok v ∧ v.kind = k ∧ v.bits < 2 ^ w
  declared : ∀ n v, s.declared.get? n = some v → v.IsPlain
  masked : s.declared.Masked
  honours : s.given.Honours s.declared
  holds : ∀ b ∈ s.path, b.Holds s.declared

/-- Runs that have declared the inputs `i` and `j`, have taken the same branches and hold the same open
values. -/
structure Twin (i j : Input) (s t : RunState) : Prop where
  left : s.Steady
  right : t.Steady
  fst : s.declared = i
  snd : t.declared = j
  path : s.path = t.path
  kinds : ∀ n, (i.get? n).map Value.kind = (j.get? n).map Value.kind
  frame : s.frame.Twin i j t.frame
  callers : List.Forall₂ (Frame.Twin i j) s.callers t.callers

def Forked (s t : RunState) : Prop :=
  ∃ before b, b.isConcrete = false ∧ before ++ [b] <+: s.path.toList ∧
    before ++ [b.flip] <+: t.path.toList

def Grows (s t : RunState) : Prop :=
  s.path.toList <+: t.path.toList ∧ t.given = s.given ∧ t.frozen = s.frozen

theorem Grows.refl (s : RunState) : Grows s s := ⟨List.prefix_rfl, rfl, rfl⟩

theorem Grows.trans (s t u : RunState) (h : Grows s t) (h' : Grows t u) : Grows s u :=
  ⟨h.1.trans h'.1, h'.2.1.trans h.2.1, h'.2.2.trans h.2.2⟩

theorem Forked.grows {s t s' t' : RunState} (h : Forked s t) (hs : Grows s s') (ht : Grows t t') :
    Forked s' t' := by
  obtain ⟨before, b, hb, hp, hq⟩ := h
  exact ⟨before, b, hb, hp.trans hs.1, hq.trans ht.1⟩

variable {i j : Input} {s t : RunState} {F : RunState → RunState → Prop} {v u : Value}

theorem Steady.withFrames (h : s.Steady) (f : Frame) (c : List Frame) :
    Steady { s with frame := f, callers := c } where
  running := h.running
  given := h.given
  defaults := h.defaults
  declared := h.declared
  masked := h.masked
  honours := h.honours
  holds := h.holds

theorem Twin.withFrames (h : Twin i j s t) {f g : Frame} {c d : List Frame} (hf : f.Twin i j g)
    (hc : List.Forall₂ (Frame.Twin i j) c d) :
    Twin i j { s with frame := f, callers := c } { t with frame := g, callers := d } where
  left := h.left.withFrames f c
  right := h.right.withFrames g d
  fst := h.fst
  snd := h.snd
  path := h.path
  kinds := h.kinds
  frame := hf
  callers := hc

def Anything {α : Type} (_ _ : α) : Prop := True

theorem push_abreast (h : Twin i j s t) (hv : Value.Twin i j v u) :
    Abreast (Twin i j) F Anything (push v s) (push u t) := by
  simp only [push, if_neg h.left.running, if_neg h.right.running, hv.isValid, Bool.not_true,
    Bool.false_eq_true, if_false]
  have hf := h.frame
  refine .ok (h.withFrames ?_ h.callers) trivial
  exact ⟨hf.name, hf.limit, .cons hv hf.stack, hf.slots⟩

theorem push_getD_abreast (n : Nat) {vs us : List Value} (h : Twin i j s t)
    (hvs : List.Forall₂ (Value.Twin i j) vs us) :
    Abreast (Twin i j) F Anything (push (vs.getD n .unset) s) (push (us.getD n .unset) t) := by
  induction hvs generalizing n with
  | nil =>
    simp only [push, if_neg h.left.running, if_neg h.right.running]
    exact .error h
  | cons hv _ ih =>
    cases n with
    | zero => exact push_abreast h hv
    | succ n => exact ih n

theorem Twin.stack_cases (h : Twin i j s t) :
    (s.frame.stack = [] ∧ t.frame.stack = []) ∨
      ∃ v u vs us, s.frame.stack = v :: vs ∧ t.frame.stack = u :: us ∧
        Value.Twin i j v u ∧
        List.Forall₂ (Value.Twin i j) vs us := by
  have hst := h.frame.stack
  generalize s.frame.stack = vs at hst ⊢
  generalize t.frame.stack = us at hst ⊢
  cases hst with
  | nil => exact .inl ⟨rfl, rfl⟩
  | cons hv hvs => exact .inr ⟨_, _, _, _, rfl, rfl, hv, hvs⟩

theorem pop_abreast (h : Twin i j s t) : Abreast (Twin i j) F (Value.Twin i j) (pop s) (pop t) := by
  have hf := h.frame
  simp only [pop, if_neg h.left.running, if_neg h.right.running]
  rcases h.stack_cases with ⟨hs, ht⟩ | ⟨v, u, vs, us, hs, ht, hv, hvs⟩
  · rw [hs, ht, hf.name]
    exact .error h
  · rw [hs, ht]
    refine .ok (h.withFrames ?_ h.callers) hv
    exact ⟨hf.name, hf.limit, hvs, hf.slots⟩

theorem popOnto_abreast (n : Nat) {vs us : List Value} (h : Twin i j s t)
    (hvs : List.Forall₂ (Value.Twin i j) vs us) :
    Abreast (Twin i j) F (List.Forall₂ (Value.Twin i j)) (popOnto n vs s) (popOnto n us t) := by
  induction n generalizing vs us s t with
  | zero => exact .ok h hvs
  | succ n ih =>
    rw [popOnto, popOnto]
    refine (pop_abreast h).bind ?_
    intro v u s t h hv
    exact ih h (.cons hv hvs)

theorem popN_abreast (n : Int) (h : Twin i j s t) :
    Abreast (Twin i j) F (List.Forall₂ (Value.Twin i j)) (popN n s) (popN n t) := by
  unfold popN
  split
  · exact popOnto_abreast _ h .nil
  · exact .error h

theorem peek_abreast (h : Twin i j s t) : Abreast (Twin i j) F (Value.Twin i j) (peek s) (peek t) := by
  simp only [peek]
  rcases h.stack_cases with ⟨hs, ht⟩ | ⟨v, u, vs, us, hs, ht, hv, hvs⟩
  · rw [hs, ht, h.frame.name]
    exact .error h
  · rw [hs, ht]
    exact .ok h hv

theorem load_abreast (slot : Int) (h : Twin i j s t) :
    Abreast (Twin i j) F (Value.Twin i j) (load slot s) (load slot t) := by
  have hf := h.frame
  simp only [load, hf.name, Slots.count_alike hf.slots]
  split
  · exact .error h
  · have hget := hf.slots.lookup slot.toNat
    simp only [Slots.get?]
    generalize s.frame.slots.entries.lookup slot.toNat = x at hget ⊢
    generalize t.frame.slots.entries.lookup slot.toNat = y at hget ⊢
    cases hget with
    | none => exact .error h
    | some hv => exact .ok h hv

theorem store_abreast (slot : Int) (h : Twin i j s t) (hv : Value.Twin i j v u) :
    Abreast (Twin i j) F Anything (store slot v s) (store slot u t) := by
  have hf := h.frame
  simp only [store, if_neg h.left.running, if_neg h.right.running, hf.name, hf.limit,
    Slots.count_alike hf.slots, hv.isValid, Bool.not_true, Bool.false_eq_true, if_false]
  split
  · exact .error h
  · split
    · exact .error h
    · refine .ok (h.withFrames ?_ h.callers) trivial
      exact ⟨rfl, rfl, hf.stack, hf.slots.place hv⟩

theorem enter_abreast (name : String) (limit : Int) (h : Twin i j s t) :
    Abreast (Twin i j) F Anything (enter name limit s) (enter name limit t) := by
  simp only [enter, if_neg h.left.running, if_neg h.right.running]
  refine .ok (h.withFrames ?_ (.cons h.frame h.callers)) trivial
  exact ⟨rfl, rfl, .nil, .nil⟩

theorem leave_abreast (h : Twin i j s t) :
    Abreast (Twin i j) F Anything (leave s) (leave t) := by
  simp only [leave, if_neg h.left.running, if_neg h.right.running]
  have hc := h.callers
  generalize s.callers = c at hc ⊢
  generalize t.callers = d at hc ⊢
  cases hc with
  | nil => exact .error h
  | cons hf hc => exact .ok (h.withFrames hf hc) trivial

section Declaration

variable {name : String} {kind : Kind} {w : Nat}

theorem Steady.initial (h : s.Steady) (name : String) (hf : kind.isFloat = false)
    (hw : kind.width? = some w) :
    ∃ v, s.initial name kind = .ok v ∧ v.kind = kind ∧ v.bits < 2 ^ w ∧
      ∀ g, s.given.get? name = some g → g.kind = kind → v = g := by
  obtain ⟨d, hd, hdk, hdb⟩ := h.defaults name kind w hf hw
  unfold RunState.initial
  split
  next g hg =>
    split
    next hk =>
      subst hk
      refine ⟨g, rfl, rfl, h.given.get? hg hw, fun g' hg' _ => ?_⟩
      exact Option.some.inj (hg.symm.trans hg')
    next hk =>
      refine ⟨d, hd, hdk, hdb, fun g' hg' hk' => ?_⟩
      cases hg.symm.trans hg'
      exact absurd hk' hk
  next hg =>
    refine ⟨d, hd, hdk, hdb, fun g' hg' _ => ?_⟩
    cases hg.symm.trans hg'

theorem within_insert (hn : i.get? name = none) : i.Within (i.insert name v) := by
  intro n u hu
  rw [Input.get?_insert, if_neg]
  · exact hu
  · rintro rfl
    cases hn.symm.trans hu

theorem Steady.declare (h : s.Steady) (hn : s.declared.get? name = none)
    (hv : v.concrete.IsPlain)
    (hg : ∀ g, s.given.get? name = some g → g.kind = v.kind → v = g) :
    Steady { s with declared := s.declared.insert name v.concrete } where
  running := h.running
  given := h.given
  defaults := h.defaults
  declared := fun n u hu => by
    rw [Input.get?_insert] at hu
    split at hu
    · cases hu
      exact hv
    · exact h.declared n u hu
  masked := h.masked.insert fun w hw => by
    obtain ⟨⟨w', fits⟩, -⟩ := hv
    obtain rfl : w' = w := Option.some.inj (fits.width.symm.trans hw)
    exact fits.masked
  honours := fun n g u hn' hu hk => by
    rw [Input.get?_insert] at hu
    split at hu
    next e =>
      subst e
      cases hu
      rw [hg g hn' hk]
    · exact h.honours n g u hn' hu hk
  holds := fun b hb => (h.holds b hb).mono (within_insert hn)

theorem withTerm_eq_var (hf : kind.isFloat = false) (hw : kind.width? = some w) {g : Value}
    (hi : i.get? name = some g) (hk : v.kind = kind) (hg : g.bits = v.bits) (hb : v.bits < 2 ^ w) :
    v.withTerm (some (.var name kind)) = (Symbolic.var name kind hf hw).value i := by
  rw [Symbolic.value_var hf hw hi (hg ▸ hb), hg, ← hk]
  rfl

theorem var_bound (hf : kind.isFloat = false) (hw : kind.width? = some w) {g : Value}
    (hi : i.get? name = some g) (hk : g.kind = kind) : (Symbolic.var name kind hf hw).Bound i := by
  simp [Symbolic.Bound, Symbolic.var, Input.Binds, Term.occurrences, hi, hk]

theorem input_abreast (hf : kind.isFloat = false) (hw : kind.width? = some w) (h : Twin i j s t) :
    ∃ i' j', Abreast (Twin i' j') F (Value.Twin i' j') (input name kind s) (input name kind t) := by
  obtain rfl := h.fst
  obtain rfl := h.snd
  have hk := h.kinds name
  simp only [input, if_neg h.left.running, if_neg h.right.running]
  rcases hs : s.declared.get? name with _ | v <;> rcases ht : t.declared.get? name with _ | u <;>
    rw [hs, ht] at hk
  · obtain ⟨v, hv, rfl, hvb, hvg⟩ := h.left.initial name hf hw
    obtain ⟨u, hu, huk, hub, hug⟩ := h.right.initial name hf hw
    refine ⟨s.declared.insert name v.concrete, t.declared.insert name u.concrete, ?_⟩
    simp only [hv, hu]
    have hi : (s.declared.insert name v.concrete).get? name = some v.concrete := by simp
    have hj : (t.declared.insert name u.concrete).get? name = some u.concrete := by simp
    refine .ok ⟨?_, ?_, rfl, rfl, h.path, ?_, ?_, ?_⟩ ?_
    · exact h.left.declare hs ⟨⟨w, hf, hw, hvb, by simp [Value.concrete]⟩, rfl⟩ hvg
    · exact h.right.declare ht ⟨⟨w, huk ▸ hf, huk ▸ hw, hub, by simp [Value.concrete]⟩, rfl⟩
        (huk ▸ hug)
    · intro n
      rw [Input.get?_insert, Input.get?_insert]
      split
      · simp [Value.concrete, huk]
      · exact h.kinds n
    · exact h.frame.mono (within_insert hs) (within_insert ht)
    · exact h.callers.imp fun _ _ hc => hc.mono (within_insert hs) (within_insert ht)
    · exact ⟨_, var_bound hf hw hi rfl, var_bound hf hw hj huk,
        withTerm_eq_var hf hw hi rfl rfl hvb, withTerm_eq_var hf hw hj huk rfl hub⟩
  · cases hk
  · cases hk
  · refine ⟨s.declared, t.declared, ?_⟩
    obtain hk : v.kind = u.kind := by simpa using hk
    simp only [hk]
    split
    next huk =>
      obtain ⟨⟨w', hv⟩, -⟩ := h.left.declared name v hs
      obtain ⟨⟨w'', hu⟩, -⟩ := h.right.declared name u ht
      subst huk
      obtain rfl : w'' = w := Option.some.inj (hu.width.symm.trans hw)
      obtain rfl : w' = w'' := Option.some.inj (hv.width.symm.trans (hk ▸ hw))
      exact .ok h ⟨_, var_bound hf hw hs hk, var_bound hf hw ht rfl,
        withTerm_eq_var hf hw hs hk rfl hv.masked, withTerm_eq_var hf hw ht rfl rfl hu.masked⟩
    next => exact .error h

end Declaration

theorem Steady.pushBranch (h : s.Steady) {b : Branch} (hb : b.Holds s.declared) :
    Steady { s with path := s.path.push b } where
  running := h.running
  given := h.given
  defaults := h.defaults
  declared := h.declared
  masked := h.masked
  honours := h.honours
  holds := fun c hc => by
    rcases Array.mem_push.mp hc with hc | rfl
    · exact h.holds c hc
    · exact hb

def Decisions (v u : Value) (a b : Bool) : Prop :=
  a = b ∧ a = v.toBool ∧ b = u.toBool

theorem recordBranch_abreast (pos : String) (h : Twin i j s t) (hv : Value.Twin i j v u) :
    Abreast (Twin i j) Forked (Decisions v u) (recordBranch pos v s) (recordBranch pos u t) := by
  obtain ⟨c, hi, hj, rfl, rfl⟩ := hv
  simp only [recordBranch, if_neg h.left.running, if_neg h.right.running, Symbolic.value_kind,
    Symbolic.term_value]
  split
  next => exact .error h
  next hk =>
    have width : c.width = 1 := by
      have := c.sized
      rw [not_not.mp hk] at this
      exact (Option.some.inj this).symm
    have holds : ∀ {i}, c.Bound i → Branch.Holds i ⟨pos, c.term, (c.value i).toBool⟩ :=
      fun hb => ⟨width ▸ c.typed, hb, Symbolic.toBool_value width _⟩
    obtain rfl := h.fst
    obtain rfl := h.snd
    by_cases ht : (c.value s.declared).toBool = (c.value t.declared).toBool
    · refine .ok ⟨h.left.pushBranch (holds hi), h.right.pushBranch (holds hj), rfl, rfl, ?_,
        h.kinds, h.frame, h.callers⟩ ⟨ht, rfl, rfl⟩
      rw [h.path, ht]
    · refine .forked ⟨s.path.toList, ⟨pos, c.term, (c.value s.declared).toBool⟩, ?_, ?_, ?_⟩
      · -- A literal has the same bits under both inputs.
        by_contra hc
        obtain ⟨x, hx⟩ := c.typed.eq_const (Bool.not_eq_false _ ▸ hc)
        simp [Value.toBool, hx] at ht
      · simp
      · have flip : (c.value t.declared).toBool = !(c.value s.declared).toBool := by
          simpa using Bool.eq_not_of_ne (Ne.symm ht)
        simp [Branch.flip, h.path, flip]

theorem Effect.grows {c : Call} {a : Answer} (h : Effect s c a t) (hc : ¬c.Ends) : Grows s t := by
  cases h with
  | branched => simp [Grows]
  | finished => exact absurd trivial hc
  | entered | left | pushed | popped | poppedMany | drained | peeked | loaded | placed | declared
  | redeclared | path | constraints | inputs | refused => exact Grows.refl s

theorem Follows.grows {C : Call → Prop} (h : s.Follows C t) (hC : ∀ c, C c → ¬c.Ends) : Grows s t :=
  h.lift Grows.refl Grows.trans fun _ c _ _ hc he => he.grows (hC c hc)

end RunState

end Concolic
