import Mathlib
import Concolic.Circuit.Basic

namespace Concolic.Builder

/-- The literals that a circuit has, those that are inputs, and their values, given the values of
the inputs. -/
class Interpretation (B : Builder) where
  Valid : B.Circuit → Prop
  Has : B.Circuit → Lit → Prop
  IsInput : B.Circuit → Lit → Prop
  value : B.Circuit → (Lit → Bool) → Lit → Bool

namespace Circuit

export Interpretation (Valid Has IsInput value)

variable {B : Builder} [B.Interpretation] {inputs : Lit → Bool} {c c' c'' : B.Circuit} {l : Lit}

structure Extends (c c' : B.Circuit) : Prop where
  valid : c'.Valid
  has : ∀ {l}, c.Has l → c'.Has l
  isInput : ∀ {l}, c.IsInput l → c'.IsInput l
  value : ∀ {inputs l}, c.Has l → c'.value inputs l = c.value inputs l

namespace Extends

theorem refl (h : c.Valid) : c.Extends c := ⟨h, id, id, fun _ => rfl⟩

theorem trans (h : c.Extends c') (h' : c'.Extends c'') : c.Extends c'' :=
  ⟨h'.valid, h'.has ∘ h.has, h'.isInput ∘ h.isInput,
    fun hl => (h'.value (h.has hl)).trans (h.value hl)⟩

end Extends

def Holds (inputs : Lit → Bool) (c : B.Circuit) (l : Lit) (b : Bool) : Prop :=
  c.Has l ∧ c.value inputs l = b

inductive Reads (inputs : Lit → Bool) (c : B.Circuit) : List Lit → List Bool → Prop
  | nil : Reads inputs c [] []
  | cons {l : Lit} {b : Bool} {xs : List Lit} {bs : List Bool} :
    Holds inputs c l b → Reads inputs c xs bs → Reads inputs c (l :: xs) (b :: bs)

end Circuit

open Builder.Circuit

/-- What an action makes of a valid circuit: it extends it, and its result is as told. -/
def Spec {B : Builder} [B.Interpretation] {α : Type} (g : B.Gates α) (c : B.Circuit)
    (post : B.Circuit → α → Prop) : Prop :=
  c.Valid → c.Extends (g c).2 ∧ post (g c).2 (g c).1

/-- The gates are what they are called, a new input is none of the literals there were, and the
solutions of the problem of a circuit are the values of its literals. -/
class Lawful (B : Builder) [B.Interpretation] : Prop where
  empty : Valid B.empty
  isInput : ∀ {c : B.Circuit} {l}, c.IsInput l → ∀ inputs, Holds inputs c l (inputs l)
  not : ∀ {inputs} {c : B.Circuit} {l p}, Holds inputs c l p → Holds inputs c l.not !p
  top : ∀ {inputs} {c : B.Circuit}, c.Valid → Holds inputs c B.top true
  bottom : ∀ {inputs} {c : B.Circuit}, c.Valid → Holds inputs c B.bottom false
  input : ∀ c : B.Circuit, Spec B.input c fun c' l => c'.IsInput l ∧ ¬c.Has l
  and : ∀ {inputs} {c : B.Circuit} {a b p q}, Holds inputs c a p → Holds inputs c b q →
    Spec (B.and a b) c fun c' l => Holds inputs c' l (p && q)
  or : ∀ {inputs} {c : B.Circuit} {a b p q}, Holds inputs c a p → Holds inputs c b q →
    Spec (B.or a b) c fun c' l => Holds inputs c' l (p || q)
  all : ∀ {inputs} {c : B.Circuit} {xs bs}, Reads inputs c xs bs →
    Spec (B.all xs) c fun c' l => Holds inputs c' l (bs.all id)
  solved : ∀ {c : B.Circuit} {nodes}, c.Valid → (B.problem c).Solved nodes →
    ∃ inputs, ∀ l, c.Has l → c.value inputs l = l.value nodes
  solution : ∀ {c : B.Circuit}, c.Valid → ∀ inputs,
    ∃ nodes, (B.problem c).Solved nodes ∧ ∀ l, c.Has l → l.value nodes = c.value inputs l

namespace Circuit

variable {B : Builder} [B.Interpretation] {inputs : Lit → Bool} {c c' : B.Circuit} {l : Lit}

namespace Holds

export Lawful (not top bottom)

variable {p q : Bool}

theorem mono (h : Holds inputs c l p) (hx : c.Extends c') : Holds inputs c' l p :=
  ⟨hx.has h.1, (hx.value h.1).trans h.2⟩

theorem unique (h : Holds inputs c l p) (h' : Holds inputs c l q) : p = q := h.2.symm.trans h'.2

theorem ofBool [B.Lawful] (hc : c.Valid) (b : Bool) : Holds inputs c (B.ofBool b) b := by
  cases b with
  | false => exact bottom hc
  | true => exact top hc

end Holds

namespace Reads

variable {xs ys : List Lit} {bs ds : List Bool}

theorem mono (h : Reads inputs c xs bs) (hx : c.Extends c') : Reads inputs c' xs bs := by
  induction h with
  | nil => exact .nil
  | cons hl _ ih => exact .cons (hl.mono hx) ih

theorem length_eq (h : Reads inputs c xs bs) : xs.length = bs.length := by
  induction h with
  | nil => rfl
  | cons _ _ ih => rw [List.length_cons, List.length_cons, ih]

theorem unique (h : Reads inputs c xs bs) (h' : Reads inputs c xs ds) : bs = ds := by
  induction h generalizing ds with
  | nil =>
    cases h'
    rfl
  | cons hl _ ih =>
    cases h' with
    | cons hl' h' => rw [hl.unique hl', ih h']

theorem not [B.Lawful] (h : Reads inputs c xs bs) :
    Reads inputs c (xs.map Lit.not) (bs.map Bool.not) := by
  induction h with
  | nil => exact .nil
  | cons hl _ ih => exact .cons hl.not ih

theorem replicate {p : Bool} (h : Holds inputs c l p) (n : Nat) :
    Reads inputs c (List.replicate n l) (List.replicate n p) := by
  induction n with
  | zero => exact .nil
  | succ n ih => exact .cons h ih

theorem append (h : Reads inputs c xs bs) (h' : Reads inputs c ys ds) :
    Reads inputs c (xs ++ ys) (bs ++ ds) := by
  induction h with
  | nil => exact h'
  | cons hl _ ih => exact .cons hl ih

theorem take (h : Reads inputs c xs bs) (n : Nat) : Reads inputs c (xs.take n) (bs.take n) := by
  induction h generalizing n with
  | nil => simpa using Reads.nil
  | cons hl _ ih =>
    cases n with
    | zero => exact .nil
    | succ n => exact .cons hl (ih n)

theorem drop (h : Reads inputs c xs bs) (n : Nat) : Reads inputs c (xs.drop n) (bs.drop n) := by
  induction h generalizing n with
  | nil => simpa using Reads.nil
  | cons hl h ih =>
    cases n with
    | zero => exact .cons hl h
    | succ n => exact ih n

theorem reverse (h : Reads inputs c xs bs) : Reads inputs c xs.reverse bs.reverse := by
  induction h with
  | nil => exact .nil
  | cons hl _ ih =>
    rw [List.reverse_cons, List.reverse_cons]
    exact ih.append (.cons hl .nil)

theorem exists_of_scope (h : ∀ l ∈ xs, c.Has l) : ∃ bs, Reads inputs c xs bs := by
  induction xs with
  | nil => exact ⟨[], .nil⟩
  | cons l xs ih =>
    obtain ⟨bs, hbs⟩ := ih fun k hk => h k (List.mem_cons_of_mem _ hk)
    exact ⟨_, .cons ⟨h l List.mem_cons_self, rfl⟩ hbs⟩

theorem scope (h : Reads inputs c xs bs) : ∀ l ∈ xs, c.Has l := by
  induction h with
  | nil => simp
  | cons hl _ ih => simpa using ⟨hl.1, ih⟩

theorem getElem? {k : Nat} (h : Reads inputs c xs bs) (hl : xs[k]? = some l) :
    bs[k]? = some (c.value inputs l) := by
  induction h generalizing k with
  | nil => simp at hl
  | cons hb _ ih =>
    cases k with
    | zero =>
      cases hl
      exact congrArg some hb.2.symm
    | succ k => exact ih hl

end Reads

end Circuit

variable {B : Builder} [B.Interpretation] {α β : Type} {inputs : Lit → Bool} {c : B.Circuit}
  {g : B.Gates α} {f : α → B.Gates β} {post : B.Circuit → α → Prop} {post' : B.Circuit → β → Prop}

namespace Spec

theorem pure {a : α} (h : c.Valid → post c a) : Spec (pure a) c post :=
  fun hc => ⟨.refl hc, h hc⟩

theorem of_valid (h : c.Valid → Spec g c post) : Spec g c post := fun hc => h hc hc

theorem bind (hg : Spec g c post)
    (hf : ∀ a c', c.Extends c' → post c' a → Spec (f a) c' post') : Spec (g >>= f) c post' := by
  intro hc
  obtain ⟨hx, hp⟩ := hg hc
  obtain ⟨hx', hp'⟩ := hf _ _ hx hp hx.valid
  exact ⟨hx.trans hx', hp'⟩

theorem imp {post'' : B.Circuit → α → Prop} (hg : Spec g c post)
    (h : ∀ a c', c.Extends c' → post c' a → post'' c' a) : Spec g c post'' := by
  intro hc
  obtain ⟨hx, hp⟩ := hg hc
  exact ⟨hx, h _ _ hx hp⟩

theorem forall_inputs {post : (Lit → Bool) → B.Circuit → α → Prop}
    (h : ∀ inputs, Spec g c (post inputs)) : Spec g c fun c' a => ∀ inputs, post inputs c' a :=
  fun hc => ⟨(h (fun _ => false) hc).1, fun inputs => (h inputs hc).2⟩

end Spec

variable [B.Lawful] {a b : Lit} {p q : Bool}

theorem xor_spec (ha : Holds inputs c a p) (hb : Holds inputs c b q) :
    Spec (B.xor a b) c fun c' l => Holds inputs c' l (p ^^ q) := by
  refine (Lawful.and ha hb.not).bind fun x c₁ h₁ hx => ?_
  refine (Lawful.and (ha.mono h₁).not (hb.mono h₁)).bind fun y c₂ h₂ hy => ?_
  refine (Lawful.or (hx.mono h₂) hy).imp fun l c₃ _ hl => ?_
  cases p <;> cases q <;> exact hl

theorem choose_spec {cond : Lit} {s : Bool} (hs : Holds inputs c cond s)
    (ha : Holds inputs c a p) (hb : Holds inputs c b q) :
    Spec (B.choose cond a b) c fun c' l => Holds inputs c' l (if s then p else q) := by
  refine (Lawful.and hs ha).bind fun x c₁ h₁ hx => ?_
  refine (Lawful.and (hs.mono h₁).not (hb.mono h₁)).bind fun y c₂ h₂ hy => ?_
  refine (Lawful.or (hx.mono h₂) hy).imp fun l c₃ _ hl => ?_
  cases s <;> simpa using hl

end Concolic.Builder
