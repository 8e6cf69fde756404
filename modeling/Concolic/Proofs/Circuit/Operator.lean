import Mathlib
import Concolic.Proofs.Circuit.Division
import Concolic.Proofs.Circuit.Encoder
import Concolic.Proofs.Circuit.Shift

namespace Concolic

open Builder Builder.Circuit Binary

namespace BinaryOp

variable {op : BinaryOp} {bs ds es : List Bool}

structure Answers (op : BinaryOp) (bs ds es : List Bool) : Prop where
  compute : op.isArithmetic → op.isShift = false → ∀ {w : Nat} {x y : BitVec w},
    bs = toBits x → ds = toBits y → es = toBits (op.compute x y)
  move : op.isShift → ∀ {w v : Nat} {x : BitVec w} {y : BitVec v}, w ≤ 64 →
    bs = toBits x → ds = toBits y → es = toBits (op.move x y.toNat)
  test : op.isCompare → ∀ {w : Nat} {x y : BitVec w},
    bs = toBits x → ds = toBits y → es = toBits (BitVec.ofBool (op.test x y))

theorem Answers.of_compute (ha : op.isArithmetic) (hs : op.isShift = false)
    (h : ∀ {w : Nat} {x y : BitVec w}, bs = toBits x → ds = toBits y →
      es = toBits (op.compute x y)) : op.Answers bs ds es where
  compute _ _ := h
  move hs' := by simp [hs] at hs'
  test hc := by simp [isCompare_of_isArithmetic ha] at hc

theorem Answers.of_move (hs : op.isShift)
    (h : ∀ {w v : Nat} {x : BitVec w} {y : BitVec v}, w ≤ 64 → bs = toBits x → ds = toBits y →
      es = toBits (op.move x y.toNat)) : op.Answers bs ds es where
  compute _ hs' := by simp [hs] at hs'
  move _ := h
  test hc := by simp [isCompare_of_isShift hs] at hc

theorem Answers.of_test {p : Bool} (hc : op.isCompare)
    (h : ∀ {w : Nat} {x y : BitVec w}, bs = toBits x → ds = toBits y → p = op.test x y) :
    op.Answers bs ds [p] where
  compute ha := by simp [isCompare_of_isArithmetic ha] at hc
  move hs := by simp [isCompare_of_isShift hs] at hc
  test _ := by
    intro w x y hx hy
    rw [← h hx hy]
    cases p <;> rfl

end BinaryOp

namespace Encoder

variable {B : Builder} [B.Interpretation] [B.Lawful] {K : String → Kind}
  {enc : Encoder B} {xs ys : Bits} {must : Prop}
  {op : BinaryOp}

def Answered (op : BinaryOp) (c : B.Circuit) (xs ys zs : Bits) : Prop :=
  ∀ inputs, ∃ bs ds es, Reads inputs c xs bs ∧ Reads inputs c ys ds ∧ Reads inputs c zs es ∧
    op.Answers bs ds es

section Binary

variable (hx : ∀ l ∈ xs, enc.circuit.Has l)
  (hy : ∀ l ∈ ys, enc.circuit.Has l)

include hx hy

theorem gates_answered {α : Type} {g : B.Gates α} (f : α → Bits)
    (h : ∀ inputs bs ds, Reads inputs enc.circuit xs bs → Reads inputs enc.circuit ys ds →
      Spec g enc.circuit fun c' a => ∃ es, Reads inputs c' (f a) es ∧ op.Answers bs ds es) :
    Runs K (gates g) enc must fun enc' a => Answered op enc'.circuit xs ys (f a) := by
  have spec : Spec g enc.circuit fun c' a => Answered op c' xs ys (f a) := by
    refine .forall_inputs fun inputs => ?_
    obtain ⟨bs, hbs⟩ : ∃ bs, Reads inputs enc.circuit xs bs := Reads.exists_of_scope hx
    obtain ⟨ds, hds⟩ : ∃ ds, Reads inputs enc.circuit ys ds := Reads.exists_of_scope hy
    refine (h inputs bs ds hbs hds).imp fun a c' hc ⟨es, hes, ha⟩ => ?_
    exact ⟨bs, ds, es, hbs.mono hc, hds.mono hc, hes, ha⟩
  exact (gates_runs spec).imp id fun _ _ _ _ h => h.2

theorem compute_runs {α : Type} {g : B.Gates α} (f : α → Bits) (ha : op.isArithmetic)
    (hs : op.isShift = false)
    (h : ∀ inputs bs ds, Reads inputs enc.circuit xs bs → Reads inputs enc.circuit ys ds →
      Spec g enc.circuit fun c' a => ∃ es, Reads inputs c' (f a) es ∧
        ∀ {w : Nat} {x y : BitVec w}, bs = toBits x → ds = toBits y →
          es = toBits (op.compute x y)) :
    Runs K (gates g) enc must fun enc' a => Answered op enc'.circuit xs ys (f a) :=
  gates_answered hx hy f fun inputs bs ds hb hd => (h inputs bs ds hb hd).imp
    fun _ _ _ ⟨es, hes, he⟩ => ⟨es, hes, .of_compute ha hs he⟩

theorem bitwise_runs {g : Lit → Lit → B.Gates Lit} {f : Bool → Bool → Bool} (ha : op.isArithmetic)
    (hs : op.isShift = false)
    (hg : ∀ {inputs c a b p q}, Holds inputs c a p → Holds inputs c b q →
      Spec (g a b) c fun c' l => Holds inputs c' l (f p q))
    (hf : ∀ {w : Nat} (x y : BitVec w) i, i < w →
      (op.compute x y).getLsbD i = f (x.getLsbD i) (y.getLsbD i)) :
    Runs K (gates (B.bitwise g xs ys)) enc must fun enc' zs =>
      Answered op enc'.circuit xs ys zs := by
  refine compute_runs hx hy id ha hs fun inputs bs ds hb hd => ?_
  refine (Builder.bitwise_spec hg hb hd).imp fun zs c' _ h => ⟨_, h, ?_⟩
  rintro w x y rfl rfl
  exact zipWith_toBits hf x y

theorem move_runs {kind : Bits.Shift} (hs : op.isShift)
    (hm : ∀ {w : Nat} (x : BitVec w) n, op.move x n = kind.on x n) :
    Runs K (gates (B.shift kind xs ys)) enc must fun enc' zs =>
      Answered op enc'.circuit xs ys zs :=
  gates_answered hx hy id fun inputs bs ds hb hd => (Builder.shift_spec kind hb hd).imp
    fun _ _ _ ⟨es, hes, he⟩ => ⟨es, hes, .of_move hs fun hw hx hy => by rw [he hw hx hy, hm]⟩

section Compare

variable {gate : Bits → Bits → B.Gates Lit} {s : ∀ {w : Nat}, BitVec w → BitVec w → Bool}
  (hg : ∀ {inputs : Lit → Bool} {c : B.Circuit} {xs ys : Bits} {bs ds : List Bool},
    Reads inputs c xs bs → Reads inputs c ys ds →
      Spec (gate xs ys) c fun c' l => ∃ p, Holds inputs c' l p ∧
        ∀ {w : Nat} {x y : BitVec w}, bs = toBits x → ds = toBits y → p = s x y)
  {f : Lit → Lit} {f' : Bool → Bool}
  (hf : ∀ {inputs : Lit → Bool} {c : B.Circuit} {l : Lit} {p : Bool},
    Holds inputs c l p → Holds inputs c (f l) (f' p))

include hg hf

theorem test_runs (hc : op.isCompare)
    (hs : ∀ {w : Nat} (x y : BitVec w), f' (s x y) = op.test x y) :
    Runs K (do return [f (← gates (gate xs ys))]) enc must fun enc' zs =>
      Answered op enc'.circuit xs ys zs := by
  refine Runs.bind (gates_answered hx hy (fun l => [f l]) fun inputs bs ds hb hd => ?_)
    fun _ _ _ _ h => .pure fun _ => h
  refine (hg hb hd).imp fun l c' _ ⟨p, hp, he⟩ => ⟨_, .cons (hf hp) .nil, .of_test hc ?_⟩
  intro w x y hx hy
  rw [he hx hy, hs]

theorem test_swapped (hc : op.isCompare)
    (hs : ∀ {w : Nat} (x y : BitVec w), f' (s y x) = op.test x y) :
    Runs K (do return [f (← gates (gate ys xs))]) enc must fun enc' zs =>
      Answered op enc'.circuit xs ys zs := by
  have swapped : ∀ {inputs : Lit → Bool} {c : B.Circuit} {xs ys : Bits} {bs ds : List Bool},
      Reads inputs c xs bs → Reads inputs c ys ds →
        Spec (gate ys xs) c fun c' l => ∃ p, Holds inputs c' l p ∧
          ∀ {w : Nat} {x y : BitVec w}, bs = toBits x → ds = toBits y → p = s y x :=
    fun hx hy => (hg hy hx).imp fun _ _ _ ⟨p, hp, he⟩ => ⟨p, hp, fun hx hy => he hy hx⟩
  exact test_runs hx hy swapped hf hc hs

end Compare

def Fit (op : BinaryOp) (xs ys : Bits) : Prop :=
  (op.isArithmetic ∨ op.isCompare) ∧ 0 < xs.length ∧ 0 < ys.length ∧
    (op.isShift ∨ xs.length = ys.length)

theorem binary_runs :
    Runs K (binary op xs ys) enc (Fit op xs ys) fun enc' zs =>
      Answered op enc'.circuit xs ys zs := by
  have first : Fit op xs ys → 0 < xs.length := fun h => h.2.1
  have second : Fit op xs ys → 0 < ys.length := fun h => h.2.2.1
  have same : op.isShift = false → Fit op xs ys → xs.length = ys.length := by
    intro hs h
    simpa [hs] using h.2.2.2
  have fits (hs : op.isShift = false) (h : Fit op xs ys) := (same hs h).le
  have fits' (hs : op.isShift = false) (h : Fit op xs ys) := (same hs h).ge
  cases op with
  | add =>
    refine matching_runs (fits rfl) ?_
    exact compute_runs hx hy id rfl rfl fun _ _ _ => Builder.add_bits
  | sub =>
    refine matching_runs (fits rfl) ?_
    exact compute_runs hx hy id rfl rfl fun _ _ _ => Builder.sub_bits
  | mul =>
    refine matching_runs (fits rfl) ?_
    exact compute_runs hx hy id rfl rfl fun _ _ _ => Builder.mul_spec
  | udiv =>
    refine Runs.bind ?_ fun _ _ _ _ h => .pure fun _ => h
    exact compute_runs hx hy Prod.fst rfl rfl fun _ _ _ hb hd => (Builder.udivrem_spec hb hd).imp
      fun _ _ _ ⟨es, _, hes, _, he⟩ => ⟨es, hes, fun hx hy => (he hx hy).1⟩
  | urem =>
    refine Runs.bind ?_ fun _ _ _ _ h => .pure fun _ => h
    exact compute_runs hx hy Prod.snd rfl rfl fun _ _ _ hb hd => (Builder.udivrem_spec hb hd).imp
      fun _ _ _ ⟨_, fs, _, hfs, he⟩ => ⟨fs, hfs, fun hx hy => (he hx hy).2⟩
  | sdiv =>
    refine nonempty_runs first (nonempty_runs second ?_)
    refine Runs.bind ?_ fun _ _ _ _ h => .pure fun _ => h
    exact compute_runs hx hy Prod.fst rfl rfl fun _ _ _ hb hd => (Builder.sdivrem_spec hb hd).imp
      fun _ _ _ ⟨es, _, hes, _, he⟩ => ⟨es, hes, fun hx hy => (he hx hy).1⟩
  | srem =>
    refine nonempty_runs first (nonempty_runs second ?_)
    refine Runs.bind ?_ fun _ _ _ _ h => .pure fun _ => h
    exact compute_runs hx hy Prod.snd rfl rfl fun _ _ _ hb hd => (Builder.sdivrem_spec hb hd).imp
      fun _ _ _ ⟨_, fs, _, hfs, he⟩ => ⟨fs, hfs, fun hx hy => (he hx hy).2⟩
  | and =>
    refine matching_runs (fits rfl) ?_
    exact bitwise_runs hx hy rfl rfl Lawful.and fun _ _ _ _ => BitVec.getLsbD_and
  | or =>
    refine matching_runs (fits rfl) ?_
    exact bitwise_runs hx hy rfl rfl Lawful.or fun _ _ _ _ => BitVec.getLsbD_or
  | xor =>
    refine matching_runs (fits rfl) ?_
    exact bitwise_runs hx hy rfl rfl Builder.xor_spec fun _ _ _ _ => BitVec.getLsbD_xor
  | shl => exact move_runs hx hy rfl fun _ _ => rfl
  | lshr => exact move_runs hx hy rfl fun _ _ => rfl
  | ashr => exact nonempty_runs first (move_runs hx hy rfl fun _ _ => rfl)
  | eq =>
    refine matching_runs (fits rfl) ?_
    exact test_runs hx hy Builder.eq_spec id rfl fun _ _ => rfl
  | ne =>
    refine matching_runs (fits rfl) ?_
    exact test_runs hx hy Builder.eq_spec Holds.not rfl fun _ _ => rfl
  | ult =>
    refine matching_runs (fits rfl) ?_
    exact test_runs hx hy Builder.ult_bits id rfl fun _ _ => rfl
  | ule =>
    refine matching_runs (fits' rfl) ?_
    exact test_swapped hx hy Builder.ult_bits Holds.not rfl fun x y =>
      (BitVec.ule_eq_not_ult x y).symm
  | ugt =>
    refine matching_runs (fits' rfl) ?_
    exact test_swapped hx hy Builder.ult_bits id rfl fun _ _ => rfl
  | uge =>
    refine matching_runs (fits rfl) ?_
    exact test_runs hx hy Builder.ult_bits Holds.not rfl fun x y =>
      (BitVec.ule_eq_not_ult y x).symm
  | slt =>
    refine nonempty_runs first (matching_runs (fits rfl) ?_)
    exact test_runs hx hy Builder.slt_spec id rfl fun _ _ => rfl
  | sle =>
    refine nonempty_runs second (matching_runs (fits' rfl) ?_)
    exact test_swapped hx hy Builder.slt_spec Holds.not rfl fun _ _ => BitVec.sle_eq_not_slt.symm
  | sgt =>
    refine nonempty_runs second (matching_runs (fits' rfl) ?_)
    exact test_swapped hx hy Builder.slt_spec id rfl fun _ _ => rfl
  | sge =>
    refine nonempty_runs first (matching_runs (fits rfl) ?_)
    exact test_runs hx hy Builder.slt_spec Holds.not rfl fun _ _ => BitVec.sle_eq_not_slt.symm
  | unknown => exact .throw fun h => by simp [Fit, BinaryOp.isArithmetic, BinaryOp.isCompare] at h

end Binary

end Encoder

end Concolic
