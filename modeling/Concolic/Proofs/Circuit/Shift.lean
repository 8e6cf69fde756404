import Mathlib
import Concolic.Proofs.Circuit.Arithmetic
import Concolic.Proofs.Literal

namespace Concolic

open Builder.Circuit Binary

namespace Bits.Shift

variable {w : Nat}

def on (kind : Shift) (x : BitVec w) (n : Nat) : BitVec w :=
  match kind with
  | left => x <<< n
  | logical => x >>> n
  | arithmetic => x.sshiftRight n

def filler (kind : Shift) (x : BitVec w) : Bool :=
  match kind with
  | arithmetic => x.msb
  | left | logical => false

def moveBits (kind : Shift) (p : Bool) (n : Nat) (bs : List Bool) : List Bool :=
  match kind with
  | left => List.replicate n p ++ bs.take (bs.length - n)
  | logical | arithmetic => bs.drop n ++ List.replicate n p

theorem length_moveBits (kind : Shift) (p : Bool) {n : Nat} {bs : List Bool} (h : n ≤ bs.length) :
    (kind.moveBits p n bs).length = bs.length := by
  cases kind <;> simp [moveBits] <;> omega

theorem on_add (kind : Shift) (x : BitVec w) (m n : Nat) :
    kind.on x (m + n) = kind.on (kind.on x m) n := by
  cases kind with
  | left => exact BitVec.shiftLeft_add x m n
  | logical => exact BitVec.shiftRight_add x m n
  | arithmetic => exact BitVec.sshiftRight_add

theorem filler_on (kind : Shift) (x : BitVec w) (n : Nat) :
    kind.filler (kind.on x n) = kind.filler x := by
  cases kind with
  | left => rfl
  | logical => rfl
  | arithmetic => exact BitVec.msb_sshiftRight

theorem on_zero (kind : Shift) (x : BitVec w) : kind.on x 0 = x := by
  cases kind <;> simp [on]

theorem moveBits_toBits (kind : Shift) (x : BitVec w) {n : Nat} (h : n ≤ w) :
    kind.moveBits (kind.filler x) n (toBits x) = toBits (kind.on x n) := by
  apply List.ext_getElem (by simp [length_moveBits, h])
  intro i hi hi'
  have hw : i < w := by simpa using hi'
  rw [getElem_toBits]
  cases kind with
  | left =>
    simp only [moveBits, on, filler, BitVec.getLsbD_shiftLeft]
    by_cases hn : i < n
    · simp [hn]
    · simp [List.getElem_append, hn, hw]
  | logical =>
    simp only [moveBits, on, filler, BitVec.getLsbD_ushiftRight]
    by_cases hn : n + i < w
    · simp [show i < w - n by omega]
    · rw [BitVec.getLsbD_of_ge x (n + i) (by omega)]
      simp [List.getElem_append, show ¬ i < w - n by omega]
  | arithmetic =>
    simp only [moveBits, on, filler, BitVec.getLsbD_sshiftRight]
    by_cases hn : n + i < w
    · simp [show i < w - n by omega, hn, hw]
    · simp [List.getElem_append, show ¬ i < w - n by omega, hn, hw]

theorem toBits_on (kind : Shift) (x : BitVec w) {n : Nat} (h : w ≤ n) :
    toBits (kind.on x n) = List.replicate w (kind.filler x) := by
  apply List.ext_getElem (by simp)
  intro i hi _
  have hw : i < w := by simpa using hi
  rw [getElem_toBits, List.getElem_replicate]
  cases kind with
  | left => simp [on, filler, show i < n by omega]
  | logical => simpa [on, filler] using BitVec.getLsbD_of_ge x (n + i) (by omega)
  | arithmetic =>
    rw [on, filler, BitVec.getLsbD_sshiftRight, if_neg (by omega)]
    simp [hw]

theorem move_reads {B : Builder} [B.Interpretation] {inputs : Lit → Bool} {c : B.Circuit} {l : Lit}
    {p : Bool} {xs : Bits} {bs : List Bool} (kind : Shift) (n : Nat) (hl : Holds inputs c l p)
    (hx : Reads inputs c xs bs) : Reads inputs c (kind.move l n xs) (kind.moveBits p n bs) := by
  have hr := Reads.replicate hl n
  cases kind with
  | left =>
    rw [Shift.move, hx.length_eq]
    exact hr.append (hx.take _)
  | logical => exact (hx.drop n).append hr
  | arithmetic => exact (hx.drop n).append hr

end Bits.Shift

namespace Builder

open Bits

variable {B : Builder} [B.Interpretation] [B.Lawful] {inputs : Lit → Bool} {c : B.Circuit}
  {xs ys : Bits} {bs ds : List Bool} {l : Lit} {p q : Bool}

theorem shiftFrom_spec (kind : Shift) {k : Nat} {ns : Bits} {ms : List Bool} {b : Lit}
    (hl : Holds inputs c l p) (hx : Reads inputs c xs bs) (hb : Holds inputs c b q)
    (hn : Reads inputs c ns ms) : Spec (B.shiftFrom kind l k xs b ns) c fun c' vb =>
      ∃ es e, Reads inputs c' vb.1 es ∧ Holds inputs c' vb.2 e ∧ es.length = bs.length ∧
        ∀ {w : Nat} {x : BitVec w}, w ≤ 64 → bs = toBits x → p = kind.filler x →
          (e = true → q = true ∨ w ≤ 2 ^ k * num ms) ∧
          (e = false → q = false ∧ es = toBits (kind.on x (2 ^ k * num ms))) := by
  induction ns generalizing xs bs b q ms c k with
  | nil =>
    cases hn
    refine .pure fun _ => ⟨bs, q, hx, hb, rfl, fun {w x} _ he _ => ⟨.inl, fun hq => ⟨hq, ?_⟩⟩⟩
    rw [num, Nat.mul_zero, kind.on_zero, he]
  | cons m ns ih =>
    cases hn with
    | @cons _ m' _ ms hm hn =>
      unfold shiftFrom
      split
      next hk =>
        refine (Lawful.or hb hm).bind fun d c₁ h₁ hd => ?_
        refine (ih (hl.mono h₁) (hx.mono h₁) hd (hn.mono h₁)).imp fun vb c₂ _ h => ?_
        obtain ⟨es, e, hes, he, hlen, h⟩ := h
        refine ⟨es, e, hes, he, hlen, fun {w x} hw hbs hp => ?_⟩
        obtain ⟨ht, hf⟩ := h hw hbs hp
        have hwk : w ≤ 2 ^ k := by
          rcases hk with hk | hk
          · exact Nat.le_trans hw (Nat.le_trans (by decide) (Nat.pow_le_pow_right (by decide) hk))
          · rwa [hx.length_eq, hbs, length_toBits, twoPow_eq] at hk
        rw [num, Nat.mul_add, ← Nat.mul_assoc, ← Nat.pow_succ]
        refine ⟨fun he => ?_, fun he => ?_⟩
        · rcases ht he with hq | hle
          · rcases Bool.or_eq_true_iff.mp hq with hq | rfl
            · exact .inl hq
            · right
              simp
              omega
          · exact .inr (Nat.le_add_left_of_le hle)
        · obtain ⟨hq, hes⟩ := hf he
          obtain ⟨hq', rfl⟩ := Bool.or_eq_false_iff.mp hq
          exact ⟨hq', by simpa using hes⟩
      next hk =>
        have hk' : 2 ^ k ≤ bs.length := by
          rw [twoPow_eq, hx.length_eq] at hk
          omega
        refine (mux_spec hm (kind.move_reads _ hl hx) hx).bind fun v c₁ h₁ hv => ?_
        rw [twoPow_eq, zipWith_choose (kind.length_moveBits p hk')] at hv
        refine (ih (hl.mono h₁) hv (hb.mono h₁) (hn.mono h₁)).imp fun vb c₂ _ h => ?_
        obtain ⟨es, e, hes, he, hlen, h⟩ := h
        refine ⟨es, e, hes, he, ?_, fun {w x} hw hbs hp => ?_⟩
        · rw [hlen]
          split
          · exact kind.length_moveBits p hk'
          · rfl
        · subst hbs hp
          rw [length_toBits] at hk'
          have moved : (if m' then kind.moveBits (kind.filler x) (2 ^ k) (toBits x) else toBits x) =
              toBits (kind.on x (2 ^ k * m'.toNat)) := by
            rw [kind.moveBits_toBits x hk']
            cases m' <;> simp [kind.on_zero]
          obtain ⟨ht, hf⟩ := h hw moved (kind.filler_on x _).symm
          rw [num, Nat.mul_add, ← Nat.mul_assoc, ← Nat.pow_succ, kind.on_add]
          exact ⟨fun he => (ht he).imp_right Nat.le_add_left_of_le, hf⟩

theorem shift_spec (kind : Shift) (hx : Reads inputs c xs bs) (hy : Reads inputs c ys ds) :
    Spec (B.shift kind xs ys) c fun c' zs => ∃ es, Reads inputs c' zs es ∧
      ∀ {w v : Nat} {x : BitVec w} {y : BitVec v}, w ≤ 64 → bs = toBits x → ds = toBits y →
        es = toBits (kind.on x y.toNat) := by
  refine .of_valid fun hc => ?_
  unfold shift
  have hfill : Holds inputs c (if kind = .arithmetic then B.sign xs else B.bottom)
      (if kind = .arithmetic then bs.getLastD false else false) := by
    split
    · exact sign_holds hc hx
    · exact .bottom hc
  refine (shiftFrom_spec kind hfill hx (.bottom hc) hy).bind fun vb c₁ h₁ h => ?_
  obtain ⟨es, e, hes, he, hlen, h⟩ := h
  refine (mux_spec he (.replicate (hfill.mono h₁) _) hes).imp fun zs c₂ _ hz => ⟨_, hz, ?_⟩
  rintro w v x y hw rfl rfl
  have hf : (if kind = .arithmetic then (toBits x).getLastD false else false) = kind.filler x := by
    cases kind with
    | left => rfl
    | logical => rfl
    | arithmetic => exact getLastD_toBits x
  obtain ⟨ht, hff⟩ := h hw rfl hf
  rw [zipWith_choose (by simp [hlen, hx.length_eq]), hf, hx.length_eq, length_toBits]
  rw [Nat.pow_zero, Nat.one_mul, num_toBits] at ht hff
  cases e with
  | true =>
    have := (ht rfl).resolve_left (by simp)
    rw [if_pos rfl, kind.toBits_on x this]
  | false => exact (hff rfl).2

end Builder

end Concolic
