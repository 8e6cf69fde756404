import Mathlib
import Concolic.Proofs.Circuit.Basic
import Concolic.Proofs.Circuit.Binary

namespace Concolic

open Builder.Circuit Binary

theorem Bits.toNat_eq {value : Lit → Bool} {xs : Bits} {n : Nat}
    (h : ∀ k l, xs[k]? = some l → value l = n.testBit k) : xs.toNat value = n % 2 ^ xs.length := by
  induction xs generalizing n with
  | nil => simp [Bits.toNat, Nat.mod_one]
  | cons l xs ih =>
    have hl : value l = n.testBit 0 := h 0 l rfl
    have hx : ∀ k m, xs[k]? = some m → value m = (n / 2).testBit k := by
      intro k m hm
      rw [← Nat.testBit_succ]
      exact h (k + 1) m hm
    rw [Bits.toNat, ih hx, hl, List.length_cons, Nat.pow_succ, Nat.mul_comm (2 ^ _), Nat.mod_mul]
    rcases Nat.mod_two_eq_zero_or_one n with h | h <;> simp [h]

theorem Bits.toNat_lt (value : Lit → Bool) (xs : Bits) : xs.toNat value < 2 ^ xs.length := by
  induction xs with
  | nil => exact Nat.one_pos
  | cons l xs ih =>
    rw [Bits.toNat, List.length_cons, Nat.pow_succ]
    split <;> omega

theorem Bits.toNat_congr {f g : Lit → Bool} {xs : Bits} (h : ∀ l ∈ xs, f l = g l) :
    xs.toNat f = xs.toNat g := by
  induction xs with
  | nil => rfl
  | cons l xs ih =>
    obtain ⟨hl, hx⟩ := List.forall_mem_cons.mp h
    rw [Bits.toNat, Bits.toNat, hl, ih hx]

namespace Builder.Circuit.Reads

variable {B : Builder} [B.Interpretation] {inputs : Lit → Bool} {c : B.Circuit} {xs : Bits}
  {bs : List Bool}

theorem toNat_eq (h : Reads inputs c xs bs) : xs.toNat (c.value inputs) = num bs := by
  induction h with
  | nil => rfl
  | @cons _ b _ _ hl _ ih =>
    rw [Bits.toNat, num, hl.2, ih]
    cases b <;> rfl

theorem ofNat [B.Lawful] (hc : c.Valid) (n w : Nat) :
    Reads inputs c (B.ofNat n w) (toBits (BitVec.ofNat w n)) := by
  induction w generalizing n with
  | zero => exact .nil
  | succ w ih =>
    have e : toBits (BitVec.ofNat (w + 1) n) = (n % 2 == 1) :: toBits (BitVec.ofNat w (n / 2)) := by
      refine (eq_toBits (by simp) ?_).symm
      rw [num, num_toBits, BitVec.toNat_ofNat, BitVec.toNat_ofNat, Nat.pow_succ,
        Nat.mul_comm (2 ^ w), Nat.mod_mul]
      rcases Nat.mod_two_eq_zero_or_one n with h | h <;> simp [h]
    rw [e]
    exact .cons (.ofBool hc _) (ih _)

end Builder.Circuit.Reads

namespace Builder

variable {B : Builder} [B.Interpretation] [B.Lawful] {inputs : Lit → Bool} {c : B.Circuit}
  {xs ys zs : Bits} {as bs ds : List Bool} {l : Lit} {p : Bool} {w : Nat}

theorem mux_spec (hl : Holds inputs c l p) (hx : Reads inputs c xs bs)
    (hy : Reads inputs c ys ds) : Spec (B.mux l xs ys) c fun c' zs =>
      Reads inputs c' zs (bs.zipWith (fun a b => if p then a else b) ds) := by
  induction xs generalizing ys bs ds c with
  | nil =>
    cases hx
    exact .pure fun _ => .nil
  | cons a xs ih =>
    cases hx with
    | cons ha hx =>
      cases hy with
      | nil => exact .pure fun _ => .nil
      | cons hb hy =>
        refine (choose_spec hl ha hb).bind fun d c₁ h₁ hd => ?_
        refine (ih (hl.mono h₁) (hx.mono h₁) (hy.mono h₁)).bind fun rest c₂ h₂ hr => ?_
        exact .pure fun _ => .cons (hd.mono h₂) hr

omit [B.Lawful] in
theorem bitwise_spec {op : Lit → Lit → B.Gates Lit} {f : Bool → Bool → Bool}
    (hop : ∀ {c a b p q}, Holds inputs c a p → Holds inputs c b q →
      Spec (op a b) c fun c' l => Holds inputs c' l (f p q))
    (hx : Reads inputs c xs bs) (hy : Reads inputs c ys ds) :
    Spec (B.bitwise op xs ys) c fun c' zs => Reads inputs c' zs (bs.zipWith f ds) := by
  induction xs generalizing ys bs ds c with
  | nil =>
    cases hx
    exact .pure fun _ => .nil
  | cons a xs ih =>
    cases hx with
    | cons ha hx =>
      cases hy with
      | nil => exact .pure fun _ => .nil
      | cons hb hy =>
        refine (hop ha hb).bind fun d c₁ h₁ hd => ?_
        refine (ih (hx.mono h₁) (hy.mono h₁)).bind fun rest c₂ h₂ hr => ?_
        exact .pure fun _ => .cons (hd.mono h₂) hr

theorem full_adder (a b p : Bool) :
    (a ^^ b ^^ p).toNat + 2 * (a && b || (a ^^ b) && p).toNat = a.toNat + b.toNat + p.toNat := by
  revert a b p
  decide

theorem add_spec (hl : Holds inputs c l p) (hx : Reads inputs c xs bs)
    (hy : Reads inputs c ys ds) : Spec (B.add l xs ys) c fun c' zs => ∃ es, Reads inputs c' zs es ∧
      (bs.length = ds.length → es.length = bs.length ∧
        num es = (num bs + num ds + p.toNat) % 2 ^ bs.length) := by
  induction xs generalizing ys bs ds c l p with
  | nil =>
    cases hx
    exact .pure fun _ => ⟨[], .nil, by simp [num, Nat.mod_one]⟩
  | cons a xs ih =>
    cases hx with
    | @cons _ a' _ bs ha hx =>
      cases hy with
      | nil => exact .pure fun _ => ⟨[], .nil, by simp⟩
      | @cons _ b' _ ds hb hy =>
        refine (xor_spec ha hb).bind fun t c₁ h₁ ht => ?_
        refine (xor_spec ht (hl.mono h₁)).bind fun s c₂ h₂ hs => ?_
        have e₂ := h₁.trans h₂
        refine (Lawful.and (ha.mono e₂) (hb.mono e₂)).bind fun both c₃ h₃ hboth => ?_
        have e₃ := e₂.trans h₃
        refine (Lawful.and (ht.mono (h₂.trans h₃)) (hl.mono e₃)).bind fun through c₄ h₄ hthrough => ?_
        refine (Lawful.or (hboth.mono h₄) hthrough).bind fun next c₅ h₅ hnext => ?_
        have e₅ := (e₃.trans h₄).trans h₅
        refine (ih hnext (hx.mono e₅) (hy.mono e₅)).bind fun rest c₆ h₆ hrest => ?_
        obtain ⟨es, hes, hnum⟩ := hrest
        have hs₆ := hs.mono (((h₃.trans h₄).trans h₅).trans h₆)
        refine .pure fun _ => ⟨_, .cons hs₆ hes, fun he => ?_⟩
        obtain ⟨hlen, hn⟩ := hnum (by simpa using he)
        refine ⟨by simp [hlen], ?_⟩
        have := full_adder a' b' p
        rw [num, num, num, hn, List.length_cons, ← toNat_add_two_mul_mod]
        congr 1
        omega

theorem add_bits (hx : Reads inputs c xs bs) (hy : Reads inputs c ys ds) :
    Spec (B.add B.bottom xs ys) c fun c' zs => ∃ es, Reads inputs c' zs es ∧
      ∀ {w : Nat} {x y : BitVec w}, bs = toBits x → ds = toBits y → es = toBits (x + y) := by
  refine .of_valid fun hc => (add_spec (.bottom hc) hx hy).imp fun zs c' _ h => ?_
  obtain ⟨es, hes, hn⟩ := h
  refine ⟨es, hes, fun {w x y} hb hd => ?_⟩
  subst hb hd
  obtain ⟨hl, hn⟩ := hn (by simp)
  refine eq_toBits (by simpa using hl) ?_
  rw [hn, BitVec.toNat_add, num_toBits, num_toBits, length_toBits]
  rfl

theorem zipWith_choose (h : bs.length = ds.length) :
    bs.zipWith (fun a b => if p then a else b) ds = if p then bs else ds := by
  induction bs generalizing ds with
  | nil => cases ds <;> simp_all
  | cons b bs ih =>
    cases ds with
    | nil => simp at h
    | cons d ds =>
      rw [List.zipWith_cons_cons, ih (by simpa using h)]
      cases p <;> rfl

theorem sub_spec (hx : Reads inputs c xs bs) (hy : Reads inputs c ys ds) :
    Spec (B.sub xs ys) c fun c' zs => ∃ es, Reads inputs c' zs es ∧
      (bs.length = ds.length → es.length = bs.length ∧
        num es = (2 ^ bs.length - num ds + num bs) % 2 ^ bs.length) := by
  refine .of_valid fun hc => ?_
  unfold sub
  refine (add_spec (.top hc) hx hy.not).imp fun zs c' _ h => ?_
  obtain ⟨es, hes, hn⟩ := h
  refine ⟨es, hes, fun he => ?_⟩
  obtain ⟨hlen, hn⟩ := hn (by simpa using he)
  refine ⟨hlen, ?_⟩
  have := num_not ds
  rw [hn, he, Bool.toNat_true]
  congr 1
  omega

theorem sub_bits (hx : Reads inputs c xs bs) (hy : Reads inputs c ys ds) :
    Spec (B.sub xs ys) c fun c' zs => ∃ es, Reads inputs c' zs es ∧
      ∀ {w : Nat} {x y : BitVec w}, bs = toBits x → ds = toBits y → es = toBits (x - y) := by
  refine (sub_spec hx hy).imp fun zs c' _ h => ?_
  obtain ⟨es, hes, hn⟩ := h
  refine ⟨es, hes, fun {w x y} hb hd => ?_⟩
  subst hb hd
  obtain ⟨hl, hn⟩ := hn (by simp)
  refine eq_toBits (by simpa using hl) ?_
  rw [hn, BitVec.toNat_sub, num_toBits, num_toBits, length_toBits]

theorem zeros_reads (hc : c.Valid) (w : Nat) : Reads inputs c (B.zeros w) (toBits 0#w) := by
  rw [toBits_zero]
  exact .replicate (.bottom hc) w

omit [B.Lawful] in
theorem resize_reads (hl : Holds inputs c l p) (hx : Reads inputs c xs bs) (n : Nat) :
    Reads inputs c (Bits.resize xs n l) (bs.take n ++ List.replicate (n - bs.length) p) := by
  rw [Bits.resize, hx.length_eq]
  exact (hx.take n).append (.replicate hl _)

theorem neg_spec (hx : Reads inputs c xs bs) :
    Spec (B.neg xs) c fun c' zs => ∃ es, Reads inputs c' zs es ∧
      ∀ {w : Nat} {x : BitVec w}, bs = toBits x → es = toBits (-x) := by
  refine .of_valid fun hc => ?_
  unfold neg
  refine (sub_spec (zeros_reads hc xs.length) hx).imp fun zs c' _ h => ?_
  obtain ⟨es, hes, hn⟩ := h
  refine ⟨es, hes, fun {w x} hb => ?_⟩
  obtain rfl : xs.length = w := by rw [hx.length_eq, hb, length_toBits]
  subst hb
  obtain ⟨hlen, hn⟩ := hn (by simp)
  refine eq_toBits (by simpa using hlen) ?_
  rw [hn, ← BitVec.zero_sub, BitVec.toNat_sub, length_toBits, num_toBits, num_toBits]

theorem sign_holds (hc : c.Valid) (hx : Reads inputs c xs bs) :
    Holds inputs c (B.sign xs) (bs.getLastD false) := by
  have last : ∀ {l p}, Holds inputs c l p → Holds inputs c (xs.getLastD l) (bs.getLastD p) := by
    induction hx with
    | nil => exact id
    | cons hl _ ih => exact fun _ => by simpa only [List.getLastD_cons] using ih hl
  exact last (.bottom hc)

theorem abs_spec (hx : Reads inputs c xs bs) :
    Spec (B.abs xs) c fun c' zs => ∃ es, Reads inputs c' zs es ∧
      ∀ {w : Nat} {x : BitVec w}, bs = toBits x → es = toBits (if x.msb then -x else x) := by
  refine .of_valid fun hc => ?_
  refine (neg_spec hx).bind fun n c₁ h₁ hn => ?_
  obtain ⟨es, hes, hn⟩ := hn
  refine (mux_spec ((sign_holds hc hx).mono h₁) hes (hx.mono h₁)).imp fun zs c₂ _ hz => ?_
  refine ⟨_, hz, fun {w x} hb => ?_⟩
  rw [hn hb, hb, zipWith_choose (by simp), getLastD_toBits, apply_ite toBits]

theorem row_spec (hl : Holds inputs c l p) (hx : Reads inputs c xs bs) :
    Spec (xs.mapM fun a => B.and a l) c fun c' zs => Reads inputs c' zs (bs.map (· && p)) := by
  induction xs generalizing bs c with
  | nil =>
    cases hx
    exact .pure fun _ => .nil
  | cons a xs ih =>
    cases hx with
    | cons ha hx =>
      rw [List.mapM_cons]
      refine (Lawful.and ha hl).bind fun d c₁ h₁ hd => ?_
      refine (ih (hl.mono h₁) (hx.mono h₁)).bind fun rest c₂ h₂ hr => ?_
      exact .pure fun _ => .cons (hd.mono h₂) hr

theorem num_row (bs : List Bool) (p : Bool) : num (bs.map (· && p)) = num bs * p.toNat := by
  cases p with
  | true => simp
  | false =>
    rw [show bs.map (· && false) = List.replicate bs.length false by simp, num_replicate]
    simp

theorem mul_step (a x d i n : Nat) (b : Bool) (hi : i ≤ n) :
    ((a + 2 ^ i * (x % 2 ^ (n - i) * b.toNat) + 0) % 2 ^ n + x * (d * 2 ^ (i + 1))) % 2 ^ n =
      (a + x * ((b.toNat + 2 * d) * 2 ^ i)) % 2 ^ n := by
  have hpow : 2 ^ n = 2 ^ i * 2 ^ (n - i) := by rw [← Nat.pow_add, Nat.add_sub_cancel' hi]
  have hrow : 2 ^ i * (x % 2 ^ (n - i) * b.toNat) ≡ 2 ^ i * x * b.toNat [MOD 2 ^ n] := by
    rw [← Nat.mul_assoc, ← Nat.mul_mod_mul_left, ← hpow]
    exact (Nat.mod_modEq _ _).mul_right _
  rw [Nat.mod_add_mod]
  calc a + 2 ^ i * (x % 2 ^ (n - i) * b.toNat) + 0 + x * (d * 2 ^ (i + 1))
    _ ≡ a + 2 ^ i * x * b.toNat + 0 + x * (d * 2 ^ (i + 1)) [MOD 2 ^ n] :=
      ((hrow.add_left a).add_right 0).add_right _
    _ = a + x * ((b.toNat + 2 * d) * 2 ^ i) := by ring

theorem mulFrom_spec (hx : Reads inputs c xs bs) {i : Nat} (ha : Reads inputs c zs as)
    (hy : Reads inputs c ys ds) : Spec (B.mulFrom xs i zs ys) c fun c' zs => ∃ es,
      Reads inputs c' zs es ∧ (as.length = bs.length → i + ds.length ≤ bs.length →
        es.length = bs.length ∧
          num es = (num as + num bs * (num ds * 2 ^ i)) % 2 ^ bs.length) := by
  induction ys generalizing zs as ds c i with
  | nil =>
    cases hy
    refine .pure fun _ => ⟨as, ha, fun he _ => ⟨he, ?_⟩⟩
    rw [num, Nat.zero_mul, Nat.mul_zero, Nat.add_zero, ← he, Nat.mod_eq_of_lt (num_lt as)]
  | cons b ys ih =>
    cases hy with
    | @cons _ b' _ ds hb hy =>
      refine .of_valid fun hc => ?_
      refine (row_spec hb (hx.take _)).bind fun row c₁ h₁ hr => ?_
      refine (add_spec ((Holds.bottom hc).mono h₁) (ha.mono h₁)
        (((Reads.replicate (.bottom hc) i).mono h₁).append hr)).bind fun acc c₂ h₂ hacc => ?_
      obtain ⟨es, hes, hn⟩ := hacc
      have e₂ := h₁.trans h₂
      refine (ih (hx.mono e₂) hes (hy.mono e₂)).imp fun zs c₃ _ hz => ?_
      obtain ⟨fs, hfs, hm⟩ := hz
      refine ⟨fs, hfs, fun he hi => ?_⟩
      rw [List.length_cons] at hi
      have hlen := hx.length_eq
      obtain ⟨hl, hn⟩ := hn (by simp; omega)
      obtain ⟨hl', hm⟩ := hm (hl.trans he) (by omega)
      refine ⟨hl', ?_⟩
      rw [hm, hn, num_append, num_row, num_take, num_replicate, List.length_replicate, num, hlen,
        he]
      simpa using mul_step (num as) (num bs) (num ds) i bs.length b' (by omega)

theorem mul_spec (hx : Reads inputs c xs bs) (hy : Reads inputs c ys ds) :
    Spec (B.mul xs ys) c fun c' zs => ∃ es, Reads inputs c' zs es ∧
      ∀ {w : Nat} {x y : BitVec w}, bs = toBits x → ds = toBits y → es = toBits (x * y) := by
  refine .of_valid fun hc => ?_
  unfold mul
  refine (mulFrom_spec hx (zeros_reads hc xs.length) (hy.take xs.length)).imp fun zs c' _ h => ?_
  obtain ⟨es, hes, hn⟩ := h
  refine ⟨es, hes, fun {w x y} hb hd => ?_⟩
  have hlen : xs.length = w := by rw [hx.length_eq, hb, length_toBits]
  subst hb hd hlen
  obtain ⟨hl, hn⟩ := hn (by simp) (by simp)
  refine eq_toBits (by simpa using hl) ?_
  rw [hn, BitVec.toNat_mul, num_take]
  simp [num_toBits]

theorem all_xor (h : bs.length = ds.length) :
    ((bs.zipWith Bool.xor ds).map Bool.not).all id = decide (bs = ds) := by
  induction bs generalizing ds with
  | nil => cases ds <;> simp_all
  | cons b bs ih =>
    cases ds with
    | nil => simp at h
    | cons d ds =>
      rw [List.zipWith_cons_cons, List.map_cons, List.all_cons, ih (by simpa using h)]
      cases b <;> cases d <;> simp

theorem eq_spec (hx : Reads inputs c xs bs) (hy : Reads inputs c ys ds) :
    Spec (B.eq xs ys) c fun c' l => ∃ p, Holds inputs c' l p ∧
      ∀ {w : Nat} {x y : BitVec w}, bs = toBits x → ds = toBits y → p = (x == y) := by
  refine (bitwise_spec xor_spec hx hy).bind fun d c₁ _ hd => ?_
  refine (Lawful.all hd.not).imp fun l c₂ _ hl => ⟨_, hl, ?_⟩
  rintro w x y rfl rfl
  rw [all_xor (by simp), beq_eq_decide, decide_eq_decide, toBits_inj]

theorem ultFrom_spec (hl : Holds inputs c l p) (hx : Reads inputs c xs bs)
    (hy : Reads inputs c ys ds) : Spec (B.ultFrom l xs ys) c fun c' l => ∃ q, Holds inputs c' l q ∧
      (bs.length = ds.length → q = decide (num bs < num ds + p.toNat)) := by
  induction xs generalizing ys bs ds c l p with
  | nil =>
    cases hx
    refine .pure fun _ => ⟨p, hl, fun he => ?_⟩
    obtain rfl := List.length_eq_zero_iff.mp he.symm
    cases p <;> rfl
  | cons a xs ih =>
    cases hx with
    | @cons _ a' _ bs ha hx =>
      cases hy with
      | nil => exact .pure fun _ => ⟨p, hl, by simp⟩
      | @cons _ b' _ ds hb hy =>
        refine (xor_spec ha hb).bind fun d c₁ h₁ hd => ?_
        refine (choose_spec hd (hb.mono h₁) (hl.mono h₁)).bind fun lt c₂ h₂ hlt => ?_
        have e₂ := h₁.trans h₂
        refine (ih hlt (hx.mono e₂) (hy.mono e₂)).imp fun l c₃ _ h => ?_
        obtain ⟨q, hq, hn⟩ := h
        refine ⟨q, hq, fun he => ?_⟩
        rw [hn (by simpa using he), num, num, decide_eq_decide]
        cases a' <;> cases b' <;> cases p <;> simp <;> omega

theorem ult_spec (hx : Reads inputs c xs bs) (hy : Reads inputs c ys ds) :
    Spec (B.ult xs ys) c fun c' l => ∃ p, Holds inputs c' l p ∧
      (bs.length = ds.length → p = decide (num bs < num ds)) := by
  refine .of_valid fun hc => ?_
  unfold ult
  refine (ultFrom_spec (.bottom hc) hx hy).imp fun l c' _ h => ?_
  simpa using h

theorem ult_bits (hx : Reads inputs c xs bs) (hy : Reads inputs c ys ds) :
    Spec (B.ult xs ys) c fun c' l => ∃ p, Holds inputs c' l p ∧
      ∀ {w : Nat} {x y : BitVec w}, bs = toBits x → ds = toBits y → p = x.ult y := by
  refine (ult_spec hx hy).imp fun l c' _ h => ?_
  obtain ⟨p, hp, hn⟩ := h
  refine ⟨p, hp, fun {w x y} hb hd => ?_⟩
  subst hb hd
  rw [hn (by simp), num_toBits, num_toBits]
  rfl

theorem flipAt_reads (hx : Reads inputs c xs bs) (i : Nat) :
    Reads inputs c (xs.flipAt i) (bs.modify i Bool.not) := by
  unfold Bits.flipAt
  induction hx generalizing i with
  | nil => simpa using Reads.nil
  | cons hl h ih =>
    cases i with
    | zero => exact .cons hl.not h
    | succ i => exact .cons hl (ih i)

theorem slt_spec (hx : Reads inputs c xs bs) (hy : Reads inputs c ys ds) :
    Spec (B.slt xs ys) c fun c' l => ∃ p, Holds inputs c' l p ∧
      ∀ {w : Nat} {x y : BitVec w}, bs = toBits x → ds = toBits y → p = x.slt y := by
  unfold slt
  refine (ult_spec (flipAt_reads hx _) (flipAt_reads hy _)).imp fun l c' _ h => ?_
  obtain ⟨p, hp, hn⟩ := h
  refine ⟨p, hp, fun {w x y} hb hd => ?_⟩
  have hlen : xs.length = w := by rw [hx.length_eq, hb, length_toBits]
  rw [hn (by simp [hb, hd]), hlen, hb, hd, modify_toBits, modify_toBits, num_toBits, num_toBits]
  exact ult_flip x y

end Builder

end Concolic
