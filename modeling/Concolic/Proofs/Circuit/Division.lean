import Mathlib
import Concolic.Proofs.Circuit.Arithmetic

namespace Concolic.Builder

open Builder.Circuit Binary

variable {B : Builder} [B.Interpretation] [B.Lawful] {inputs : Lit → Bool} {c : B.Circuit}
  {xs ys : Bits} {bs ds : List Bool} {w : Nat}

theorem divideFrom_spec {qs rs ns : Bits} {es fs ms : List Bool} (hy : Reads inputs c ys ds)
    (hq : Reads inputs c qs es) (hr : Reads inputs c rs fs) (hn : Reads inputs c ns ms) :
    Spec (B.divideFrom ys qs rs ns) c fun c' qr => ∃ es' fs', Reads inputs c' qr.1 es' ∧
      Reads inputs c' qr.2 fs' ∧ ∀ n, Divided (num ds) n es fs → fs.length = ds.length →
        es.length + ms.length < ds.length →
        Divided (num ds) (2 ^ ms.length * n + num ms.reverse) es' fs' ∧
          es'.length = es.length + ms.length ∧ fs'.length = ds.length := by
  induction ns generalizing qs rs es fs ms c with
  | nil =>
    cases hn
    refine .pure fun _ => ⟨es, fs, hq, hr, fun n h hl _ => ?_⟩
    simpa [num] using ⟨h, hl⟩
  | cons b ns ih =>
    cases hn with
    | @cons _ b' _ ms hb hn =>
      have hshift := Reads.cons hb (hr.take (ys.length - 1))
      refine (ult_spec hshift hy).bind fun less c₁ h₁ hless => ?_
      obtain ⟨p, hp, hlt⟩ := hless
      refine (sub_spec (hshift.mono h₁) (hy.mono h₁)).bind fun red c₂ h₂ hred => ?_
      obtain ⟨gs, hg, hsub⟩ := hred
      have e₂ := h₁.trans h₂
      refine (mux_spec (hp.mono h₂).not hg (hshift.mono e₂)).bind fun r c₃ h₃ hr' => ?_
      have e₃ := e₂.trans h₃
      refine (ih (hy.mono e₃) (.cons ((hp.mono h₂).not.mono h₃) (hq.mono e₃)) hr'
        (hn.mono e₃)).imp fun qr c₄ _ h => ?_
      obtain ⟨es', fs', he', hf', hdiv⟩ := h
      refine ⟨es', fs', he', hf', fun n hd hl hlen => ?_⟩
      rw [List.length_cons] at hlen
      rw [hy.length_eq] at hlt hsub hdiv
      -- the remainder has room for one more bit, so none is lost
      have room : num fs < 2 ^ (ds.length - 1) := calc
        num fs ≤ n := hd.remainder ▸ Nat.mod_le _ _
        _ < 2 ^ es.length := hd.small
        _ ≤ 2 ^ (ds.length - 1) := Nat.pow_le_pow_right (by decide) (by omega)
      have hlenS : (b' :: fs.take (ds.length - 1)).length = ds.length := by simp; omega
      have hnumS : num (b' :: fs.take (ds.length - 1)) = b'.toNat + 2 * num fs := by
        rw [num, num_take, Nat.mod_eq_of_lt room]
      obtain ⟨hlg, hng⟩ := hsub hlenS
      have hp := hlt hlenS
      rw [hnumS] at hp hng
      rw [hlenS] at hlg hng
      rw [zipWith_choose (hlg.trans hlenS.symm)] at hdiv
      have hstep : Divided (num ds) (b'.toNat + 2 * n) ((!p) :: es)
          (if !p then gs else b' :: fs.take (ds.length - 1)) := by
        rw [hp]
        refine hd.step b' ?_
        by_cases hsd : b'.toNat + 2 * num fs < num ds
        · simp [hsd, hnumS]
        · have hd' := num_lt ds
          have hs' := num_lt (b' :: fs.take (ds.length - 1))
          rw [hlenS, hnumS] at hs'
          simp only [hsd, decide_false, Bool.not_false, if_true, if_false]
          rw [hng, show 2 ^ ds.length - num ds + (b'.toNat + 2 * num fs) =
            2 ^ ds.length + (b'.toNat + 2 * num fs - num ds) by omega, Nat.add_mod_left,
            Nat.mod_eq_of_lt (by omega)]
      obtain ⟨hdiv, hle, hlf⟩ := hdiv _ hstep (by split <;> assumption) (by simp; omega)
      refine ⟨?_, by simp at hle ⊢; omega, hlf⟩
      rw [List.reverse_cons, num_append, List.length_reverse, List.length_cons, Nat.pow_succ]
      convert hdiv using 1
      simp [num]
      ring

theorem udivrem_spec (hx : Reads inputs c xs bs) (hy : Reads inputs c ys ds) :
    Spec (B.udivrem xs ys) c fun c' qr => ∃ es fs, Reads inputs c' qr.1 es ∧
      Reads inputs c' qr.2 fs ∧ ∀ {w : Nat} {x y : BitVec w}, bs = toBits x → ds = toBits y →
        es = toBits (x.smtUDiv y) ∧ fs = toBits (x % y) := by
  refine .of_valid fun hc => ?_
  refine (divideFrom_spec (resize_reads (.bottom hc) hy (xs.length + 1)) .nil
    (zeros_reads hc (xs.length + 1)) hx.reverse).bind fun qr c₁ h₁ h => ?_
  obtain ⟨es, fs, he, hf, hdiv⟩ := h
  refine .pure fun _ => ⟨es, _, he, hf.take xs.length, fun {w x y} hb hd => ?_⟩
  have hlen : xs.length = w := by rw [hx.length_eq, hb, length_toBits]
  subst hb hd hlen
  have hnum : num ((toBits y).take (xs.length + 1) ++
      List.replicate (xs.length + 1 - (toBits y).length) false) = y.toNat := by
    rw [List.take_of_length_le (by simp), num_append, num_replicate, num_toBits]
    simp
  rw [hnum] at hdiv
  have start : Divided y.toNat 0 [] (toBits 0#(xs.length + 1)) :=
    ⟨by simp [num], by simp [num_toBits], by decide⟩
  obtain ⟨hdiv, hle, hlf⟩ := hdiv 0 start (by simp) (by simp)
  rw [List.reverse_reverse, num_toBits, Nat.mul_zero, Nat.zero_add] at hdiv
  have hlq : es.length = xs.length := by simpa using hle
  constructor
  · refine eq_toBits hlq ?_
    rw [hdiv.quotient, hlq, BitVec.smtUDiv_eq]
    by_cases hy : y = 0#(xs.length)
    · simp [hy]
    · have hy' : y.toNat ≠ 0 := fun h => hy (BitVec.eq_of_toNat_eq (by simpa using h))
      rw [if_neg hy', if_neg hy, BitVec.toNat_udiv]
  · refine eq_toBits (by simp [hlf]) ?_
    rw [num_take, hdiv.remainder, BitVec.toNat_umod]
    exact Nat.mod_eq_of_lt (Nat.lt_of_le_of_lt (Nat.mod_le _ _) x.isLt)

theorem smtSDiv_eq_abs (x y : BitVec w) : x.smtSDiv y =
    let q := (if x.msb then -x else x).smtUDiv (if y.msb then -y else y)
    if x.msb ^^ y.msb then -q else q := by
  unfold BitVec.smtSDiv
  cases x.msb <;> cases y.msb <;> rfl

theorem srem_eq_abs (x y : BitVec w) : x.srem y =
    let r := (if x.msb then -x else x) % (if y.msb then -y else y)
    if x.msb then -r else r := by
  unfold BitVec.srem
  cases x.msb <;> cases y.msb <;> rfl

theorem sdivrem_spec (hx : Reads inputs c xs bs) (hy : Reads inputs c ys ds) :
    Spec (B.sdivrem xs ys) c fun c' qr => ∃ es fs, Reads inputs c' qr.1 es ∧
      Reads inputs c' qr.2 fs ∧ ∀ {w : Nat} {x y : BitVec w}, bs = toBits x → ds = toBits y →
        es = toBits (x.smtSDiv y) ∧ fs = toBits (x.srem y) := by
  refine .of_valid fun hc => ?_
  refine (abs_spec hx).bind fun ux c₁ h₁ hux => ?_
  obtain ⟨bs', hbs, hxa⟩ := hux
  refine (abs_spec (hy.mono h₁)).bind fun uy c₂ h₂ huy => ?_
  obtain ⟨ds', hds, hya⟩ := huy
  refine (udivrem_spec (hbs.mono h₂) hds).bind fun qr c₃ h₃ hqr => ?_
  obtain ⟨qs, rs, hq, hr, hdiv⟩ := hqr
  have e₃ := (h₁.trans h₂).trans h₃
  have hsx := (sign_holds hc hx).mono e₃
  refine (xor_spec hsx ((sign_holds hc hy).mono e₃)).bind fun s c₄ h₄ hs => ?_
  refine (neg_spec (hq.mono h₄)).bind fun nq c₅ h₅ hnq => ?_
  obtain ⟨nqs, hnqs, hnq⟩ := hnq
  refine (mux_spec (hs.mono h₅) hnqs (hq.mono (h₄.trans h₅))).bind fun q c₆ h₆ hq' => ?_
  have e₆ := (h₄.trans h₅).trans h₆
  refine (neg_spec (hr.mono e₆)).bind fun nr c₇ h₇ hnr => ?_
  obtain ⟨nrs, hnrs, hnr⟩ := hnr
  have e₇ := e₆.trans h₇
  refine (mux_spec (hsx.mono e₇) hnrs (hr.mono e₇)).bind fun r c₈ h₈ hr' => ?_
  refine .pure fun _ => ⟨_, _, hq'.mono (h₇.trans h₈), hr', ?_⟩
  rintro w x y rfl rfl
  obtain ⟨rfl, rfl⟩ := hdiv (hxa rfl) (hya rfl)
  rw [hnq rfl, hnr rfl, zipWith_choose (by simp), zipWith_choose (by simp), getLastD_toBits,
    getLastD_toBits, ← apply_ite toBits, ← apply_ite toBits, smtSDiv_eq_abs, srem_eq_abs]
  exact ⟨rfl, rfl⟩

end Concolic.Builder
