import Mathlib
import Concolic.Proofs.Value

namespace Concolic

theorem append_cons_inj {α : Type} {a : α} {l m x y : List α} (hl : a ∉ l) (hm : a ∉ m)
    (h : l ++ a :: x = m ++ a :: y) : l = m ∧ x = y := by
  induction l generalizing m with
  | nil =>
    cases m with
    | nil => exact ⟨rfl, (List.cons.inj h).2⟩
    | cons b m => exact absurd (List.cons.inj h).1 (List.ne_of_not_mem_cons hm)
  | cons b l ih =>
    cases m with
    | nil => exact absurd (List.cons.inj h).1.symm (List.ne_of_not_mem_cons hl)
    | cons c m =>
      obtain ⟨rfl, rest⟩ := List.cons.inj h
      obtain ⟨rfl, rfl⟩ := ih (List.not_mem_of_not_mem_cons hl) (List.not_mem_of_not_mem_cons hm) rest
      exact ⟨rfl, rfl⟩

namespace Text

theorem digits?_append (base acc : Nat) (cs ds : List Char) :
    digits? base acc (cs ++ ds) = (digits? base acc cs).bind fun n => digits? base n ds := by
  fun_induction digits? base acc cs with
  | case1 acc => rfl
  | case2 acc cs ih => simpa [digits?] using ih
  | case3 acc c cs hc d hd hlt ih => simpa [digits?, hc, hd, hlt] using ih
  | case4 acc c cs hc d hd hlt => simp [digits?, hc, hd, hlt]
  | case5 acc c cs hc hd => simp [digits?, hc, hd]

theorem digitValue?_digitChar : ∀ d < 10, digitValue? d.digitChar = some d := by decide

theorem isDecimal_digitChar : ∀ d < 10, isDecimal d.digitChar = true := by decide

theorem ne_underscore_of_isDecimal {c : Char} (h : isDecimal c = true) : c ≠ '_' := by
  rintro rfl
  cases h

theorem isDecimal_of_mem_toDigits {n : Nat} {c : Char} (h : c ∈ Nat.toDigits 10 n) :
    isDecimal c = true := by
  have hc := Nat.isDigit_of_mem_toDigits (by omega) (by omega) h
  simpa [Char.isDigit, isDecimal, Char.le_def] using hc

theorem digits?_digitChar (acc : Nat) {d : Nat} (h : d < 10) :
    digits? 10 acc [d.digitChar] = some (acc * 10 + d) := by
  have hc := ne_underscore_of_isDecimal (isDecimal_digitChar d h)
  simp [digits?, hc, digitValue?_digitChar d h, h]

theorem digits?_toDigits (n : Nat) : digits? 10 0 (Nat.toDigits 10 n) = some n := by
  induction n using Nat.strong_induction_on with
  | _ n ih =>
    rw [Nat.toDigits_eq_if (by omega)]
    split
    next h => simpa using digits?_digitChar 0 h
    next h =>
      rw [digits?_append, ih (n / 10) (by omega), Option.bind_some,
        digits?_digitChar _ (Nat.mod_lt n (by omega))]
      congr 1
      omega

theorem head?_toDigits {n : Nat} (h : 0 < n) : (Nat.toDigits 10 n).head? ≠ some '0' := by
  induction n using Nat.strong_induction_on with
  | _ n ih =>
    rw [Nat.toDigits_eq_if (by omega)]
    split
    next hn =>
      have : ∀ d < 10, 0 < d → d.digitChar ≠ '0' := by decide
      simpa using this n hn h
    next hn =>
      rw [List.head?_append_of_ne_nil _ (Nat.toDigits_ne_nil)]
      exact ih (n / 10) (by omega) (by omega)

theorem splitBase_of_head {cs : List Char} (h : cs.head? ≠ some '0') : splitBase cs = (10, cs) := by
  unfold splitBase
  split
  · simp at h
  · simp at h
  · rfl

theorem natural?_toDigits (n : Nat) : natural? (Nat.toDigits 10 n) = some n := by
  obtain rfl | h := Nat.eq_zero_or_pos n
  · decide
  · simp [natural?, splitBase_of_head (head?_toDigits h), digits?_toDigits]

theorem toDigits_ne_cons {n : Nat} {c : Char} (h : isDecimal c = false) (cs : List Char) :
    Nat.toDigits 10 n ≠ c :: cs := by
  intro hn
  have hc := isDecimal_of_mem_toDigits (hn ▸ List.mem_cons_self)
  exact Bool.false_ne_true (h ▸ hc)

theorem integer?_toDigits (n : Nat) : integer? (Nat.toDigits 10 n) = some (n : Int) := by
  unfold integer?
  split
  next h => exact absurd h (toDigits_ne_cons (by decide) _)
  next h => exact absurd h (toDigits_ne_cons (by decide) _)
  next => simp [natural?_toDigits]

theorem toList_toString_int (z : Int) :
    (toString z).toList = if z < 0 then '-' :: Nat.toDigits 10 z.natAbs
      else Nat.toDigits 10 z.natAbs := by
  cases z with
  | ofNat n => simp [toString, Int.repr]
  | negSucc n => simp [toString, Int.repr]

theorem integer?_toString (z : Int) : integer? (toString z).toList = some z := by
  rw [toList_toString_int]
  split
  next h =>
    have hz : (z.natAbs : Int) = -z := by omega
    simp [integer?, natural?_toDigits, hz]
  next h =>
    rw [integer?_toDigits]
    congr 1
    omega

theorem length_le_utf8Len (cs : List Char) : cs.length ≤ String.utf8Len cs := by
  induction cs with
  | nil => simp
  | cons c cs ih =>
    have := c.utf8Size_pos
    simp only [List.length_cons, String.utf8Len_cons]
    omega

theorem utf8Size_of_isDecimal {c : Char} (h : isDecimal c = true) : c.utf8Size = 1 := by
  simp only [isDecimal, Bool.and_eq_true, decide_eq_true_eq] at h
  have hc : c.val ≤ '9'.val := h.2
  exact Char.utf8Size_eq_one_iff.mpr (UInt32.le_trans hc (by decide))

theorem utf8Len_of_isDecimal {cs : List Char} (h : ∀ c ∈ cs, isDecimal c = true) :
    String.utf8Len cs = cs.length := by
  induction cs with
  | nil => rfl
  | cons c cs ih =>
    obtain ⟨hc, h⟩ := List.forall_mem_cons.mp h
    simp [ih h, utf8Size_of_isDecimal hc]

theorem toList_toString (n : Nat) : (toString n).toList = Nat.toDigits 10 n := by simp

theorem utf8ByteSize_toString (n : Nat) :
    (toString n).utf8ByteSize = (Nat.toDigits 10 n).length := by
  rw [← String.utf8Len_toList, toList_toString]
  exact utf8Len_of_isDecimal fun _ => isDecimal_of_mem_toDigits

theorem decimal?_toString {n : Nat} (h : n < 2 ^ 63) : decimal? (toString n) = some (n : Int) := by
  have hd : (Nat.toDigits 10 n).all isDecimal = true :=
    List.all_eq_true.mpr fun _ => isDecimal_of_mem_toDigits
  unfold decimal?
  rw [toList_toString]
  split
  next hs =>
    split at hs
    next h => exact absurd h (toDigits_ne_cons (by decide) _)
    next h => exact absurd h (toDigits_ne_cons (by decide) _)
    next =>
      cases hs
      simpa [Nat.toDigits_ne_nil, hd, digits?_toDigits, twoPow_eq] using h

theorem digits?_lt {acc k n : Nat} {cs : List Char} (ha : acc < 10 ^ k)
    (h : digits? 10 acc cs = some n) : n < 10 ^ (k + cs.length) := by
  induction cs generalizing acc k with
  | nil =>
    cases h
    exact ha
  | cons c cs ih =>
    unfold digits? at h
    split at h
    · exact (ih ha h).trans_le (Nat.pow_le_pow_right (by omega) (by simp))
    · split at h
      next d hd =>
        split at h
        next hlt =>
          have hb : acc * 10 + d < 10 ^ (k + 1) := by
            rw [pow_succ]
            omega
          simpa [Nat.add_assoc, Nat.add_comm 1] using ih hb h
        next => cases h
      next => cases h

theorem exists_digits_of_decimal? {s : String} {n : Nat} (h : decimal? s = some (n : Int)) :
    n < 2 ^ 63 ∧ ∃ ds ≠ [], ds <:+ s.toList ∧ digits? 10 0 ds = some n := by
  unfold decimal? at h
  split at h
  next negative ds hs =>
    have suffix : ds <:+ s.toList := by
      split at hs
      next h =>
        cases hs
        exact h ▸ List.suffix_cons _ _
      next h =>
        cases hs
        exact h ▸ List.suffix_cons _ _
      next =>
        cases hs
        exact List.suffix_rfl
    split at h
    · cases h
    next hne =>
      simp only [Bool.or_eq_true, List.isEmpty_iff, not_or] at hne
      obtain ⟨m, hm, hi⟩ := Option.bind_eq_some_iff.mp h
      obtain ⟨hr, hi⟩ := Option.ite_none_right_eq_some.mp hi
      obtain rfl : m = n := by
        have := Option.some.inj hi
        split at this <;> omega
      rw [Option.some.inj hi, twoPow_eq] at hr
      exact ⟨by exact_mod_cast hr.2, ds, hne.1, suffix, hm⟩

/-- The digits of a number are no longer than any decimal text of it. -/
theorem utf8ByteSize_le_of_decimal? {s : String} {n : Nat} (h : decimal? s = some (n : Int)) :
    (toString n).utf8ByteSize ≤ s.utf8ByteSize := by
  obtain ⟨-, ds, hne, hs, hd⟩ := exists_digits_of_decimal? h
  have hn : n < 10 ^ ds.length := by simpa using digits?_lt (k := 0) (by simp) hd
  have hl : (Nat.toDigits 10 n).length ≤ ds.length :=
    (Nat.length_toDigits_le_iff (by omega) (List.length_pos_iff.mpr hne)).mpr hn
  calc (toString n).utf8ByteSize = (Nat.toDigits 10 n).length := utf8ByteSize_toString n
    _ ≤ ds.length := hl
    _ ≤ String.utf8Len ds := length_le_utf8Len ds
    _ ≤ String.utf8Len s.toList := String.utf8Len_le_of_suffix hs
    _ = s.utf8ByteSize := String.utf8Len_toList s

theorem utf8ByteSize_toString_int_le {z : Int} {k : Nat} (hk : 0 < k) (h : z.natAbs < 10 ^ k) :
    (toString z).utf8ByteSize ≤ k + 1 := by
  have hl : (Nat.toDigits 10 z.natAbs).length ≤ k :=
    (Nat.length_toDigits_le_iff (by omega) hk).mpr h
  have hd : String.utf8Len (Nat.toDigits 10 z.natAbs) = (Nat.toDigits 10 z.natAbs).length :=
    utf8Len_of_isDecimal fun _ => isDecimal_of_mem_toDigits
  rw [← String.utf8Len_toList, toList_toString_int]
  split
  · have hm : '-'.utf8Size = 1 := rfl
    rw [String.utf8Len_cons, hd, hm]
    omega
  · omega

end Text

section Signed

variable {w n : Nat}

theorem signed_range (h0 : 0 < w) (h : w ≤ 64) :
    -(twoPow (w - 1) : Int) ≤ signed w n ∧ signed w n < twoPow (w - 1) := by
  obtain ⟨k, rfl⟩ := Nat.exists_eq_add_of_lt h0
  rw [signed, if_neg (by omega)]
  have hm := Nat.mod_lt n (twoPow_pos (0 + k + 1))
  have hp : twoPow (0 + k + 1) = twoPow (0 + k + 1 - 1) * 2 := twoPow_succ _
  dsimp only
  split
  · omega
  · omega

theorem wrapInt_signed (h0 : 0 < w) (h : w ≤ 64) (hn : n < 2 ^ w) :
    wrapInt w (signed w n) = n := by
  rw [signed, if_neg (by omega), wrapInt, patterns_eq h, twoPow_eq, Nat.mod_eq_of_lt hn]
  dsimp only
  have hm : ((n : Int) % (2 ^ w : Nat)).toNat = n := by
    rw [Int.emod_eq_of_lt (by omega) (by exact_mod_cast hn)]
    simp
  split
  · exact hm
  · rwa [Int.sub_emod_right]

theorem natAbs_signed_lt (w n : Nat) : (signed w n).natAbs < 2 ^ 64 := by
  by_cases hw : w = 0 ∨ 64 < w
  · simp [signed, hw]
  · have hr := signed_range (w := w) (n := n) (by omega) (by omega)
    have hp : twoPow (w - 1) ≤ 2 ^ 63 := Nat.pow_le_pow_right (by omega) (by omega)
    omega

end Signed

namespace Value

theorem readSigned?_signed {w n : Nat} (h0 : 0 < w) (h : w ≤ 64) (hn : n < 2 ^ w) :
    readSigned? w (toString (signed w n)) = some n := by
  rw [readSigned?, Text.integer?_toString, Option.bind_some, if_pos (signed_range h0 h),
    wrapInt_signed h0 h hn]

theorem readUnsigned?_toString {w n : Nat} (hn : n < 2 ^ w) :
    readUnsigned? w (toString n) = some n := by
  rw [readUnsigned?, Text.toList_toString, Text.natural?_toDigits, Option.bind_some, twoPow_eq,
    if_pos hn]

theorem readBits?_format {v : Value} {w : Nat} (hf : v.kind.isFloat = false)
    (hw : v.kind.width? = some w) (hv : v.bits < 2 ^ w) :
    readBits? v.kind v.format = some v.bits := by
  obtain ⟨kind, bits, expr⟩ := v
  cases kind with
  | bool =>
    cases hw
    have hb : bits < 2 := hv
    interval_cases bits <;> rfl
  | char =>
    cases hw
    exact readUnsigned?_toString hv
  | byte | short | int | long =>
    cases hw
    exact readSigned?_signed (by decide) (by decide) hv
  | float | double => cases hf
  | unknown => cases hw

theorem read_format {v : Value} {w : Nat} (hf : v.kind.isFloat = false)
    (hw : v.kind.width? = some w) (hv : v.bits < 2 ^ w) :
    Value.read v.kind v.format = .ok v.concrete := by
  have hb := readBits?_format hf hw hv
  unfold read
  split
  next hk =>
    rw [hk] at hw
    cases hw
  next hn _ =>
    obtain rfl := Option.some.inj (hb.symm.trans hn)
    rfl
  next hn _ => cases hb.symm.trans hn

theorem format_cases {v : Value} (hp : v.IsPlain) :
    v.format ∈ ["true", "false"] ∨ ∃ z : Int, z.natAbs < 2 ^ 64 ∧ v.format = toString z := by
  obtain ⟨⟨w, hf, hw, hb, -⟩, -⟩ := hp
  unfold format
  split
  next => split <;> simp
  next hk =>
    rw [hk] at hw
    cases hw
    refine .inr ⟨v.bits, ?_, rfl⟩
    rw [Int.natAbs_natCast]
    omega
  next hk =>
    rw [hk] at hf
    cases hf
  next hk =>
    rw [hk] at hf
    cases hf
  next => exact .inr ⟨_, natAbs_signed_lt 8 _, rfl⟩
  next => exact .inr ⟨_, natAbs_signed_lt 16 _, rfl⟩
  next => exact .inr ⟨_, natAbs_signed_lt 32 _, rfl⟩
  next => exact .inr ⟨_, natAbs_signed_lt 64 _, rfl⟩
  next hk =>
    rw [hk] at hw
    cases hw

end Value

end Concolic
