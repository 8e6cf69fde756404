import Mathlib
import Concolic.Proofs.ValueText

/-!
Which texts denote which values. The grammar of integer literals stands beside the reader: digits
with single underscores between them, after a mark that gives the base. Main statement: for every
kind but the floating-point ones, reading accepts just the texts of the values in its range, gives
the value that the text denotes, and takes back every value from its own text.
-/

namespace Concolic

namespace Text

def IsDigit (base : Nat) (c : Char) (d : Nat) : Prop :=
  d < base ∧ (c = d.digitChar ∨ c = d.digitChar.toUpper)

instance (base : Nat) (c : Char) (d : Nat) : Decidable (IsDigit base c d) :=
  inferInstanceAs (Decidable (_ ∧ _))

/-- Digits of a base, the first one first. An underscore may stand between two of them. -/
inductive Digits (base : Nat) : List Char → List Nat → Prop
  | one {c : Char} {d : Nat} : IsDigit base c d → Digits base [c] [d]
  | next {c : Char} {d : Nat} {cs : List Char} {ds : List Nat} :
    IsDigit base c d → Digits base cs ds → Digits base (c :: cs) (d :: ds)
  | apart {c : Char} {d : Nat} {cs : List Char} {ds : List Nat} :
    IsDigit base c d → Digits base cs ds → Digits base (c :: '_' :: cs) (d :: ds)

def Spaced (base : Nat) (cs : List Char) (ds : List Nat) : Prop :=
  Digits base cs ds ∨ ∃ rest, cs = '_' :: rest ∧ Digits base rest ds

def numeral (base : Nat) (ds : List Nat) : Nat := Nat.ofDigits base ds.reverse

def letters : List (Char × Nat) :=
  [('o', 8), ('O', 8), ('x', 16), ('X', 16), ('b', 2), ('B', 2)]

def marks : List (List Char × Nat) := (['0'], 8) :: letters.map fun l => (['0', l.1], l.2)

/-- A number without sign. A decimal one does not begin with a zero. -/
inductive Natural : List Char → Nat → Prop
  | zero : Natural ['0'] 0
  | decimal {cs : List Char} {ds : List Nat} :
    Digits 10 cs ds → ds.head? ≠ some 0 → Natural cs (numeral 10 ds)
  | marked {mark cs : List Char} {base : Nat} {ds : List Nat} :
    (mark, base) ∈ marks → Spaced base cs ds → Natural (mark ++ cs) (numeral base ds)

inductive Integer : List Char → Int → Prop
  | plain {cs : List Char} {n : Nat} : Natural cs n → Integer cs n
  | plus {cs : List Char} {n : Nat} : Natural cs n → Integer ('+' :: cs) n
  | minus {cs : List Char} {n : Nat} : Natural cs n → Integer ('-' :: cs) (-n)

section Digit

variable {base d : Nat} {c : Char}

theorem toNat_lt_of_digitValue? (h : digitValue? c = some d) : c.toNat < 128 := by
  have le {a : Char} (h : c ≤ a) : c.toNat ≤ a.toNat := h
  unfold digitValue? at h
  split at h
  next hc => exact (le hc.2).trans_lt (by decide)
  next =>
    split at h
    next hc => exact (le hc.2).trans_lt (by decide)
    next =>
      split at h
      next hc => exact (le hc.2).trans_lt (by decide)
      next => cases h

theorem digitValue?_ascii : ∀ n < 128, ∀ d < 16, digitValue? (Char.ofNat n) = some d →
    Char.ofNat n = d.digitChar ∨ Char.ofNat n = d.digitChar.toUpper := by
  decide +kernel

theorem isDigit_iff (hb : base ≤ 16) : IsDigit base c d ↔ digitValue? c = some d ∧ d < base := by
  constructor
  · rintro ⟨hd, hc⟩
    have digits : ∀ d < 16, digitValue? d.digitChar = some d ∧
        digitValue? d.digitChar.toUpper = some d := by decide
    obtain ⟨lower, upper⟩ := digits d (by omega)
    rcases hc with rfl | rfl
    · exact ⟨lower, hd⟩
    · exact ⟨upper, hd⟩
  · rintro ⟨h, hd⟩
    have letters := digitValue?_ascii c.toNat (toNat_lt_of_digitValue? h) d (by omega)
    rw [Char.ofNat_toNat] at letters
    exact ⟨hd, letters h⟩

theorem IsDigit.ne_underscore (h : IsDigit base c d) (hb : base ≤ 16) : c ≠ '_' := by
  rintro rfl
  cases ((isDigit_iff hb).mp h).1

theorem IsDigit.isDecimal (h : IsDigit base c d) (hb : base ≤ 10) : isDecimal c = true := by
  have decimals : ∀ d < 10, Text.isDecimal d.digitChar = true ∧
      Text.isDecimal d.digitChar.toUpper = true := by decide
  obtain ⟨lower, upper⟩ := decimals d (by have := h.1; omega)
  rcases h.2 with rfl | rfl
  · exact lower
  · exact upper

theorem IsDigit.isHex (h : IsDigit base c d) (hb : base ≤ 16) : isHex c = true := by
  rw [Text.isHex, ((isDigit_iff hb).mp h).1, Option.any_some, decide_eq_true_eq]
  have := h.1
  omega

end Digit

def Admits (hex : Bool) (base : Nat) : Prop := if hex then base ≤ 16 else base ≤ 10

instance (hex : Bool) (base : Nat) : Decidable (Admits hex base) :=
  inferInstanceAs (Decidable (if hex then _ else _))

section Reading

variable {base : Nat} {hex : Bool} {cs : List Char} {ds : List Nat}

theorem Admits.le (h : Admits hex base) : base ≤ 16 := by
  cases hex with
  | true => exact h
  | false => exact Nat.le_trans h (by decide)

theorem separated_digit {c : Char} {d : Nat} (ha : Admits hex base) (h : IsDigit base c d)
    (last : Before) (cs : List Char) :
    separated hex last (c :: cs) = separated hex .digit cs := by
  have hc : (isDecimal c || (hex && isHex c)) = true := by
    cases hex with
    | true => simp [h.isHex ha]
    | false => simp [h.isDecimal ha]
  rw [separated, if_pos hc]

theorem digits?_digit {c : Char} {d : Nat} (hb : base ≤ 16) (h : IsDigit base c d) (acc : Nat)
    (cs : List Char) : digits? base acc (c :: cs) = digits? base (acc * base + d) cs := by
  obtain ⟨hv, hd⟩ := (isDigit_iff hb).mp h
  rw [digits?, if_neg (h.ne_underscore hb), hv]
  exact if_pos hd

theorem exists_isDigit {c : Char} {acc n : Nat} (hb : base ≤ 16) (hc : c ≠ '_')
    (h : digits? base acc (c :: cs) = some n) : ∃ d, IsDigit base c d := by
  rw [digits?, if_neg hc] at h
  split at h
  next d hv =>
    split at h
    next hd => exact ⟨d, (isDigit_iff hb).mpr ⟨hv, hd⟩⟩
    next => cases h
  next => cases h

theorem separated_underscore (hex : Bool) (last : Before) (cs : List Char) :
    separated hex last ('_' :: cs) = (last == .digit && separated hex .underscore cs) := by
  have hc : (isDecimal '_' || (hex && isHex '_')) = false := by cases hex <;> rfl
  rw [separated, hc]
  rfl

theorem Digits.exists_cons {c : Char} (h : Digits base (c :: cs) ds) :
    ∃ d rest, ds = d :: rest ∧ IsDigit base c d := by
  cases h with
  | one hd | next hd _ | apart hd _ => exact ⟨_, _, rfl, hd⟩

theorem Digits.ne_nil (h : Digits base cs ds) : cs ≠ [] := by
  cases h <;> exact List.cons_ne_nil _ _

theorem Digits.read (h : Digits base cs ds) (ha : Admits hex base) (acc : Nat) (last : Before) :
    digits? base acc cs = some (ds.foldl (fun n d => n * base + d) acc) ∧
      separated hex last cs = true := by
  induction h generalizing acc last with
  | one hd =>
    rw [digits?_digit ha.le hd, separated_digit ha hd]
    exact ⟨rfl, rfl⟩
  | next hd _ ih =>
    rw [digits?_digit ha.le hd, separated_digit ha hd]
    exact ih _ _
  | apart hd _ ih =>
    rw [digits?_digit ha.le hd, separated_digit ha hd, separated_underscore]
    exact ih _ .underscore

theorem Spaced.read (h : Spaced base cs ds) (ha : Admits hex base) (acc : Nat) :
    digits? base acc cs = some (ds.foldl (fun n d => n * base + d) acc) ∧
      separated hex .digit cs = true := by
  rcases h with h | ⟨rest, rfl, h⟩
  · exact h.read ha acc .digit
  · rw [digits?, if_pos rfl, separated_underscore]
    exact h.read ha acc .underscore

theorem Spaced.ne_nil (h : Spaced base cs ds) : cs ≠ [] := by
  rcases h with h | ⟨rest, rfl, -⟩
  · exact h.ne_nil
  · exact List.cons_ne_nil _ _

theorem exists_digits (ha : Admits hex base) {acc n : Nat} (h : digits? base acc cs = some n) :
    (separated hex .underscore cs = true →
      ∃ ds, Digits base cs ds ∧ n = ds.foldl (fun n d => n * base + d) acc) ∧
    (separated hex .digit cs = true → cs ≠ [] →
      ∃ ds, Spaced base cs ds ∧ n = ds.foldl (fun n d => n * base + d) acc) := by
  -- An underscore is read together with the digit after it, so both cases go together.
  induction cs generalizing acc with
  | nil =>
    refine ⟨fun hs => ?_, fun _ hne => absurd rfl hne⟩
    cases hs
  | cons c cs ih =>
    by_cases hc : c = '_'
    · subst hc
      rw [digits?, if_pos rfl] at h
      simp only [separated_underscore]
      refine ⟨fun hs => ?_, fun hs _ => ?_⟩
      · cases hs
      · obtain ⟨ds, hd, hn⟩ := (ih h).1 hs
        exact ⟨ds, .inr ⟨cs, rfl, hd⟩, hn⟩
    · obtain ⟨d, hd⟩ := exists_isDigit ha.le hc h
      rw [digits?_digit ha.le hd] at h
      have key (hs : separated hex .digit cs = true) :
          ∃ ds, Digits base (c :: cs) ds ∧ n = ds.foldl (fun n d => n * base + d) acc := by
        by_cases hne : cs = []
        · subst hne
          exact ⟨[d], .one hd, (Option.some.inj h).symm⟩
        · obtain ⟨ds, hds | ⟨rest, rfl, hds⟩, hn⟩ := (ih h).2 hs hne
          · exact ⟨d :: ds, .next hd hds, hn⟩
          · exact ⟨d :: ds, .apart hd hds, hn⟩
      simp only [separated_digit ha hd]
      refine ⟨key, fun hs _ => ?_⟩
      obtain ⟨ds, hds, hn⟩ := key hs
      exact ⟨ds, .inl hds, hn⟩

theorem foldl_eq_numeral (base : Nat) (ds : List Nat) :
    ds.foldl (fun n d => n * base + d) 0 = numeral base ds := by
  rw [numeral, Nat.ofDigits_eq_foldr, List.foldr_reverse]
  congr
  funext n d
  rw [Nat.cast_id, Nat.add_comm, Nat.mul_comm]

end Reading

section Mark

variable {base : Nat} {b c : Char} {cs rest : List Char}

def pairs : List (Char × Char) := [('x', 'X'), ('o', 'O'), ('b', 'B')]

theorem toLower_ne {lower upper : Char} (hp : (lower, upper) ∈ pairs) (hl : b ≠ lower)
    (hu : b ≠ upper) : b.toLower ≠ lower := by
  have shift : ∀ p ∈ pairs, p.1.val - 32 = p.2.val := by decide
  intro h
  by_cases hb : b.val ≥ 'A'.val ∧ b.val ≤ 'Z'.val
  · rw [Char.toLower, dif_pos hb] at h
    have hv : b.val + 32 = lower.val := congrArg Char.val h
    refine hu (Char.ext ?_)
    rw [← shift _ hp, ← hv, UInt32.add_sub_cancel]
  · rw [Char.toLower, dif_neg hb] at h
    exact hl h

theorem split_letter (h : (b, base) ∈ letters) (hr : rest ≠ []) :
    splitBase ('0' :: b :: rest) = (base, rest) ∧
      underscoresOk ('0' :: b :: rest) = separated (base == 16) .digit rest := by
  obtain ⟨c, cs, rfl⟩ := List.exists_cons_of_ne_nil hr
  simp only [letters, List.mem_cons, Prod.mk.injEq, List.not_mem_nil, or_false] at h
  rcases h with ⟨rfl, rfl⟩ | ⟨rfl, rfl⟩ | ⟨rfl, rfl⟩ | ⟨rfl, rfl⟩ | ⟨rfl, rfl⟩ | ⟨rfl, rfl⟩ <;>
    exact ⟨rfl, rfl⟩

theorem split_zero (rest : List Char) (h : ∀ base, (b, base) ∉ letters) :
    splitBase ('0' :: b :: rest) = (8, b :: rest) ∧
      underscoresOk ('0' :: b :: rest) = separated false .digit (b :: rest) := by
  simp only [letters, List.mem_cons, Prod.mk.injEq, List.not_mem_nil, or_false, not_or,
    not_and] at h
  obtain ⟨px, po, pb⟩ : ('x', 'X') ∈ pairs ∧ ('o', 'O') ∈ pairs ∧ ('b', 'B') ∈ pairs := by decide
  have hx : b.toLower ≠ 'x' :=
    toLower_ne px (fun e => (h 16).2.2.1 e rfl) fun e => (h 16).2.2.2.1 e rfl
  have ho : b.toLower ≠ 'o' := toLower_ne po (fun e => (h 8).1 e rfl) fun e => (h 8).2.1 e rfl
  have hb : b.toLower ≠ 'b' :=
    toLower_ne pb (fun e => (h 2).2.2.2.2.1 e rfl) fun e => (h 2).2.2.2.2.2 e rfl
  constructor
  · cases rest with
    | nil => rfl
    | cons c cs => simp [splitBase, hx, ho, hb]
  · change (if b.toLower = 'x' then _ else if b.toLower = 'b' ∨ b.toLower = 'o' then _
      else separated false .start ('0' :: b :: rest)) = _
    rw [if_neg hx, if_neg (not_or.mpr ⟨hb, ho⟩)]
    exact separated_digit (show Admits false 10 by decide) (show IsDigit 10 '0' 0 by decide) _ _

end Mark

section Number

variable {cs : List Char} {n : Nat}

theorem separated_of_notMem {hex : Bool} {last : Before} (h : '_' ∉ cs) (hl : last ≠ .underscore) :
    separated hex last cs = true := by
  induction cs generalizing last with
  | nil => simpa [separated] using hl
  | cons c cs ih =>
    obtain ⟨hc, h⟩ := List.ne_and_not_mem_of_not_mem_cons h
    unfold separated
    split
    · exact ih h (by decide)
    · rw [if_neg hc.symm, ih h (by decide)]
      simpa using hl

theorem natural?_eq_some_iff : natural? cs = some n ↔ cs ≠ [] ∧
    digits? (splitBase cs).1 0 (splitBase cs).2 = some n ∧
      ('_' ∈ cs → underscoresOk cs = true) := by
  unfold natural?
  by_cases he : cs = []
  · simp [he]
  · rw [if_neg (by simpa using he)]
    dsimp only
    cases hd : digits? (splitBase cs).1 0 (splitBase cs).2 with
    | none => simp
    | some m => by_cases hu : '_' ∈ cs <;> cases ho : underscoresOk cs <;> simp [he, hu]

theorem Natural.of_mark {mark rest : List Char} {base : Nat} {hex : Bool}
    (hm : (mark, base) ∈ marks) (ha : Admits hex base) (hr : rest ≠ [])
    (hd : digits? base 0 rest = some n) (ho : '_' ∈ rest → separated hex .digit rest = true) :
    Natural (mark ++ rest) n := by
  have hs : separated hex .digit rest = true := by
    by_cases hu : '_' ∈ rest
    · exact ho hu
    · exact separated_of_notMem hu (by decide)
  obtain ⟨ds, hds, rfl⟩ := (exists_digits ha hd).2 hs hr
  rw [foldl_eq_numeral]
  exact .marked hm hds

theorem underscoresOk_of_head {c : Char} (h0 : c ≠ '0') (hm : c ≠ '-') (hp : c ≠ '+') :
    underscoresOk (c :: cs) = separated false .start (c :: cs) := by
  unfold underscoresOk
  split
  next h => exact absurd (List.cons.inj h).1 hm
  next h => exact absurd (List.cons.inj h).1 hp
  next =>
    dsimp only
    split
    next h => exact absurd (List.cons.inj h).1 h0
    next => rfl

theorem Natural.of_decimal {c : Char} (h0 : c ≠ '0') (hd : digits? 10 0 (c :: cs) = some n)
    (ho : '_' ∈ c :: cs → underscoresOk (c :: cs) = true) : Natural (c :: cs) n := by
  have hm : c ≠ '-' := by
    rintro rfl
    cases hd
  have hp : c ≠ '+' := by
    rintro rfl
    cases hd
  rw [underscoresOk_of_head h0 hm hp] at ho
  have hu : c ≠ '_' := by
    rintro rfl
    rw [separated_underscore] at ho
    cases ho List.mem_cons_self
  obtain ⟨d, hc⟩ := exists_isDigit (by decide) hu hd
  have hs : separated false .underscore (c :: cs) = true := by
    rw [separated_digit (by decide) hc] at ho ⊢
    by_cases hu : '_' ∈ cs
    · exact ho (List.mem_cons_of_mem c hu)
    · exact separated_of_notMem hu (by decide)
  obtain ⟨ds, hds, rfl⟩ := (exists_digits (by decide) hd).1 hs
  rw [foldl_eq_numeral]
  refine .decimal hds fun hz => h0 ?_
  obtain ⟨d, ds, rfl, hc⟩ := hds.exists_cons
  cases hz
  rcases hc.2 with rfl | rfl <;> rfl

theorem admits_of_mem_letters : ∀ l ∈ letters, Admits (l.2 == 16) l.2 := by decide

theorem Natural.of_read (hne : cs ≠ []) (hd : digits? (splitBase cs).1 0 (splitBase cs).2 = some n)
    (ho : '_' ∈ cs → underscoresOk cs = true) : Natural cs n := by
  obtain ⟨c, cs, rfl⟩ := List.exists_cons_of_ne_nil hne
  by_cases h0 : c = '0'
  · subst h0
    cases cs with
    | nil =>
      obtain rfl : 0 = n := Option.some.inj hd
      exact .zero
    | cons b rest =>
      by_cases hb : ∃ base, (b, base) ∈ letters
      · obtain ⟨base, hb⟩ := hb
        by_cases hr : rest = []
        · -- A letter that nothing follows is itself read as a digit of base eight.
          have octal : ∀ l ∈ letters, digits? 8 0 [l.1] = none := by decide
          subst hr
          cases (octal _ hb).symm.trans hd
        · obtain ⟨split, separate⟩ := split_letter hb hr
          rw [split] at hd
          rw [separate] at ho
          have hm : (['0', b], base) ∈ marks := List.mem_cons_of_mem _ (List.mem_map_of_mem hb)
          exact Natural.of_mark hm (admits_of_mem_letters _ hb) hr hd fun hu =>
            ho (List.mem_cons_of_mem _ (List.mem_cons_of_mem _ hu))
      · obtain ⟨split, separate⟩ := split_zero rest (not_exists.mp hb)
        rw [split] at hd
        rw [separate] at ho
        have hm : (['0'], 8) ∈ marks := List.mem_cons_self
        exact Natural.of_mark hm (show Admits false 8 by decide) (List.cons_ne_nil _ _) hd fun hu =>
          ho (List.mem_cons_of_mem _ hu)
  · rw [splitBase_of_head (by simpa using h0)] at hd
    exact Natural.of_decimal h0 hd ho

theorem mem_marks {mark : List Char} {base : Nat} (h : (mark, base) ∈ marks) :
    (mark = ['0'] ∧ base = 8) ∨ ∃ b, (b, base) ∈ letters ∧ mark = ['0', b] := by
  rcases List.mem_cons.mp h with h | h
  · exact .inl (Prod.mk.inj h)
  · obtain ⟨l, hl, he⟩ := List.mem_map.mp h
    cases he
    exact .inr ⟨l.1, hl, rfl⟩

theorem Spaced.notMem_letters {c : Char} {ds : List Nat} (h : Spaced 8 (c :: cs) ds) (base : Nat) :
    (c, base) ∉ letters := by
  intro hc
  rcases h with h | ⟨rest, hr, -⟩
  · obtain ⟨d, -, -, hd⟩ := h.exists_cons
    have octal : ∀ l ∈ letters, ∀ d < 8, digitValue? l.1 ≠ some d := by decide
    obtain ⟨hv, hlt⟩ := (isDigit_iff (by decide)).mp hd
    exact octal _ hc d hlt hv
  · have underscore : ∀ l ∈ letters, l.1 ≠ '_' := by decide
    exact underscore _ hc (List.cons.inj hr).1

theorem natural?_of_mark {mark : List Char} {base : Nat} {ds : List Nat}
    (hm : (mark, base) ∈ marks) (h : Spaced base cs ds) :
    natural? (mark ++ cs) = some (numeral base ds) := by
  rw [natural?_eq_some_iff]
  rcases mem_marks hm with ⟨rfl, rfl⟩ | ⟨b, hb, rfl⟩
  · obtain ⟨c, cs, rfl⟩ := List.exists_cons_of_ne_nil h.ne_nil
    obtain ⟨split, separate⟩ := split_zero cs h.notMem_letters
    obtain ⟨hd, hs⟩ := h.read (show Admits false 8 by decide) 0
    refine ⟨List.cons_ne_nil _ _, ?_, fun _ => separate.trans hs⟩
    rw [List.singleton_append, split, hd, foldl_eq_numeral]
  · obtain ⟨split, separate⟩ := split_letter hb h.ne_nil
    obtain ⟨hd, hs⟩ := h.read (admits_of_mem_letters _ hb) 0
    refine ⟨List.cons_ne_nil _ _, ?_, fun _ => separate.trans hs⟩
    rw [List.cons_append, List.singleton_append, split, hd, foldl_eq_numeral]

theorem natural?_of_decimal {ds : List Nat} (h : Digits 10 cs ds) (h0 : ds.head? ≠ some 0) :
    natural? cs = some (numeral 10 ds) := by
  rw [natural?_eq_some_iff]
  obtain ⟨hd, hs⟩ := h.read (show Admits false 10 by decide) 0 .start
  obtain ⟨c, cs, rfl⟩ := List.exists_cons_of_ne_nil h.ne_nil
  obtain ⟨d, ds, rfl, hc⟩ := h.exists_cons
  have decimal := hc.isDecimal (by decide)
  have hz : c ≠ '0' := by
    rintro rfl
    obtain ⟨hv, -⟩ := (isDigit_iff (by decide)).mp hc
    cases hv
    exact h0 rfl
  have unsigned {sign : Char} (hs : isDecimal sign = false) : c ≠ sign := by
    rintro rfl
    cases hs.symm.trans decimal
  refine ⟨h.ne_nil, ?_, fun _ => ?_⟩
  · rw [splitBase_of_head (by simpa using hz), hd, foldl_eq_numeral]
  · rw [underscoresOk_of_head hz (unsigned (by decide)) (unsigned (by decide)), hs]

theorem natural?_iff : natural? cs = some n ↔ Natural cs n := by
  constructor
  · intro h
    obtain ⟨hne, hd, ho⟩ := natural?_eq_some_iff.mp h
    exact .of_read hne hd ho
  · rintro (_ | ⟨h, h0⟩ | ⟨hm, h⟩)
    · rfl
    · exact natural?_of_decimal h h0
    · exact natural?_of_mark hm h

theorem natural?_of_sign {sign : Char} (h : sign ∈ ['+', '-']) : natural? (sign :: cs) = none := by
  simp only [List.mem_cons, List.not_mem_nil, or_false] at h
  rcases h with rfl | rfl <;> rfl

theorem map_cast_eq_some_iff {o : Option Nat} {f : Int → Int} {z : Int} :
    (do return ((← o : Nat) : Int)).map f = some z ↔ ∃ n : Nat, o = some n ∧ f n = z := by
  cases o <;> simp

theorem integer?_iff {z : Int} : integer? cs = some z ↔ Integer cs z := by
  constructor
  · intro h
    unfold integer? at h
    split at h
    next =>
      obtain ⟨n, hn, rfl⟩ := map_cast_eq_some_iff.mp h
      exact .minus (natural?_iff.mp hn)
    next =>
      obtain ⟨n, hn, rfl⟩ := map_cast_eq_some_iff.mp h
      exact .plus (natural?_iff.mp hn)
    next =>
      obtain ⟨n, hn, rfl⟩ := map_cast_eq_some_iff.mp h
      exact .plain (natural?_iff.mp hn)
  · rintro (h | h | h)
    · have hn := natural?_iff.mpr h
      unfold integer?
      split
      next => cases (natural?_of_sign (by decide)).symm.trans hn
      next => cases (natural?_of_sign (by decide)).symm.trans hn
      next => exact map_cast_eq_some_iff.mpr ⟨_, hn, rfl⟩
    · exact map_cast_eq_some_iff.mpr ⟨_, natural?_iff.mpr h, rfl⟩
    · exact map_cast_eq_some_iff.mpr ⟨_, natural?_iff.mpr h, rfl⟩

end Number

theorem Natural.functional {cs : List Char} {m n : Nat} (hm : Natural cs m) (hn : Natural cs n) :
    m = n :=
  Option.some.inj ((natural?_iff.mpr hm).symm.trans (natural?_iff.mpr hn))

theorem Integer.functional {cs : List Char} {y z : Int} (hy : Integer cs y) (hz : Integer cs z) :
    y = z :=
  Option.some.inj ((integer?_iff.mpr hy).symm.trans (integer?_iff.mpr hz))

end Text

theorem signed_wrapInt {w : Nat} {z : Int} (h0 : 0 < w) (h : w ≤ 64)
    (hl : -(twoPow (w - 1) : Int) ≤ z) (hu : z < twoPow (w - 1)) : signed w (wrapInt w z) = z := by
  obtain ⟨k, rfl⟩ := Nat.exists_eq_add_of_lt h0
  have double : twoPow (0 + k + 1) = twoPow (0 + k + 1 - 1) * 2 := twoPow_succ _
  have hm : z % (twoPow (0 + k + 1) : Int) = if z < 0 then z + twoPow (0 + k + 1) else z := by
    split
    · rw [← Int.add_emod_right, Int.emod_eq_of_lt (by omega) (by omega)]
    · exact Int.emod_eq_of_lt (by omega) (by omega)
  rw [signed, if_neg (by omega), wrapInt, patterns_of_le h, hm]
  dsimp only
  split
  · rw [Nat.mod_eq_of_lt (by omega), if_neg (by omega)]
    omega
  · rw [Nat.mod_eq_of_lt (by omega), if_pos (by omega)]
    omega

namespace Kind

def Spans (k : Kind) (z : Int) : Prop :=
  ∃ w, k.width? = some w ∧
    if k.isSigned then -2 ^ (w - 1) ≤ z ∧ z < 2 ^ (w - 1) else 0 ≤ z ∧ z < 2 ^ w

def Denotes : Kind → String → Int → Prop
  | bool, s, z =>
    (s ∈ ["1", "t", "T", "TRUE", "true", "True"] ∧ z = 1) ∨
      (s ∈ ["0", "f", "F", "FALSE", "false", "False"] ∧ z = 0)
  | char, s, z => ∃ n : Nat, Text.Natural s.toList n ∧ z = n
  | byte, s, z | short, s, z | int, s, z | long, s, z => Text.Integer s.toList z
  | float, _, _ | double, _, _ | unknown _ _, _, _ => False

end Kind

namespace Value

variable {w n : Nat} {s : String}

theorem readSigned?_iff (h0 : 0 < w) (h : w ≤ 64) :
    readSigned? w s = some n ↔ n < 2 ^ w ∧ Text.Integer s.toList (signed w n) := by
  rw [readSigned?, Option.bind_eq_some_iff]
  constructor
  · rintro ⟨z, hz, hn⟩
    obtain ⟨⟨hl, hu⟩, hn⟩ := Option.ite_none_right_eq_some.mp hn
    obtain rfl := Option.some.inj hn
    rw [signed_wrapInt h0 h hl hu]
    exact ⟨wrapInt_lt h z, Text.integer?_iff.mp hz⟩
  · rintro ⟨hn, hz⟩
    refine ⟨_, Text.integer?_iff.mpr hz, ?_⟩
    rw [if_pos (signed_range h0 h), wrapInt_signed h0 h hn]

theorem readUnsigned?_iff :
    readUnsigned? w s = some n ↔ n < 2 ^ w ∧ Text.Natural s.toList n := by
  rw [readUnsigned?, Option.bind_eq_some_iff, twoPow_eq]
  constructor
  · rintro ⟨m, hm, hn⟩
    obtain ⟨hlt, hn⟩ := Option.ite_none_right_eq_some.mp hn
    cases hn
    exact ⟨hlt, Text.natural?_iff.mp hm⟩
  · rintro ⟨hlt, hn⟩
    exact ⟨n, Text.natural?_iff.mpr hn, if_pos hlt⟩

theorem notMem_of_mem_truths : ∀ s ∈ ["1", "t", "T", "TRUE", "true", "True"],
    s ∉ ["0", "f", "F", "FALSE", "false", "False"] := by
  decide

theorem readBool?_iff :
    (readBool? s).map (fun b => if b then 1 else 0) = some n ↔ n < 2 ∧ Kind.bool.Denotes s n := by
  unfold readBool?
  split_ifs with ht hf
  · constructor
    · rintro ⟨⟩
      exact ⟨by decide, .inl ⟨ht, rfl⟩⟩
    · rintro ⟨-, ⟨-, hn⟩ | ⟨hf, -⟩⟩
      · rw [Int.ofNat_inj.mp hn]
        rfl
      · exact absurd hf (notMem_of_mem_truths s ht)
  · constructor
    · rintro ⟨⟩
      exact ⟨by decide, .inr ⟨hf, rfl⟩⟩
    · rintro ⟨-, ⟨ht', -⟩ | ⟨-, hn⟩⟩
      · exact absurd ht' ht
      · rw [Int.ofNat_inj.mp hn]
        rfl
  · constructor
    · rintro ⟨⟩
    · rintro ⟨-, ⟨ht', -⟩ | ⟨hf', -⟩⟩
      · exact absurd ht' ht
      · exact absurd hf' hf

def integer (k : Kind) (n : Nat) : Int :=
  match k.width? with
  | some w => if k.isSigned then signed w n else n
  | none => 0

variable {k : Kind} {v : Value}

theorem toInt_eq_integer (hf : v.kind.isFloat = false) (hw : v.kind.width? = some w) :
    v.toInt = .ok (integer v.kind v.bits) := by
  obtain ⟨kind, bits, expr⟩ := v
  cases kind with
  | float | double => cases hf
  | unknown => cases hw
  | _ => rfl

theorem readBits?_iff (hf : k.isFloat = false) (hw : k.width? = some w) :
    readBits? k s = some n ↔ n < 2 ^ w ∧ k.Denotes s (integer k n) := by
  cases k with
  | bool =>
    cases hw
    exact readBool?_iff
  | char =>
    cases hw
    refine readUnsigned?_iff.trans (and_congr_right' ⟨fun h => ⟨n, h, rfl⟩, ?_⟩)
    rintro ⟨m, hm, he⟩
    rwa [Int.ofNat_inj.mp he]
  | byte | short | int | long =>
    cases hw
    exact readSigned?_iff (by decide) (by decide)
  | float | double => cases hf
  | unknown => cases hw

theorem spans_integer (hw : k.width? = some w) (hn : n < 2 ^ w) : k.Spans (integer k n) := by
  refine ⟨w, hw, ?_⟩
  unfold integer
  rw [hw]
  dsimp only
  split
  · obtain ⟨h0, h⟩ := Kind.width_bounds hw
    exact_mod_cast signed_range h0 h
  · exact ⟨Int.natCast_nonneg n, by exact_mod_cast hn⟩

theorem read_eq (hw : k.width? = some w) :
    read k s = match readBits? k s with
      | some bits => .ok { kind := k, bits }
      | none => .error (.literal k s) := by
  cases k with
  | unknown => cases hw
  | _ => cases h : readBits? _ s <;> simp [read, h]

theorem read_eq_ok_iff (hf : k.isFloat = false) (hw : k.width? = some w) :
    read k s = .ok v ↔ v.kind = k ∧ v.expr = none ∧ v.bits < 2 ^ w ∧
      ∃ z, v.toInt = .ok z ∧ k.Denotes s z ∧ k.Spans z := by
  rw [read_eq hw]
  constructor
  · intro h
    split at h
    next n hn =>
      cases h
      obtain ⟨hlt, hd⟩ := (readBits?_iff hf hw).mp hn
      exact ⟨rfl, rfl, hlt, _, toInt_eq_integer hf hw, hd, spans_integer hw hlt⟩
    next => cases h
  · rintro ⟨rfl, he, hlt, z, hz, hd, -⟩
    rw [toInt_eq_integer hf hw] at hz
    obtain rfl := Except.ok.inj hz
    rw [(readBits?_iff hf hw).mpr ⟨hlt, hd⟩]
    obtain ⟨kind, bits, expr⟩ := v
    cases he
    rfl

theorem read_eq_error (hw : k.width? = some w) (h : ∀ v, read k s ≠ .ok v) :
    read k s = .error (.literal k s) := by
  rw [read_eq hw] at h ⊢
  split
  next hn =>
    rw [hn] at h
    exact absurd rfl (h _)
  next => rfl

theorem denotes_functional {y z : Int} (hy : k.Denotes s y) (hz : k.Denotes s z) : y = z := by
  cases k with
  | bool =>
    rcases hy with ⟨hs, rfl⟩ | ⟨hs, rfl⟩ <;> rcases hz with ⟨ht, rfl⟩ | ⟨ht, rfl⟩
    · rfl
    · exact absurd ht (notMem_of_mem_truths s hs)
    · exact absurd hs (notMem_of_mem_truths s ht)
    · rfl
  | char =>
    obtain ⟨m, hm, rfl⟩ := hy
    obtain ⟨n, hn, rfl⟩ := hz
    rw [hm.functional hn]
  | byte | short | int | long => exact Text.Integer.functional hy hz
  | float | double | unknown => exact hy.elim

/-- Values other than floating-point numbers and their texts. A text that is read denotes the value,
and a text that denotes one is read; all else is refused, and so is a `char` with a sign. -/
theorem text_denotes_value (hf : k.isFloat = false) (hw : k.width? = some w) :
    (∀ v : Value, v.kind = k → v.bits < 2 ^ w → read k v.format = .ok v.concrete) ∧
    (∀ s v, read k s = .ok v ↔ v.kind = k ∧ v.expr = none ∧ v.bits < 2 ^ w ∧
      ∃ z, v.toInt = .ok z ∧ k.Denotes s z ∧ k.Spans z) ∧
    (∀ s v, read k s = .ok v → read k v.format = .ok v) ∧
    (∀ s z, k.Denotes s z → ¬ k.Spans z → read k s = .error (.literal k s)) ∧
    (k = .char → ∀ sign ∈ ['+', '-'], ∀ s, s.toList.head? = some sign →
      read k s = .error (.literal k s)) := by
  refine ⟨?_, fun s v => read_eq_ok_iff hf hw, fun s v h => ?_, fun s z hd hs => ?_, ?_⟩
  · rintro v rfl hv
    exact read_format hf hw hv
  · obtain ⟨rfl, he, hlt, -⟩ := (read_eq_ok_iff hf hw).mp h
    rw [read_format hf hw hlt]
    obtain ⟨kind, bits, expr⟩ := v
    cases he
    rfl
  · refine read_eq_error hw fun v hv => hs ?_
    obtain ⟨-, -, -, y, -, hd', hs'⟩ := (read_eq_ok_iff hf hw).mp hv
    rwa [denotes_functional hd hd']
  · rintro rfl sign hsign s hs
    refine read_eq_error hw fun v hv => ?_
    obtain ⟨-, -, -, -, -, ⟨n, hn, -⟩, -⟩ := (read_eq_ok_iff hf hw).mp hv
    obtain ⟨cs, hcs⟩ := List.head?_eq_some_iff.mp hs
    rw [hcs, ← Text.natural?_iff, Text.natural?_of_sign hsign] at hn
    cases hn

theorem text_denotes_value_least :
    Kind.short.isFloat = false ∧ Kind.short.width? = some 16 ∧
    read .short (format ⟨.short, 32768, none⟩) = .ok ⟨.short, 32768, none⟩ ∧
    read .short "-0x80_00" = .ok ⟨.short, 32768, none⟩ ∧
    read .short "0100000" = .error (.literal .short "0100000") := by
  obtain ⟨back, accepted, -, refused, -⟩ :=
    text_denotes_value (k := .short) (w := 16) rfl rfl
  refine ⟨rfl, rfl, back ⟨.short, 32768, none⟩ rfl (by decide), ?_, ?_⟩
  · refine (accepted _ _).mpr ⟨rfl, rfl, by decide, -32768, rfl, ?_, 16, rfl, by decide⟩
    exact Text.integer?_iff.mp (by decide)
  · refine refused _ 32768 (Text.integer?_iff.mp (by decide)) ?_
    rintro ⟨w, hw, h⟩
    cases hw
    exact absurd h (by decide)

end Value

end Concolic
