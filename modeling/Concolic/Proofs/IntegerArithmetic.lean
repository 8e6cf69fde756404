import Mathlib
import Concolic.Proofs.Signature

namespace Concolic

namespace Value

structure Holds (v : Value) (k : Kind) (n : Int) : Prop where
  wellFormed : v.WellFormed
  concrete : v.expr = none
  kind : v.kind = k
  toInt : v.toInt = .ok n

end Value

def Value.plain {w : Nat} (k : Kind) (x : BitVec w) : Value := ⟨k, x.toNat, none⟩

def Kind.read {w : Nat} (k : Kind) (x : BitVec w) : Int := if k.isSigned then x.toInt else x.toNat

namespace Value

variable {v : Value} {k : Kind} {w : Nat} {n : Int}

theorem toInt_eq (hf : k.isFloat = false) (hw : k.width? = some w) (x : BitVec w) :
    (plain k x).toInt = .ok (k.read x) := by
  cases k with
  | bool | char => rfl
  | byte | short | int | long =>
    cases hw
    exact congrArg Except.ok (Literal.toInt_ofBits (by decide) (by decide) x)
  | float | double => cases hf
  | unknown => cases hw

theorem plain_fits (hf : k.isFloat = false) (hw : k.width? = some w) (x : BitVec w) :
    (plain k x).Fits w := ⟨hf, hw, x.isLt, by simp [plain]⟩

theorem Fits.eq_plain (h : v.Fits w) (hc : v.expr = none) :
    v = plain v.kind (BitVec.ofNatLT v.bits h.masked) := by
  cases v
  simp_all [plain]

theorem holds_iff (hf : k.isFloat = false) (hw : k.width? = some w) :
    v.Holds k n ↔ ∃ x : BitVec w, v = plain k x ∧ n = k.read x := by
  constructor
  · rintro ⟨⟨w', fit⟩, hc, rfl, hn⟩
    obtain rfl : w' = w := by simpa [hw] using fit.width.symm
    refine ⟨_, fit.eq_plain hc, ?_⟩
    rw [fit.eq_plain hc, toInt_eq hf hw] at hn
    exact (Except.ok.inj hn).symm
  · rintro ⟨x, rfl, rfl⟩
    exact ⟨⟨w, plain_fits hf hw x⟩, rfl, rfl, toInt_eq hf hw x⟩

theorem existsUnique_holds (h : v.WellFormed) (hc : v.expr = none) : ∃! n, v.Holds v.kind n := by
  obtain ⟨w, fit⟩ := h
  refine ⟨_, (holds_iff fit.exact fit.width).mpr ⟨_, fit.eq_plain hc, rfl⟩, fun n hn => ?_⟩
  have e := hn.toInt
  rw [fit.eq_plain hc, toInt_eq fit.exact fit.width] at e
  exact (Except.ok.inj e).symm

end Value

namespace Operation

open Term

variable {op : Operation} {k k' kind : Kind} {w v u : Nat}

theorem apply_of_fits {a : Value} (rest : List Value) {g : BitVec w → BitVec v → BitVec u}
    (hg : Computes (op.build a.kind) g) (ha : a.Fits w) (hb : (rest.headD a).Fits v)
    (hf : kind.isFloat = false) (hu : kind.width? = some u)
    (hk : op.resultKind ((a :: rest).map (·.kind)) = .ok kind)
    (hz : (op.isDivision && rest.any fun b => !b.kind.isFloat && b.bits = 0) = false) :
    ∃ t, op.build a.kind (a.symbol w) ((rest.headD a).symbol v) = .ok t ∧
      op.apply (a :: rest) = .ok (Value.withTerm
        ⟨kind, (g (.ofNat w a.bits) (.ofNat v (rest.headD a).bits)).toNat, none⟩ (some t)) := by
  obtain ⟨_, _, he, hn, -⟩ := resultKind_ok hk
  cases he
  -- The literals of the operands fold to the literal of the result's bits.
  obtain ⟨c, hc, hct, -, hd, hcon⟩ :=
    hg _ _ (typed_const ha.pos ha.le (.ofNat w a.bits))
      (typed_const hb.pos hb.le (.ofNat v (rest.headD a).bits))
  obtain ⟨y, rfl⟩ := hct.eq_const (hcon rfl rfl)
  obtain rfl : y = g (.ofNat w a.bits) (.ofNat v (rest.headD a).bits) := by simpa using hd ∅
  obtain ⟨t, ht, -, -, -, folds⟩ := hg _ _ ha.symbol_typed hb.symbol_typed
  obtain ⟨r, hr, hbr⟩ := exists_secondTerm op (a := a) hn hb.literal
  obtain ⟨r', hr', hbr'⟩ := exists_secondTerm op (a := a) hn hb.term
  refine ⟨t, ht, ?_⟩
  rw [apply_of hk hz ha.literal hr (fold_of ((hbr _ _).trans hc) (Value.ofTerm_const hf hu _))
    ha.term hr' ((hbr' _ _).trans ht)]
  split
  next hall =>
    rw [List.all_eq_true] at hall
    have constant : t.isConstant := by
      apply folds
      · rw [Value.symbol_of_isConcrete (hall a (by simp))]
        rfl
      · rw [Value.symbol_of_isConcrete (hall _ (headD_mem a rest))]
        rfl
    simp [Value.withTerm, Option.filter, constant]
  next => rfl

theorem apply_concrete {a : Value} (rest : List Value) {g : BitVec w → BitVec v → BitVec u}
    (hg : Computes (op.build a.kind) g) (ha : a.Fits w) (hb : (rest.headD a).Fits v)
    (hf : kind.isFloat = false) (hu : kind.width? = some u)
    (hk : op.resultKind ((a :: rest).map (·.kind)) = .ok kind)
    (hz : (op.isDivision && rest.any fun b => !b.kind.isFloat && b.bits = 0) = false)
    (hc : ∀ b ∈ a :: rest, b.expr = none) :
    op.apply (a :: rest) =
      .ok ⟨kind, (g (.ofNat w a.bits) (.ofNat v (rest.headD a).bits)).toNat, none⟩ := by
  have literal {b : Value} (h : b ∈ a :: rest) (n : Nat) : (b.symbol n).isConstant := by
    simp [Value.symbol, hc b h, isConstant]
  obtain ⟨t, ht, h⟩ := apply_of_fits rest hg ha hb hf hu hk hz
  obtain ⟨_, ht', -, -, -, folds⟩ := hg _ _ ha.symbol_typed hb.symbol_typed
  cases ht.symm.trans ht'
  have constant : t.isConstant := folds (literal (by simp) w) (literal (headD_mem a rest) v)
  rw [h]
  simp [Value.withTerm, Option.filter, constant]

section Plain

variable (hf : k.isFloat = false) (hw : k.width? = some w) (hr : kind.isFloat = false)
  (hu : kind.width? = some u)
include hf hw hr hu

theorem apply_unary {g : BitVec w → BitVec w → BitVec u} (hs : Signature op [k] kind)
    (hg : Computes (op.build k) g) (x : BitVec w) :
    op.apply [.plain k x] = .ok (.plain kind (g x x)) := by
  have fits := Value.plain_fits hf hw
  have := apply_concrete [] hg (fits x) (fits x) hr hu hs.resultKind (by simp)
    (by simp [Value.plain])
  simpa [Value.plain] using this

theorem apply_binary {g : BitVec w → BitVec v → BitVec u} (hf' : k'.isFloat = false)
    (hv : k'.width? = some v) (hs : Signature op [k, k'] kind) (hg : Computes (op.build k) g)
    (x : BitVec w) (y : BitVec v) (hz : op.isDivision = true → y ≠ 0#v) :
    op.apply [.plain k x, .plain k' y] = .ok (.plain kind (g x y)) := by
  have hy : (op.isDivision && [Value.plain k' y].any fun b => !b.kind.isFloat && b.bits = 0) =
      false := by
    cases hd : op.isDivision with
    | false => rfl
    | true => simpa [Value.plain, hf', Literal.toNat_eq_zero_iff] using hz hd
  have := apply_concrete [.plain k' y] hg (Value.plain_fits hf hw x)
    (Value.plain_fits hf' hv y) hr hu hs.resultKind hy (by simp [Value.plain])
  simpa [Value.plain] using this

end Plain

def operator? : Operation → Option BinaryOp
  | add => some .add | sub => some .sub | mul => some .mul | div => some .sdiv | rem => some .srem
  | and => some .and | or => some .or | xor => some .xor
  | shl => some .shl | shr => some .ashr | ushr => some .lshr
  | _ => none

def test? (signed : Bool) : Operation → Option BinaryOp
  | eq => some .eq | ne => some .ne
  | lt => some (if signed then .slt else .ult) | le => some (if signed then .sle else .ule)
  | gt => some (if signed then .sgt else .ugt) | ge => some (if signed then .sge else .uge)
  | _ => none

section Build

variable {b : BinaryOp} (hf : k.isFloat = false)
include hf

theorem build_operator (hw : k.width? = some w) (h : op.operator? = some b) :
    op.build k = if b.isShift then buildShift b w else mkBinary b := by
  have e : k.width = .ok w := by simp [Kind.width, hw]
  funext l r
  cases op <;> cases h <;>
    simp [build, isCompare, isThreeWay, isConvert, conversion?, hf, buildInteger, e, BinaryOp.isShift]

theorem operator_computes (hw : k.width? = some w) (h : op.operator? = some b)
    (hs : b.isShift = false) :
    Computes (op.build k) (b.compute : BitVec w → BitVec w → BitVec w) := by
  have ha : b.isArithmetic = true := by cases op <;> cases h <;> rfl
  rw [build_operator hf hw h, hs]
  exact computes_arith ha hs

theorem shift_computes (hw : k.width? = some w) (h : op.operator? = some b) (hs : b.isShift = true) :
    Computes (op.build k) fun (x : BitVec w) (y : BitVec v) =>
      b.move x (y.setWidth w &&& BitVec.ofNat w (w - 1)).toNat := by
  rw [build_operator hf hw h, hs]
  exact buildShift_computes hs

theorem build_neg (hw : k.width? = some w) :
    Operation.neg.build k = fun l _ => mkBinary .sub (const (.ofNat 0 w)) l := by
  have e : k.width = .ok w := by simp [Kind.width, hw]
  funext l r
  simp [build, isCompare, isThreeWay, isConvert, conversion?, hf, buildInteger, e]

theorem neg_computes (hw : k.width? = some w) :
    Computes (Operation.neg.build k) fun (x : BitVec w) (_ : BitVec v) => 0 - x := by
  rw [build_neg hf hw]
  exact computes_neg

theorem build_test (h : op.test? k.isSigned = some b) : op.build k = mkBinary b := by
  funext l r
  cases op <;> cases h <;> simp [build, isCompare, buildCompare, hf]

theorem test_computes (h : op.test? k.isSigned = some b) :
    Computes (op.build k) fun x y : BitVec w => BitVec.ofBool (b.test x y) := by
  have hc : b.isCompare = true := by
    cases op <;> cases h <;> cases k.isSigned <;> rfl
  rw [build_test hf h]
  exact computes_compare hc

end Build

section Read

theorem toInt_emod (x : BitVec w) : x.toInt % 2 ^ w = x.toNat := by
  have lt : (x.toNat : Int) < 2 ^ w := by exact_mod_cast x.isLt
  have e : x.toInt % 2 ^ w = x.toNat % 2 ^ w := by
    rw [BitVec.toInt_eq_toNat_bmod]
    exact_mod_cast Int.bmod_emod (m := 2 ^ w)
  rw [e, Int.emod_eq_of_lt (by omega) lt]

theorem toInt_shl (x : BitVec w) (s : Nat) :
    (x <<< s).toInt = (x.toInt * 2 ^ s).bmod (2 ^ w) := by
  rw [BitVec.toInt_shiftLeft, BitVec.toInt_eq_toNat_bmod, Int.bmod_mul_bmod, Nat.shiftLeft_eq]
  push_cast
  rfl

theorem toInt_ushr (x : BitVec w) (s : Nat) :
    (x >>> s).toInt = (x.toInt % 2 ^ w / 2 ^ s).bmod (2 ^ w) := by
  rw [toInt_emod, BitVec.toInt_eq_toNat_bmod, BitVec.toNat_ushiftRight, Nat.shiftRight_eq_div_pow]
  push_cast
  rfl

/-- A shifted pattern is not negative, except where nothing was shifted. -/
theorem bmod_ushr (x : BitVec w) {s : Nat} (h : s ≠ 0 ∨ 0 ≤ x.toInt) :
    (x.toInt % 2 ^ w / 2 ^ s).bmod (2 ^ w) = x.toInt % 2 ^ w / 2 ^ s := by
  have hx := x.isLt
  have lt : 2 * (x.toNat / 2 ^ s) < 2 ^ w := by
    by_cases hs : s = 0
    · subst hs
      have := h.resolve_left (by simp)
      rw [BitVec.toInt_eq_toNat_cond] at this
      split at this <;> omega
    · have : x.toNat / 2 ^ s ≤ x.toNat / 2 ^ 1 :=
        Nat.div_le_div_left (Nat.pow_le_pow_right (by decide) (by omega)) (by decide)
      omega
  rw [toInt_emod]
  have e : ((x.toNat : Int) / 2 ^ s) = ((x.toNat / 2 ^ s : Nat) : Int) := by push_cast; rfl
  rw [e]
  apply Int.bmod_eq_of_le <;> omega

theorem toInt_threeWay (p q : BitVec w) :
    (if p.slt q then 0xFFFFFFFF#32 else if p == q then 0#32 else 1#32).toInt =
      (p.toInt - q.toInt).sign := by
  have lt : p.slt q = decide (p.toInt < q.toInt) := rfl
  have eq : (p == q) = decide (p.toInt = q.toInt) := by
    rw [Bool.eq_iff_iff, beq_iff_eq, decide_eq_true_iff, BitVec.toInt_inj]
  rw [lt, eq]
  rcases Int.lt_trichotomy p.toInt q.toInt with hlt | heq | hgt
  · rw [Int.sign_eq_neg_one_of_neg (by omega), if_pos (by simpa using hlt)]
    rfl
  · rw [heq]
    simp
  · rw [Int.sign_eq_one_of_pos (by omega), if_neg (by simpa using hgt.le),
      if_neg (by simpa using hgt.ne')]
    rfl

variable (hk : k ∈ [.int, .long]) (hw : k.width? = some w)
include hk

theorem isFloat_word : k.isFloat = false := by
  revert k
  decide

theorem read_word (x : BitVec w) : k.read x = x.toInt := by
  have : k.isSigned = true := by
    revert k
    decide
  rw [Kind.read, if_pos this]

include hw in
theorem shift_amount (y : BitVec 32) :
    (y.setWidth w &&& BitVec.ofNat w (w - 1)).toNat = (y.toInt % w).toNat := by
  have ht := BitVec.toInt_eq_toNat_cond y
  have hlt := y.isLt
  rw [BitVec.toNat_and, BitVec.toNat_setWidth, BitVec.toNat_ofNat]
  simp only [List.mem_cons, List.not_mem_nil, or_false] at hk
  rcases hk with rfl | rfl <;> cases hw
  · rw [show (32 - 1) % 2 ^ 32 = 2 ^ 5 - 1 from rfl, Nat.and_two_pow_sub_one_eq_mod]
    omega
  · rw [show (64 - 1) % 2 ^ 64 = 2 ^ 6 - 1 from rfl, Nat.and_two_pow_sub_one_eq_mod]
    omega

end Read

def Gives (op : Operation) (args : List Value) (k : Kind) (n : Int) : Prop :=
  ∃ r, op.apply args = .ok r ∧ r.Holds k n

structure Truncated (x y q r : Int) : Prop where
  split : x = q * y + r
  small : |r| < |y|
  sign : r = 0 ∨ r.sign = x.sign

theorem truncated {x y : Int} (hy : y ≠ 0) : Truncated x y (x.tdiv y) (x.tmod y) where
  split := by rw [Int.mul_comm, Int.mul_tdiv_add_tmod]
  small := by
    rw [Int.abs_eq_natAbs, Int.abs_eq_natAbs, Int.natAbs_tmod]
    exact_mod_cast Nat.mod_lt _ (Int.natAbs_pos.mpr hy)
  sign := by
    by_cases hr : x.tmod y = 0
    · exact .inl hr
    · right
      rcases Int.lt_trichotomy x 0 with hx | rfl | hx
      · have := Int.tmod_nonneg y (Int.neg_nonneg_of_nonpos hx.le)
        rw [Int.neg_tmod] at this
        rw [Int.sign_eq_neg_one_of_neg hx, Int.sign_eq_neg_one_of_neg (by omega)]
      · simp at hr
      · have := Int.tmod_nonneg y hx.le
        rw [Int.sign_eq_one_of_pos hx, Int.sign_eq_one_of_pos (by omega)]

/-- Arithmetic on the integers of a kind of `w` bits. A shift by `y` is one by the remainder of `y`
modulo the width. -/
structure WordArithmetic (k : Kind) (w : Nat) : Prop where
  add {a b : Value} {x y : Int} : a.Holds k x → b.Holds k y →
    Gives .add [a, b] k ((x + y).bmod (2 ^ w))
  sub {a b : Value} {x y : Int} : a.Holds k x → b.Holds k y →
    Gives .sub [a, b] k ((x - y).bmod (2 ^ w))
  mul {a b : Value} {x y : Int} : a.Holds k x → b.Holds k y →
    Gives .mul [a, b] k ((x * y).bmod (2 ^ w))
  neg {a : Value} {x : Int} : a.Holds k x → Gives .neg [a] k ((-x).bmod (2 ^ w))
  divRem {a b : Value} {x y : Int} : a.Holds k x → b.Holds k y → y ≠ 0 →
    ∃ q r, Truncated x y q r ∧ Gives .div [a, b] k (q.bmod (2 ^ w)) ∧ Gives .rem [a, b] k r
  shl {a b : Value} {x y : Int} : a.Holds k x → b.Holds .int y →
    Gives .shl [a, b] k ((x * 2 ^ (y % w).toNat).bmod (2 ^ w))
  shr {a b : Value} {x y : Int} : a.Holds k x → b.Holds .int y →
    Gives .shr [a, b] k (x / 2 ^ (y % w).toNat)
  ushr {a b : Value} {x y : Int} : a.Holds k x → b.Holds .int y →
    Gives .ushr [a, b] k ((x % 2 ^ w / 2 ^ (y % w).toNat).bmod (2 ^ w))
  ushr_exact {a b : Value} {x y : Int} : a.Holds k x → b.Holds .int y → y % w ≠ 0 ∨ 0 ≤ x →
    Gives .ushr [a, b] k (x % 2 ^ w / 2 ^ (y % w).toNat)
  cmp {a b : Value} {x y : Int} : a.Holds k x → b.Holds k y → Gives .cmp [a, b] .int (x - y).sign

theorem Gives.of {args : List Value} {n : Int} {z : BitVec u} (hf : k.isFloat = false)
    (hu : k.width? = some u) (h : op.apply args = .ok (.plain k z)) (hn : n = k.read z) :
    Gives op args k n := ⟨_, h, (Value.holds_iff hf hu).mpr ⟨z, rfl, hn⟩⟩

section Words

variable {b : BinaryOp} {a c : Value} {x y : Int} (hk : k ∈ [.int, .long]) (hw : k.width? = some w)
include hk hw

theorem holds_word : a.Holds k x ↔ ∃ p : BitVec w, a = .plain k p ∧ x = p.toInt := by
  simp only [Value.holds_iff (isFloat_word hk) hw, read_word hk]

theorem gives_word {args : List Value} {p : BitVec w} (h : op.apply args = .ok (.plain k p)) :
    Gives op args k p.toInt := ⟨_, h, (holds_word hk hw).mpr ⟨p, rfl, rfl⟩⟩

theorem operator_gives (op : Operation) (f : Int → Int → Int)
    (hop : op ∈ [.add, .sub, .mul, .div, .rem])
    (hb : op.operator? = some b) (hm : b.isShift = false) (ha : a.Holds k x) (hc : c.Holds k y)
    (hz : op.isDivision = true → y ≠ 0) (hn : ∀ p q : BitVec w, (op.isDivision = true → q ≠ 0#w) →
      (b.compute p q).toInt = f p.toInt q.toInt) : Gives op [a, c] k (f x y) := by
  have hf := isFloat_word hk
  have hs : Signature op [k, k] k := .arithmetic hop (List.mem_append_left [Kind.float, .double] hk)
  obtain ⟨p, rfl, rfl⟩ := (holds_word hk hw).mp ha
  obtain ⟨q, rfl, rfl⟩ := (holds_word hk hw).mp hc
  have hq : op.isDivision = true → q ≠ 0#w := by
    rintro hd rfl
    simpa using hz hd
  rw [← hn p q hq]
  exact gives_word hk hw
    (apply_binary hf hw hf hw hf hw hs (operator_computes hf hw hb hm) p q hq)

theorem shift_gives (op : Operation) (f : Int → Nat → Int) (hop : op ∈ [.shl, .shr, .ushr])
    (hb : op.operator? = some b) (hm : b.isShift = true) (ha : a.Holds k x) (hc : c.Holds .int y)
    (hn : ∀ (p : BitVec w) (s : Nat), (b.move p s).toInt = f p.toInt s) :
    Gives op [a, c] k (f x (y % w).toNat) := by
  have hf := isFloat_word hk
  have hd : op.isDivision = false := by
    clear hb
    revert op
    decide
  obtain ⟨p, rfl, rfl⟩ := (holds_word hk hw).mp ha
  obtain ⟨q, rfl, rfl⟩ := (holds_word (k := .int) (by simp) rfl).mp hc
  rw [← shift_amount hk hw, ← hn]
  exact gives_word hk hw (apply_binary hf hw hf hw rfl rfl (.shift hop hk)
    (shift_computes hf hw hb hm) p q (by simp [hd]))

theorem ushr_gives (ha : a.Holds k x) (hc : c.Holds .int y) :
    Gives .ushr [a, c] k ((x % 2 ^ w / 2 ^ (y % w).toNat).bmod (2 ^ w)) :=
  shift_gives hk hw .ushr (fun x s => (x % 2 ^ w / 2 ^ s).bmod (2 ^ w)) (by simp) rfl rfl ha hc
    toInt_ushr

theorem ushr_gives_exact (ha : a.Holds k x) (hc : c.Holds .int y) (h : y % w ≠ 0 ∨ 0 ≤ x) :
    Gives .ushr [a, c] k (x % 2 ^ w / 2 ^ (y % w).toNat) := by
  have pos : 0 < w := (Kind.width_bounds hw).1
  have nonneg := Int.emod_nonneg y (show (w : Int) ≠ 0 by omega)
  have := ushr_gives hk hw ha hc
  obtain ⟨p, -, rfl⟩ := (holds_word hk hw).mp ha
  rwa [bmod_ushr p (h.imp_left fun h => by omega)] at this

theorem cmp_gives (ha : a.Holds k x) (hc : c.Holds k y) : Gives .cmp [a, c] .int (x - y).sign := by
  have hf := isFloat_word hk
  obtain ⟨p, rfl, rfl⟩ := (holds_word hk hw).mp ha
  obtain ⟨q, rfl, rfl⟩ := (holds_word hk hw).mp hc
  have hg : Computes (Operation.cmp.build k) _ := buildThreeWay_computes (w := w)
  rw [← toInt_threeWay]
  exact gives_word (k := .int) (by simp) rfl
    (apply_binary hf hw rfl rfl hf hw (.threeWay hk) hg p q nofun)

theorem wordArithmetic : WordArithmetic k w where
  add ha hc := operator_gives hk hw .add (fun x y => (x + y).bmod (2 ^ w)) (by simp) rfl rfl ha hc
    nofun fun p q _ => BitVec.toInt_add p q
  sub ha hc := operator_gives hk hw .sub (fun x y => (x - y).bmod (2 ^ w)) (by simp) rfl rfl ha hc
    nofun fun _ _ _ => BitVec.toInt_sub
  mul ha hc := operator_gives hk hw .mul (fun x y => (x * y).bmod (2 ^ w)) (by simp) rfl rfl ha hc
    nofun fun p q _ => BitVec.toInt_mul p q
  neg ha := by
    have hf := isFloat_word hk
    obtain ⟨p, rfl, rfl⟩ := (holds_word hk hw).mp ha
    have := gives_word hk hw (apply_unary hf hw hf hw
      (.negation (List.mem_append_left [Kind.float, .double] hk)) (neg_computes hf hw) p)
    rwa [BitVec.ofNat_eq_ofNat, BitVec.zero_sub, BitVec.toInt_neg] at this
  divRem ha hc hy := by
    refine ⟨_, _, truncated hy, ?_, ?_⟩
    · refine operator_gives hk hw .div (fun x y => (x.tdiv y).bmod (2 ^ w)) (by simp) rfl rfl ha hc
        (fun _ => hy) fun p q hq => ?_
      rw [BinaryOp.compute, Literal.smtSDiv_eq_sdiv (hq rfl), BitVec.toInt_sdiv]
    · exact operator_gives hk hw .rem Int.tmod (by simp) rfl rfl ha hc (fun _ => hy)
        fun p q _ => BitVec.toInt_srem p q
  shl ha hc := shift_gives hk hw .shl (fun x s => (x * 2 ^ s).bmod (2 ^ w)) (by simp) rfl rfl ha hc
    toInt_shl
  shr ha hc := by
    refine shift_gives hk hw .shr (fun x s => x / 2 ^ s) (by simp) rfl rfl ha hc fun p s => ?_
    rw [BinaryOp.move, BitVec.toInt_sshiftRight, Int.shiftRight_eq_div_pow]
    push_cast
    rfl
  ushr := ushr_gives hk hw
  ushr_exact := ushr_gives_exact hk hw
  cmp := cmp_gives hk hw

end Words

structure BitwiseLogic (k : Kind) : Prop where
  and {a b : Value} {x y : Int} : a.Holds k x → b.Holds k y →
    ∃ r n, Operation.and.apply [a, b] = .ok r ∧ r.Holds k n ∧ r.bits = a.bits &&& b.bits
  or {a b : Value} {x y : Int} : a.Holds k x → b.Holds k y →
    ∃ r n, Operation.or.apply [a, b] = .ok r ∧ r.Holds k n ∧ r.bits = a.bits ||| b.bits
  xor {a b : Value} {x y : Int} : a.Holds k x → b.Holds k y →
    ∃ r n, Operation.xor.apply [a, b] = .ok r ∧ r.Holds k n ∧ r.bits = a.bits ^^^ b.bits

theorem logic_gives {b : BinaryOp} {a c : Value} {x y : Int} (op : Operation)
    (f : Nat → Nat → Nat) (hop : op ∈ [.and, .or, .xor]) (hb : op.operator? = some b)
    (hm : b.isShift = false)
    (hn : ∀ {w : Nat} (p q : BitVec w), (b.compute p q).toNat = f p.toNat q.toNat)
    (hk : k ∈ [.int, .long, .bool]) (ha : a.Holds k x) (hc : c.Holds k y) :
    ∃ r n, op.apply [a, c] = .ok r ∧ r.Holds k n ∧ r.bits = f a.bits c.bits := by
  have hf : k.isFloat = false := by
    clear ha hc
    revert k
    decide
  have hd : op.isDivision = false := by
    clear hb
    revert op
    decide
  obtain ⟨w, fit⟩ := ha.wellFormed
  have hw : k.width? = some w := ha.kind ▸ fit.width
  obtain ⟨p, rfl, rfl⟩ := (Value.holds_iff hf hw).mp ha
  obtain ⟨q, rfl, rfl⟩ := (Value.holds_iff hf hw).mp hc
  refine ⟨_, _, apply_binary hf hw hf hw hf hw (.logic hop hk) (operator_computes hf hw hb hm) p q
    (by simp [hd]), (Value.holds_iff hf hw).mpr ⟨_, rfl, rfl⟩, hn p q⟩

theorem bitwiseLogic (hk : k ∈ [.int, .long, .bool]) : BitwiseLogic k where
  and := logic_gives .and (· &&& ·) (by simp) rfl rfl (fun p q => BitVec.toNat_and p q) hk
  or := logic_gives .or (· ||| ·) (by simp) rfl rfl (fun p q => BitVec.toNat_or p q) hk
  xor := logic_gives .xor (· ^^^ ·) (by simp) rfl rfl (fun p q => BitVec.toNat_xor p q) hk

structure IntegerComparison (k : Kind) : Prop where
  eq {a b : Value} {x y : Int} : a.Holds k x → b.Holds k y →
    Operation.eq.apply [a, b] = .ok (.ofBool (decide (x = y)))
  ne {a b : Value} {x y : Int} : a.Holds k x → b.Holds k y →
    Operation.ne.apply [a, b] = .ok (.ofBool (decide (x ≠ y)))
  lt {a b : Value} {x y : Int} : k ≠ .bool → a.Holds k x → b.Holds k y →
    Operation.lt.apply [a, b] = .ok (.ofBool (decide (x < y)))
  le {a b : Value} {x y : Int} : k ≠ .bool → a.Holds k x → b.Holds k y →
    Operation.le.apply [a, b] = .ok (.ofBool (decide (x ≤ y)))
  gt {a b : Value} {x y : Int} : k ≠ .bool → a.Holds k x → b.Holds k y →
    Operation.gt.apply [a, b] = .ok (.ofBool (decide (x > y)))
  ge {a b : Value} {x y : Int} : k ≠ .bool → a.Holds k x → b.Holds k y →
    Operation.ge.apply [a, b] = .ok (.ofBool (decide (x ≥ y)))

theorem test_gives {b : BinaryOp} {a c : Value} {x y : Int} (op : Operation) (f : Int → Int → Prop)
    [DecidableRel f] (hs : Signature op [k, k] .bool) (hb : op.test? k.isSigned = some b)
    (hn : ∀ {w : Nat} (p q : BitVec w), b.test p q = decide (f (k.read p) (k.read q)))
    (ha : a.Holds k x) (hc : c.Holds k y) :
    op.apply [a, c] = .ok (.ofBool (decide (f x y))) := by
  have hd : op.isDivision = false := by
    cases op <;> first | rfl | cases hb
  obtain ⟨w, fit⟩ := ha.wellFormed
  have hf : k.isFloat = false := ha.kind ▸ fit.exact
  have hw : k.width? = some w := ha.kind ▸ fit.width
  obtain ⟨p, rfl, rfl⟩ := (Value.holds_iff hf hw).mp ha
  obtain ⟨q, rfl, rfl⟩ := (Value.holds_iff hf hw).mp hc
  rw [apply_binary hf hw rfl rfl hf hw hs (test_computes hf hb) p q (by simp [hd]), ← hn]
  cases b.test p q <;> rfl

theorem read_inj (k : Kind) (p q : BitVec w) : k.read p = k.read q ↔ p = q := by
  unfold Kind.read
  split
  · exact BitVec.toInt_inj
  · rw [Int.natCast_inj, BitVec.toNat_inj]

theorem integerComparison (hk : k ∈ [.bool, .byte, .char, .short, .int, .long]) :
    IntegerComparison k := by
  have all : k ∈ Kind.all := List.mem_append_left [Kind.float, .double] hk
  have ordered (hb : k ≠ .bool) : k ∈ [.byte, .char, .short, .int, .long, .float, .double] :=
    (List.mem_cons.mp all).resolve_left hb
  constructor
  case eq =>
    refine test_gives .eq (· = ·) (.equality (by simp) all) rfl fun p q => ?_
    simp only [read_inj]
    rfl
  case ne =>
    refine test_gives .ne (· ≠ ·) (.equality (by simp) all) rfl fun p q => ?_
    simp only [ne_eq, read_inj, decide_not]
    rfl
  case lt =>
    refine fun hb => test_gives .lt (· < ·) (.ordering (by simp) (ordered hb)) rfl fun p q => ?_
    cases h : k.isSigned <;> simp [BinaryOp.test, Kind.read, h, BitVec.slt, BitVec.ult]
  case le =>
    refine fun hb => test_gives .le (· ≤ ·) (.ordering (by simp) (ordered hb)) rfl fun p q => ?_
    cases h : k.isSigned <;> simp [BinaryOp.test, Kind.read, h, BitVec.sle, BitVec.ule]
  case gt =>
    refine fun hb => test_gives .gt (· > ·) (.ordering (by simp) (ordered hb)) rfl fun p q => ?_
    cases h : k.isSigned <;> simp [BinaryOp.test, Kind.read, h, BitVec.slt, BitVec.ult]
  case ge =>
    refine fun hb => test_gives .ge (· ≥ ·) (.ordering (by simp) (ordered hb)) rfl fun p q => ?_
    cases h : k.isSigned <;> simp [BinaryOp.test, Kind.read, h, BitVec.sle, BitVec.ule]

theorem toInt_modEq (x : BitVec w) : x.toInt ≡ x.toNat [ZMOD 2 ^ w] := by
  rw [Int.ModEq, toInt_emod, ← toInt_emod, Int.emod_emod]

theorem read_modEq (k : Kind) (x : BitVec w) : k.read x ≡ x.toNat [ZMOD 2 ^ w] := by
  unfold Kind.read
  split
  · exact toInt_modEq x
  · rfl

theorem read_extract (k k' : Kind) (h : u ≤ w) (x : BitVec w) :
    k'.read (x.extractLsb' 0 u) ≡ k.read x [ZMOD 2 ^ u] := by
  refine (read_modEq ..).trans ?_
  refine Int.ModEq.trans ?_ ((read_modEq k x).symm.of_dvd (pow_dvd_pow 2 h))
  rw [BitVec.extractLsb'_toNat, Nat.shiftRight_zero]
  push_cast
  exact Int.mod_modEq ..

theorem conversion_gives {source target : Kind} {a : Value} {x : Int}
    (hc : (op, source, target) ∈ integerConversions) (hu : target.width? = some u)
    (ha : a.Holds source x) : ∃ n, Gives op [a] target n ∧ n ≡ x [ZMOD 2 ^ u] := by
  have exact : ∀ c ∈ integerConversions, c.2.1.isFloat = false ∧ c.2.2.isFloat = false := by decide
  obtain ⟨hs, ht⟩ := exact _ hc
  obtain ⟨w, fit⟩ := ha.wellFormed
  have hw : source.width? = some w := ha.kind ▸ fit.width
  obtain ⟨p, rfl, rfl⟩ := (Value.holds_iff hs hw).mp ha
  have signature : Signature op [source] target := .conversion (List.mem_append_left _ hc)
  have result {g : BitVec w → BitVec w → BitVec u} (hg : Computes (op.build source) g)
      (hn : target.read (g p p) ≡ source.read p [ZMOD 2 ^ u]) :
      ∃ n, Gives op [.plain source p] target n ∧ n ≡ source.read p [ZMOD 2 ^ u] :=
    ⟨_, .of ht hu (apply_unary hs hw ht hu signature hg p) rfl, hn⟩
  have kinds := conversion_iff.mpr (List.mem_append_left _ hc)
  cases op with
  | l2i | i2b | i2c | i2s =>
    cases kinds
    cases hw
    cases hu
    exact result (computes_extract (by decide) (by decide)) (read_extract _ _ (by decide) p)
  | i2l | b2i | s2i =>
    cases kinds
    cases hw
    cases hu
    refine result (computes_cast (by decide) (by decide) true) ?_
    change (p.signExtend _).toInt ≡ p.toInt [ZMOD _]
    rw [BitVec.toInt_signExtend_of_le (by decide)]
  | c2i | z2i =>
    cases kinds
    cases hw
    cases hu
    refine result (computes_cast (by decide) (by decide) false) ?_
    refine (toInt_modEq _).trans ?_
    rw [if_neg (by decide), BitVec.toNat_setWidth_of_le (by decide)]
    rfl
  | i2f | i2d | l2f | l2d | f2i | f2l | f2d | d2i | d2l | d2f =>
    cases kinds
    simp [Kind.isFloat] at hs ht
  | _ => cases kinds

/-- Operations on concrete integers compute as machine arithmetic does, and refuse exactly the operands
that have no result. -/
theorem apply_is_machine_arithmetic :
    (∀ v : Value, v.WellFormed → v.expr = none → ∃! n, v.Holds v.kind n) ∧
    (∀ k w, k ∈ [.int, .long] → k.width? = some w → WordArithmetic k w) ∧
    (∀ k ∈ [.int, .long, .bool], BitwiseLogic k) ∧
    (∀ k ∈ [.bool, .byte, .char, .short, .int, .long], IntegerComparison k) ∧
    (∀ op source target, (op, source, target) ∈ integerConversions → ∀ u a x,
      target.width? = some u → a.Holds source x → ∃ n, Gives op [a] target n ∧ n ≡ x [ZMOD 2 ^ u]) ∧
    ∀ op args, (∀ v ∈ args, v.Regular ∨ v = .unset) → Refusals op args := by
  exact ⟨fun v => Value.existsUnique_holds, fun k w => wordArithmetic, fun k => bitwiseLogic,
    fun k => integerComparison, fun op source target hc u a x => conversion_gives hc,
    fun op args h => refusals h op⟩

theorem ushr_by_zero_is_negative :
    let a : Value := ⟨.int, 0xFFFFFFFF, none⟩
    let b : Value := ⟨.int, 0, none⟩
    a.Holds .int (-1) ∧ b.Holds .int 0 ∧ Operation.ushr.apply [a, b] = .ok a ∧
      ¬Gives .ushr [a, b] .int (-1 % 2 ^ 32 / 2 ^ (0 % 32)) := by
  intro a b
  have ha : a.Holds .int (-1) := ⟨⟨32, rfl, rfl, by decide, by simp [a]⟩, rfl, rfl, by decide⟩
  have hb : b.Holds .int 0 := ⟨⟨32, rfl, rfl, by decide, by simp [b]⟩, rfl, rfl, by decide⟩
  have h : Operation.ushr.apply [a, b] = .ok a := by decide
  refine ⟨ha, hb, h, ?_⟩
  rintro ⟨r, hr, hold⟩
  cases h.symm.trans hr
  have e := Except.ok.inj (ha.toInt.symm.trans hold.toInt)
  norm_num at e

end Operation

end Concolic
