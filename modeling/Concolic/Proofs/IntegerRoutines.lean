import Mathlib
import Concolic.Proofs.IntegerArithmetic
import Concolic.Proofs.Library
import Concolic.Proofs.Simplify.Placement

namespace Concolic

namespace Term

open Literal

variable {t l r c y n s : Term} {w : Nat} {d : Literal}

theorem mkXor_open (ht : t.isConstant = false) : (mkXor (const d) t).isConstant = false := by
  rw [mkXor_literal d ht]
  split
  · exact ht
  · rfl

theorem sum_of_constant {e : Except Defect Term} (ht : t.isConstant = false) (hs : s.isConstant)
    (h : (if d.width = 1 then .ok (mkXor (const d) t) else if d.value = 0 then .ok t else e) =
      .ok s) : e = .ok s := by
  split_ifs at h
  · cases h
    simp [mkXor_open ht] at hs
  · cases h
    simp [ht] at hs
  · exact h

theorem difference_of_constant {e : Except Defect Term} (ht : t.isConstant = false)
    (hs : s.isConstant)
    (h : (if d.width = 1 then .ok (mkXor (const d) t) else e) = .ok s) : e = .ok s := by
  split_ifs at h
  · cases h
    simp [mkXor_open ht] at hs
  · exact h

theorem plus_minus_of_constant (hs : s.isConstant) (ht : t.Typed w) (d : Literal) :
    (plus d t = .ok s → t.occurrences = []) ∧ (minus d t = .ok s → t.occurrences = []) := by
  have kept {t : Term} (d : Literal) (hc : t.isConstant = false)
      (hp : ∀ d, plus d t = if d.width = 1 then .ok (mkXor (const d) t) else
        if d.value = 0 then .ok t else .ok (binary .add (const d) t))
      (hm : ∀ d, minus d t = if d.width = 1 then .ok (mkXor (const d) t) else
        .ok (binary .sub (const d) t)) :
      (plus d t = .ok s → t.occurrences = []) ∧ (minus d t = .ok s → t.occurrences = []) := by
    constructor <;> intro h
    · cases sum_of_constant hc hs (hp d ▸ h)
      cases hs
    · cases difference_of_constant hc hs (hm d ▸ h)
      cases hs
  induction t generalizing w d with
  | const => exact ⟨fun _ => rfl, fun _ => rfl⟩
  | fconst => cases ht
  | binary op l r _ ih =>
    rcases headed ht.ne_mixed with ⟨_, h⟩ | ⟨k, z, h⟩ | ⟨k, z, h⟩ | ⟨hp, hm⟩
    · cases h
    · cases h
      have hz := (ht.arith_inv rfl rfl).2
      constructor <;> intro h
      · obtain ⟨_, -, h⟩ := bind_eq_ok (sum_of_constant rfl hs h)
        exact (ih hz _).1 h
      · obtain ⟨_, -, h⟩ := bind_eq_ok (difference_of_constant rfl hs h)
        exact (ih hz _).2 h
    · cases h
      have hz := (ht.arith_inv rfl rfl).2
      constructor <;> intro h
      · obtain ⟨_, -, h⟩ := bind_eq_ok (sum_of_constant rfl hs h)
        exact (ih hz _).2 h
      · obtain ⟨_, -, h⟩ := bind_eq_ok (difference_of_constant rfl hs h)
        exact (ih hz _).1 h
    · exact kept d rfl hp hm
  | _ =>
    rcases headed ht.ne_mixed with ⟨_, h⟩ | ⟨_, _, h⟩ | ⟨_, _, h⟩ | ⟨hp, hm⟩
    · cases h
    · cases h
    · cases h
    · exact kept d rfl hp hm

theorem neg_of_constant (hl : l.Typed w) (h : mkBinary .sub (const (.ofNat 0 w)) l = .ok t)
    (ht : t.isConstant) : l.occurrences = [] := by
  have zero : (const (.ofNat 0 w)).Typed w := by
    rw [ofNat_eq hl.le]
    exact typed_const hl.pos hl.le _
  simp only [mkBinary, commonWidth_eq _ zero hl, ok_bind, mkSub] at h
  split at h
  next hs =>
    rw [← same_iff.mp hs]
    rfl
  next => exact (plus_minus_of_constant ht hl _).2 h

theorem mkSlt_of_constant (hw : w ≠ 1) (h : mkSlt w l r = .ok t) (ht : t.isConstant) :
    l.isConstant ∧ r.isConstant := by
  unfold mkSlt at h
  split at h
  · exact ⟨rfl, rfl⟩
  · rw [if_neg hw] at h
    cases h
    cases ht

theorem mkIte_of_constant (h : mkIte c y n = .ok t) (hc : c.isConstant = false)
    (ht : t.isConstant) : y = n ∧ y.isConstant := by
  simp only [mkIte] at h
  obtain ⟨_, -, h⟩ := bind_eq_ok h
  split at h
  · cases h
  split at h
  · cases hc
  · split_ifs at h with hs
    · cases h
      exact ⟨same_iff.mp hs, ht⟩
    · cases h
      simp [hc] at ht
    · cases h
      cases ht

theorem threeWay_of_constant (hl : l.Typed w) (hr : r.Typed w) (hw : w ≠ 1)
    (h : Operation.buildThreeWay .cmp l r = .ok t) (ht : t.isConstant) :
    l.isConstant ∧ r.isConstant := by
  obtain ⟨lt, hlt, h⟩ := bind_eq_ok h
  obtain ⟨eq, heq, h⟩ := bind_eq_ok h
  obtain ⟨no, hno, h⟩ := bind_eq_ok h
  cases hc : lt.isConstant with
  | true =>
    simp only [mkBinary, commonWidth_eq _ hl hr] at hlt
    exact mkSlt_of_constant hw hlt hc
  | false =>
    obtain ⟨rfl, -⟩ := mkIte_of_constant h hc ht
    have h32 : ∀ x : BitVec 32, (const (ofBits x)).Typed 32 := typed_const (by decide) (by decide)
    obtain ⟨_, heq', he⟩ := mkBinary_yields (.compare rfl hl hr : (binary .eq l r).Typed 1)
    cases heq.symm.trans heq'
    obtain ⟨_, hno', hn⟩ := mkIte_yields he.typed (h32 0#32) (h32 1#32)
    cases hno.symm.trans hno'
    have means := hn.means ∅
    simp only [denote_ite, denote_const] at means
    split at means
    · exact absurd means (by decide)
    · exact absurd means (by decide)

end Term

namespace Value

open Term

variable {P : Input → Prop} {v : Value} {k : Kind} {w : Nat} {x : BitVec w} {f : Input → BitVec w}
  {i : Input}

def Evaluates (i : Input) (v : Value) (n : Int) : Prop := ∃ c, v.At i c ∧ c.toInt = .ok n

theorem Evaluates.unique {m n : Int} (h : v.Evaluates i m) (h' : v.Evaluates i n) : m = n := by
  obtain ⟨c, ⟨t, ht, hc⟩, hm⟩ := h
  obtain ⟨c', ⟨t', ht', hc'⟩, hn⟩ := h'
  cases ht.symm.trans ht'
  cases hc.symm.trans hc'
  exact Except.ok.inj (hm.symm.trans hn)

def Coherent (i : Input) (v : Value) : Prop :=
  ∀ t ∈ v.expr, t.occurrences ≠ [] ∨ v.At i v.concrete

structure Means (P : Input → Prop) (v : Value) (k : Kind) (x : BitVec w) (f : Input → BitVec w) :
    Prop where
  fits : v.Fits w
  kind : v.kind = k
  bits : v.bits = x.toNat
  bound : ∀ i, P i → v.Bound i
  denote : ∀ i, P i → (v.symbol w).denote i w = f i

theorem Fits.isConstant_symbol (h : v.Fits w) : (v.symbol w).isConstant = v.isConcrete := by
  unfold symbol isConcrete
  cases he : v.expr with
  | none => rfl
  | some t => exact (h.typed t he).2

theorem Fits.means (h : v.Fits w) (hP : ∀ i, P i → v.Bound i) :
    v.Means P v.kind (BitVec.ofNat w v.bits) fun i => (v.symbol w).denote i w :=
  ⟨h, rfl, by simp [Nat.mod_eq_of_lt h.masked], hP, fun _ _ => rfl⟩

theorem plain_means (hf : k.isFloat = false) (hw : k.width? = some w) (x : BitVec w) :
    (plain k x).Means P k x fun _ => x :=
  ⟨plain_fits hf hw x, rfl, rfl, fun _ _ _ ht => by simp [plain] at ht, fun _ _ => by
    simp [plain, symbol]⟩

namespace Means

theorem ofNat (h : v.Means P k x f) : BitVec.ofNat w v.bits = x := by
  rw [h.bits, BitVec.ofNat_toNat, BitVec.setWidth_eq]

theorem eq_of_isConcrete (h : v.Means P k x f) (hc : v.isConcrete) (hi : P i) : f i = x := by
  rw [← h.denote i hi, symbol_of_isConcrete hc, denote_const, h.ofNat]

theorem withTerm {t : Term} (hf : k.isFloat = false) (hw : k.width? = some w) (ht : t.Typed w)
    (hb : ∀ i, P i → i.Binds t) (hd : ∀ i, P i → t.denote i w = f i)
    (hc : t.isConstant → ∀ i, P i → f i = x) :
    (Value.withTerm ⟨k, x.toNat, none⟩ (some t)).Means P k x f where
  fits := withTerm_fits hf hw ht
  kind := rfl
  bits := rfl
  bound i hi s hs := by
    obtain ⟨rfl, -⟩ : t = s ∧ s.isConstant = false := by simpa [Value.withTerm] using hs
    exact hb i hi
  denote i hi := by
    rw [denote_withTerm]
    split
    next hs => exact (hc hs i hi).symm
    next => exact hd i hi

theorem toInt (h : v.Means P k x f) : v.toInt = .ok (k.read x) := by
  have concrete : v.toInt = (plain k x).toInt := by
    simp only [Value.toInt, plain, h.kind, h.bits]
  rw [concrete, toInt_eq (h.kind ▸ h.fits.exact) (h.kind ▸ h.fits.width)]

theorem evaluates (h : v.Means P k x f) (hi : P i) : v.Evaluates i (k.read (f i)) := by
  refine ⟨_, (h.fits.at_iff (h.bound i hi)).mpr rfl, ?_⟩
  rw [h.denote i hi, h.kind]
  exact toInt_eq (h.kind ▸ h.fits.exact) (h.kind ▸ h.fits.width) (f i)

end Means

end Value

namespace Operation

open Term

variable {P : Input → Prop} {op : Operation} {k k' kind : Kind} {w v u : Nat} {a c : Value}
  {x : BitVec w} {f : Input → BitVec w}

/-- An operation computes on the terms what it computes on the bits, unless its term folds and says
something else than the bits. -/
theorem apply_means (rest : List Value) {g : BitVec w → BitVec v → BitVec u} {y : BitVec v}
    {h : Input → BitVec v} (hg : Computes (op.build k) g) (ha : a.Means P k x f)
    (hb : (rest.headD a).Means P k' y h) (hf : kind.isFloat = false) (hu : kind.width? = some u)
    (hk : op.resultKind ((a :: rest).map (·.kind)) = .ok kind) (hz : op.isDivision = false)
    (hc : ∀ t, op.build k (a.symbol w) ((rest.headD a).symbol v) = .ok t → t.isConstant →
      ∀ i, P i → g (f i) (h i) = g x y) :
    ∃ r, op.apply (a :: rest) = .ok r ∧ r.Means P kind (g x y) fun i => g (f i) (h i) := by
  obtain rfl := ha.kind
  obtain ⟨t, ht, he⟩ := apply_of_fits rest hg ha.fits hb.fits hf hu hk (by simp [hz])
  obtain ⟨_, ht', htt, hot, hd, -⟩ := hg _ _ ha.fits.symbol_typed hb.fits.symbol_typed
  cases ht.symm.trans ht'
  rw [ha.ofNat, hb.ofNat] at he
  refine ⟨_, he, .withTerm hf hu htt (fun i hi p hp => ?_) (fun i hi => ?_) (hc t ht)⟩
  · exact (List.mem_append.mp (hot hp)).elim (Value.Fits.binds (ha.bound i hi) p)
      (Value.Fits.binds (hb.bound i hi) p)
  · rw [hd, ha.denote i hi, hb.denote i hi]

variable {y : BitVec w} {g : Input → BitVec w}

theorem eq_of_isConstant (ha : a.Means P k x f) (hc : c.Means P k y g)
    (h : (a.symbol w).isConstant ∧ (c.symbol w).isConstant) {i : Input} (hi : P i) :
    f i = x ∧ g i = y := by
  rw [ha.fits.isConstant_symbol, hc.fits.isConstant_symbol] at h
  exact ⟨ha.eq_of_isConcrete h.1 hi, hc.eq_of_isConcrete h.2 hi⟩

section Words

variable (hk : k ∈ [.int, .long]) (hw : k.width? = some w)
include hk hw

theorem width_word : w ≠ 1 := by
  rintro rfl
  revert k
  decide

theorem compare_means (op : Operation) {b : BinaryOp} (hop : op ∈ [.lt, .gt])
    (hb : op.test? true = some b) (ha : a.Means P k x f) (hc : c.Means P k y g) :
    ∃ r, op.apply [a, c] = .ok r ∧
      r.Means P .bool (BitVec.ofBool (b.test x y)) fun i => BitVec.ofBool (b.test (f i) (g i)) := by
  have hf := isFloat_word hk
  have signed : k.isSigned = true := by
    clear ha hc hw
    revert k
    decide
  have test : op.test? k.isSigned = some b := signed ▸ hb
  have kinds : op.resultKind ([a, c].map (·.kind)) = .ok .bool := by
    rw [List.map_cons, List.map_singleton, ha.kind, hc.kind]
    clear ha hc hw hb test signed
    revert k
    revert op
    decide
  have exact : op.isDivision = false := by
    clear hb test kinds
    revert op
    decide
  refine apply_means [c] (test_computes hf test) ha hc rfl rfl kinds exact
    fun t ht hcon i hi => ?_
  have hl := ha.fits.symbol_typed
  have hr := hc.fits.symbol_typed
  rw [build_test hf test] at ht
  have both : (a.symbol w).isConstant ∧ (c.symbol w).isConstant := by
    simp only [List.mem_cons, List.not_mem_nil, or_false] at hop
    rcases hop with rfl | rfl <;> cases hb
    · obtain ⟨_, hv, ht⟩ := bind_eq_ok ht
      cases (commonWidth_eq _ hl hr).symm.trans hv
      exact mkSlt_of_constant (width_word hk hw) ht hcon
    · obtain ⟨_, hv, ht⟩ := bind_eq_ok ht
      cases (commonWidth_eq _ hl hr).symm.trans hv
      exact (mkSlt_of_constant (width_word hk hw) ht hcon).symm
  obtain ⟨hx, hy⟩ := eq_of_isConstant ha hc both hi
  rw [hx, hy]

theorem neg_means (ha : a.Means P k x f) (hs : ∀ i, P i → a.Coherent i) :
    ∃ r, Operation.neg.apply [a] = .ok r ∧ r.Means P k (0 - x) fun i => 0 - f i := by
  have hf := isFloat_word hk
  have kinds : Operation.neg.resultKind ([a].map (·.kind)) = .ok k := by
    rw [List.map_singleton, ha.kind]
    clear ha hw
    revert k
    decide
  refine apply_means (g := fun x _ => 0 - x) [] (neg_computes hf hw) ha ha hf hw kinds rfl
    fun t ht hcon i hi => ?_
  rw [build_neg hf hw] at ht
  have folded := neg_of_constant ha.fits.symbol_typed ht hcon
  have own : f i = x := by
    cases he : a.expr with
    | none => exact ha.eq_of_isConcrete (by simp [Value.isConcrete, he]) hi
    | some s =>
      have symbol : a.symbol w = s := by simp [Value.symbol, he]
      have realised := (hs i hi s he).resolve_left (not_not.mpr (symbol ▸ folded))
      rw [← ha.denote i hi, ha.fits.denote_of_at (ha.bound i hi) realised, ha.ofNat]
  rw [own]

theorem cmp_means (ha : a.Means P k x f) (hc : c.Means P k y g) :
    ∃ r, Operation.cmp.apply [a, c] = .ok r ∧
      r.Means P .int (if x.slt y then 0xFFFFFFFF#32 else if x == y then 0#32 else 1#32) fun i =>
        if (f i).slt (g i) then 0xFFFFFFFF#32 else if f i == g i then 0#32 else 1#32 := by
  have kinds : Operation.cmp.resultKind ([a, c].map (·.kind)) = .ok .int := by
    rw [List.map_cons, List.map_singleton, ha.kind, hc.kind]
    exact (Signature.threeWay hk).resultKind
  have computes : Computes (Operation.cmp.build k) _ := buildThreeWay_computes (w := w)
  refine apply_means [c] computes ha hc rfl rfl kinds rfl fun t ht hcon i hi => ?_
  have hl := ha.fits.symbol_typed
  have hr := hc.fits.symbol_typed
  have constant := threeWay_of_constant hl hr (width_word hk hw) ht hcon
  obtain ⟨hx, hy⟩ := eq_of_isConstant ha hc constant hi
  rw [hx, hy]

end Words

end Operation

namespace Library

open Term

variable {P : Input → Prop} {name : String} {k : Kind} {w : Nat} {a b c : Value} {x y : BitVec w}
  {f g : Input → BitVec w}

theorem ofBool_inj {p q : Bool} : BitVec.ofBool p = BitVec.ofBool q ↔ p = q := by
  revert p q
  decide

theorem toBool_means {p : Bool} {q : Input → BitVec 1} (h : c.Means P .bool (BitVec.ofBool p) q) :
    c.toBool = p := by
  rw [Value.toBool, h.bits]
  cases p <;> rfl

theorem choose_means {p : Bool} {q : Input → Bool}
    (hc : c.Means P .bool (BitVec.ofBool p) fun i => BitVec.ofBool (q i)) (ha : a.Means P k x f)
    (hb : b.Means P k y g) :
    ∃ r, choose c a b = .ok r ∧
      r.Means P k (if p then x else y) fun i => if q i then f i else g i := by
  obtain ⟨t, ht, hi⟩ := mkIte_yields hc.fits.symbol_typed ha.fits.symbol_typed hb.fits.symbol_typed
  have chosen : (if p then a else b).concrete = ⟨k, (if p then x else y).toNat, none⟩ := by
    cases p
    · simp [Value.concrete, hb.kind, hb.bits]
    · simp [Value.concrete, ha.kind, ha.bits]
  rw [choose_eq hc.fits ha.fits hb.fits ht, toBool_means hc, chosen]
  refine ⟨_, rfl, .withTerm (ha.kind ▸ ha.fits.exact) (ha.kind ▸ ha.fits.width) hi.typed
    (fun i hP p hp => ?_) (fun i hP => ?_) fun hcon i hP => ?_⟩
  · have binds : i.Binds (ite (c.symbol 1) (a.symbol w) (b.symbol w)) := by
      intro p hp
      simp only [occurrences, List.mem_append] at hp
      rcases hp with (hp | hp) | hp
      · exact Value.Fits.binds (hc.bound i hP) p hp
      · exact Value.Fits.binds (ha.bound i hP) p hp
      · exact Value.Fits.binds (hb.bound i hP) p hp
    exact binds p (hi.bound hp)
  · rw [hi.means, denote_ite, hc.denote i hP, ha.denote i hP, hb.denote i hP]
    simp only [ofBool_eq_one]
  · by_cases hcc : c.isConcrete
    · have hq := ofBool_inj.mp (hc.eq_of_isConcrete hcc hP)
      rw [Value.symbol_of_isConcrete hcc, hc.ofNat, mkIte_literal] at ht
      obtain rfl := Except.ok.inj ht
      simp only [ofBool_eq_one] at hcon
      rw [hq]
      cases p
      · exact hb.eq_of_isConcrete (hb.fits.isConstant_symbol ▸ hcon) hP
      · exact ha.eq_of_isConcrete (ha.fits.isConstant_symbol ▸ hcon) hP
    · have undecided : (c.symbol 1).isConstant = false := by
        rw [hc.fits.isConstant_symbol]
        exact Bool.not_eq_true _ ▸ hcc
      obtain ⟨same, constant⟩ := mkIte_of_constant ht undecided hcon
      have hx := ha.eq_of_isConcrete (ha.fits.isConstant_symbol ▸ constant) hP
      have hy := hb.eq_of_isConcrete (hb.fits.isConstant_symbol ▸ same ▸ constant) hP
      have equal : f i = g i := by rw [← ha.denote i hP, same, hb.denote i hP]
      rw [equal, ite_self, ← hx, ← hy, equal, ite_self]

theorem applying_eq {op : Operation} {args : List Value} {r : Value}
    {next : Value → Except Defect ModelResult} (h : op.apply args = .ok r) :
    applying name op args next = next r := by
  rw [applying, h]

theorem onWords_eq (count : Nat) (args : List Value) {body : Kind → Except Defect ModelResult}
    (hk : k ∈ [.int, .long]) (hl : args.length = count) (hn : args ≠ [])
    (ha : ∀ a ∈ args, a.kind = k) : onWords name count args body = body k := by
  subst hl
  have head : (args.head?.map Value.kind).getD .invalid = k := by
    obtain ⟨a, rest, rfl⟩ := List.exists_cons_of_ne_nil hn
    exact ha a (by simp)
  have word : k.isWord := by
    clear ha head
    revert k
    decide
  have all : (args.all fun v => v.kind == k && k.isWord) = true := by
    simpa [List.all_eq_true, word] using ha
  simp only [onWords, ne_eq, not_true_eq_false, if_false, head, all, if_true]

theorem onWords_refuses {count : Nat} {args : List Value} {body : Kind → Except Defect ModelResult}
    (h : ¬(args.length = count ∧ ∃ k ∈ [Kind.int, .long], ∀ a ∈ args, a.kind = k)) :
    ∃ reason, onWords name count args body = .ok (.unsupported reason) := by
  unfold onWords
  split
  next => exact ⟨_, rfl⟩
  next hn =>
    simp only
    split
    next hall =>
      refine absurd ⟨not_not.mp hn, ?_⟩ h
      rw [List.all_eq_true] at hall
      cases args with
      | nil => exact ⟨.int, by simp, by simp⟩
      | cons a rest =>
        have word : a.kind.isWord := by simpa using hall a (by simp)
        refine ⟨a.kind, Operation.isWord_iff.mp word, fun b hb => ?_⟩
        have := hall b hb
        simp_all
    next => exact ⟨_, rfl⟩

theorem zero_eq (hw : k.width? = some w) : Value.zero k = .ok (.plain k 0#w) := by
  simp [Value.zero, Value.ofBits, Kind.width, hw, wrap, Value.plain]

section Words

variable (hk : k ∈ [.int, .long]) (hw : k.width? = some w)
include hk hw

open Operation

theorem abs_means (ha : a.Means P k x f) (hs : ∀ i, P i → a.Coherent i) :
    ∃ r, abs [a] = .ok (.ok r) ∧
      r.Means P k (if x.slt 0#w then 0#w - x else x)
        fun i => if (f i).slt 0#w then 0#w - f i else f i := by
  obtain ⟨n, hn, negative⟩ := compare_means hk hw .lt (by simp) rfl ha
    (Value.plain_means (isFloat_word hk) hw 0#w)
  obtain ⟨m, hm, minus⟩ := neg_means hk hw ha hs
  obtain ⟨r, hr, means⟩ := choose_means negative minus ha
  refine ⟨r, ?_, means⟩
  rw [abs, onWords_eq 1 [a] hk rfl (by simp) (by simp [ha.kind]), zero_eq hw]
  simp [applying_eq hn, applying_eq hm, hr]

theorem select_means {op : Operation} {q : BinaryOp} (hop : op ∈ [.lt, .gt])
    (hq : op.test? true = some q) (ha : a.Means P k x f) (hb : b.Means P k y g) :
    ∃ r, select name op [a, b] = .ok (.ok r) ∧
      r.Means P k (if q.test x y then x else y) fun i =>
        if q.test (f i) (g i) then f i else g i := by
  obtain ⟨n, hn, cond⟩ := compare_means hk hw op hop hq ha hb
  obtain ⟨r, hr, means⟩ := choose_means cond ha hb
  refine ⟨r, ?_, means⟩
  rw [select, onWords_eq 2 [a, b] hk rfl (by simp) (by simp [ha.kind, hb.kind]), applying_eq hn]
  simp [hr]

theorem signum_means (ha : a.Means P k x f) :
    ∃ r, signum [a] = .ok (.ok r) ∧
      r.Means P .int (if x.slt 0#w then 0xFFFFFFFF#32 else if x == 0#w then 0#32 else 1#32) fun i =>
        if (f i).slt 0#w then 0xFFFFFFFF#32 else if f i == 0#w then 0#32 else 1#32 := by
  obtain ⟨r, hr, means⟩ := cmp_means hk hw ha (Value.plain_means (isFloat_word hk) hw 0#w)
  refine ⟨r, ?_, means⟩
  rw [signum, onWords_eq 1 [a] hk rfl (by simp) (by simp [ha.kind]), zero_eq hw]
  exact applying_eq hr

end Words

end Library

/-- A routine on signed integers: the number of its arguments, the kind of its result for that of the
arguments, and what it computes of integers of a width. -/
structure Routine where
  name : String
  arity : Nat
  result : Kind → Kind
  compute : Nat → List Int → Int

namespace Routine

def absolute : Routine := ⟨"Math.abs", 1, id, fun w xs => |xs.headD 0|.bmod (2 ^ w)⟩

def maximum : Routine := ⟨"Math.max", 2, id, fun _ xs => max (xs.getD 0 0) (xs.getD 1 0)⟩

def minimum : Routine := ⟨"Math.min", 2, id, fun _ xs => min (xs.getD 0 0) (xs.getD 1 0)⟩

def sign (name : String) : Routine := ⟨name, 1, fun _ => .int, fun _ xs => (xs.headD 0).sign⟩

end Routine

def routines : List Routine :=
  [.absolute, .maximum, .minimum, .sign "Integer.signum", .sign "Long.signum"]

namespace Routine

open Library

/-- The standard library has a model of the routine. A call leaves the run as it is, and is refused
unless its arguments are all `int` or all `long` and as many as the routine takes. Otherwise the result
holds what the routine computes of the arguments' bits, and its term evaluates to what the routine
computes of what the arguments' terms evaluate to. -/
structure Modelled (r : Routine) : Prop where
  untouched (args : List Value) (s : RunState) :
    ∃ out, standard.invoke r.name args s = { result := out, state := s }
  refuses (args : List Value) (s : RunState) :
    ¬(args.length = r.arity ∧ ∃ k ∈ [Kind.int, .long], ∀ a ∈ args, a.kind = k) →
      ∃ reason, (standard.invoke r.name args s).result = .ok (.unsupported reason)
  computes (k : Kind) (w : Nat) (args : List Value) (s : RunState) :
    k ∈ [.int, .long] → k.width? = some w → args.length = r.arity →
    (∀ a ∈ args, a.WellFormed ∧ a.kind = k) →
      ∃ v, (standard.invoke r.name args s).result = .ok (.ok v) ∧ v.WellFormed ∧
        v.kind = r.result k ∧
        (∃ xs, List.Forall₂ (fun a x => a.toInt = .ok x) args xs ∧
          v.toInt = .ok (r.compute w xs)) ∧
        ∀ i, (∀ a ∈ args, a.Bound i) → (r.name = "Math.abs" → ∀ a ∈ args, a.Coherent i) →
          ∃ xs, List.Forall₂ (Value.Evaluates i) args xs ∧ v.Evaluates i (r.compute w xs)

variable {r : Routine}

theorem modelled_of {m : List Value → Except Defect ModelResult}
    (hm : standard.lookup r.name = some (.ofFunction m))
    (refuses : ∀ args, ¬(args.length = r.arity ∧ ∃ k ∈ [Kind.int, .long], ∀ a ∈ args, a.kind = k) →
      ∃ reason, m args = .ok (.unsupported reason))
    (means : ∀ (k : Kind) (w : Nat) (P : Input → Prop) (args : List Value)
      (ms : List (BitVec w × (Input → BitVec w))), k ∈ [.int, .long] → k.width? = some w →
      args.length = r.arity → List.Forall₂ (fun a m => a.Means P k m.1 m.2) args ms →
      (r.name = "Math.abs" → ∀ i, P i → ∀ a ∈ args, a.Coherent i) →
      ∃ (v : Value) (u : Nat) (x : BitVec u) (f : Input → BitVec u), m args = .ok (.ok v) ∧
        v.Means P (r.result k) x f ∧ (r.result k).read x = r.compute w (ms.map (·.1.toInt)) ∧
        ∀ i, (r.result k).read (f i) = r.compute w (ms.map fun m => (m.2 i).toInt)) :
    r.Modelled := by
  have invoke (args : List Value) (s : RunState) :
      standard.invoke r.name args s = { result := m args, state := s } := by
    rw [Library.invoke, hm]
    rfl
  refine ⟨fun args s => ⟨_, invoke args s⟩, fun args s h => ?_, fun k w args s hk hw hn ha => ?_⟩
  · obtain ⟨reason, h⟩ := refuses args h
    exact ⟨reason, by rw [invoke, h]⟩
  · let P : Input → Prop := fun i =>
      (∀ a ∈ args, a.Bound i) ∧ (r.name = "Math.abs" → ∀ a ∈ args, a.Coherent i)
    let ms : List (BitVec w × (Input → BitVec w)) :=
      args.map fun a => (BitVec.ofNat w a.bits, fun i => (a.symbol w).denote i w)
    have meanings : List.Forall₂ (fun a m => a.Means P k m.1 m.2) args ms := by
      refine List.forall₂_map_right_iff.mpr (List.forall₂_same.mpr fun a hm => ?_)
      obtain ⟨⟨v, fits⟩, rfl⟩ := ha a hm
      obtain rfl : v = w := Option.some.inj (fits.width.symm.trans hw)
      exact fits.means fun i hi => hi.1 a hm
    have read (x : BitVec w) : k.read x = x.toInt := Operation.read_word hk x
    obtain ⟨v, u, x, f, hv, mv, hx, hf⟩ :=
      means k w P args ms hk hw hn meanings fun he i hi => hi.2 he
    refine ⟨v, by rw [invoke, hv], ⟨u, mv.fits⟩, mv.kind, ⟨_, ?_, hx ▸ mv.toInt⟩,
      fun i hb hc => ⟨_, ?_, hf i ▸ mv.evaluates ⟨hb, hc⟩⟩⟩
    · exact List.forall₂_map_right_iff.mpr (meanings.imp fun a m h => read m.1 ▸ h.toInt)
    · exact List.forall₂_map_right_iff.mpr
        (meanings.imp fun a m h => read (m.2 i) ▸ h.evaluates ⟨hb, hc⟩)

section Read

variable {w : Nat} (x y : BitVec w)

theorem toInt_abs : (if x.slt 0#w then 0#w - x else x).toInt = |x.toInt|.bmod (2 ^ w) := by
  have lt : x.slt 0#w = decide (x.toInt < 0) := by simp [BitVec.slt]
  rw [lt]
  by_cases h : x.toInt < 0
  · rw [decide_eq_true h, if_pos rfl, abs_of_neg h, BitVec.zero_sub, BitVec.toInt_neg]
  · rw [decide_eq_false h, if_neg (by simp), abs_of_nonneg (not_lt.mp h), BitVec.toInt_bmod_cancel]

theorem toInt_max : (if y.slt x then x else y).toInt = max x.toInt y.toInt := by
  have lt : y.slt x = decide (y.toInt < x.toInt) := rfl
  rw [lt]
  by_cases h : y.toInt < x.toInt
  · rw [decide_eq_true h, if_pos rfl, max_eq_left h.le]
  · rw [decide_eq_false h, if_neg (by simp), max_eq_right (not_lt.mp h)]

theorem toInt_min : (if x.slt y then x else y).toInt = min x.toInt y.toInt := by
  have lt : x.slt y = decide (x.toInt < y.toInt) := rfl
  rw [lt]
  by_cases h : x.toInt < y.toInt
  · rw [decide_eq_true h, if_pos rfl, min_eq_left h.le]
  · rw [decide_eq_false h, if_neg (by simp), min_eq_right (not_lt.mp h)]

theorem toInt_sign :
    (if x.slt 0#w then 0xFFFFFFFF#32 else if x == 0#w then 0#32 else 1#32).toInt = x.toInt.sign := by
  rw [Operation.toInt_threeWay, BitVec.toInt_zero, Int.sub_zero]

end Read

theorem absolute_modelled : Modelled absolute := by
  have lookup : standard.lookup absolute.name = some (.ofFunction abs) := by
    simp [standard, lookup_register, absolute]
  refine modelled_of lookup (fun args h => onWords_refuses h) fun k w P args ms hk hw hn hm hs => ?_
  obtain ⟨a, rfl⟩ := List.length_eq_one_iff.mp hn
  cases hm with
  | cons ha hnil =>
    cases hnil
    obtain ⟨v, hv, means⟩ := abs_means hk hw ha fun i hi => hs rfl i hi a (by simp)
    have read (x : BitVec w) := (Operation.read_word hk _).trans (toInt_abs x)
    exact ⟨v, w, _, _, hv, means, read _, fun i => read _⟩

theorem select_modelled (op : Operation) {q : BinaryOp} (hop : op ∈ [.lt, .gt])
    (hq : op.test? true = some q)
    (hm : standard.lookup r.name = some (.ofFunction (select r.name op)))
    (hn : r.arity = 2) (hr : r.result = id) (hc : ∀ (w : Nat) (x y : BitVec w),
      (if q.test x y then x else y).toInt = r.compute w [x.toInt, y.toInt]) : r.Modelled := by
  refine modelled_of hm (fun args h => onWords_refuses (hn ▸ h))
    fun k w P args ms hk hw hl hm _ => ?_
  obtain ⟨a, b, rfl⟩ := List.length_eq_two.mp (hl.trans hn)
  cases hm with
  | cons ha hm =>
    cases hm with
    | cons hb hnil =>
      cases hnil
      obtain ⟨v, hv, means⟩ := select_means hk hw hop hq ha hb
      have read (x y : BitVec w) := (Operation.read_word hk _).trans (hc w x y)
      rw [hr]
      exact ⟨v, w, _, _, hv, means, read _ _, fun i => read _ _⟩

theorem sign_modelled {name : String} (hm : standard.lookup name = some (.ofFunction signum)) :
    Modelled (sign name) := by
  refine modelled_of hm (fun args h => onWords_refuses h) fun k w P args ms hk hw hl hm _ => ?_
  obtain ⟨a, rfl⟩ := List.length_eq_one_iff.mp hl
  cases hm with
  | cons ha hnil =>
    cases hnil
    obtain ⟨v, hv, means⟩ := signum_means hk hw ha
    exact ⟨v, 32, _, _, hv, means, toInt_sign _, fun i => toInt_sign _⟩

/-- Each routine is modelled as what it computes. -/
theorem integer_routines_are_modelled : ∀ r ∈ routines, r.Modelled := by
  have maximum : Modelled maximum := select_modelled .gt (by simp) rfl
    (by simp [standard, lookup_register, maximum]) rfl rfl fun _ x y => toInt_max x y
  have minimum : Modelled minimum := select_modelled .lt (by simp) rfl
    (by simp [standard, lookup_register, minimum]) rfl rfl fun _ x y => toInt_min x y
  have sign {name : String} (h : name = "Integer.signum" ∨ name = "Long.signum") :
      Modelled (sign name) := by
    apply sign_modelled
    rcases h with rfl | rfl <;> simp [standard, lookup_register]
  simp only [routines, List.forall_mem_cons, List.not_mem_nil, false_imp_iff, implies_true, and_true]
  exact ⟨absolute_modelled, maximum, minimum, sign (.inl rfl), sign (.inr rfl)⟩

def least : Value := ⟨.int, 0x80000000, some (.var "x" .int)⟩

def leastInput : Input := ⟨[("x", ⟨.int, 0x80000000, none⟩)]⟩

theorem integer_routines_are_modelled_least :
    absolute ∈ routines ∧ least.WellFormed ∧ least.Bound leastInput ∧ least.Coherent leastInput ∧
      ∀ s, ∃ v, (standard.invoke "Math.abs" [least] s).result = .ok (.ok v) ∧
        v.Evaluates leastInput (-2 ^ 31) := by
  have mem : absolute ∈ routines := by simp [routines]
  have fits : least.Fits 32 :=
    ⟨rfl, rfl, by decide, fun t ht => by cases ht; exact ⟨.var rfl rfl, rfl⟩⟩
  have bound : least.Bound leastInput := fun t ht => by cases ht; decide
  have coherent : least.Coherent leastInput := fun t ht => by cases ht; exact .inl (by decide)
  refine ⟨mem, ⟨32, fits⟩, bound, coherent, fun s => ?_⟩
  obtain ⟨v, hv, -, -, -, evaluates⟩ := (integer_routines_are_modelled absolute mem).computes .int 32
    [least] s (by simp) rfl rfl (by simpa using ⟨⟨32, fits⟩, rfl⟩)
  obtain ⟨xs, hxs, he⟩ := evaluates leastInput (by simpa using bound) fun _ => by simpa using coherent
  cases hxs with
  | cons hx hnil =>
    cases hnil
    obtain ⟨c, hc, hn⟩ := hx
    cases (fits.at_iff bound).mp hc
    cases hn
    exact ⟨v, hv, he⟩

def unfolded : Term := .binary .add (.const ⟨0xFFFFFFFF, 32⟩) (.const ⟨0xFFFFFFFE, 32⟩)

def incoherent : Value := ⟨.int, 7, some unfolded⟩

/-- The negation folds the sum, so that it negates the bits of the value and not what its term
evaluates to. -/
theorem absolute_of_incoherent :
    incoherent.WellFormed ∧ incoherent.Bound ∅ ∧ incoherent.Evaluates ∅ (-3) ∧
      ∀ s, ∃ v, (standard.invoke "Math.abs" [incoherent] s).result = .ok (.ok v) ∧
        v.Evaluates ∅ (-7) ∧ ¬v.Evaluates ∅ (absolute.compute 32 [-3]) := by
  have typed : unfolded.Typed 32 :=
    .arith rfl rfl (.const (by decide) (by decide) (by decide))
      (.const (by decide) (by decide) (by decide))
  let v : Value := ⟨.int, 7, some (.ite (.binary .slt unfolded (.const ⟨0, 32⟩))
    (.const ⟨0xFFFFFFF9, 32⟩) unfolded)⟩
  have result : abs [incoherent] = .ok (.ok v) := by decide
  have evaluates : v.Evaluates ∅ (-7) :=
    ⟨⟨.int, 0xFFFFFFF9, none⟩, ⟨.const ⟨0xFFFFFFF9, 32⟩, by decide, by decide⟩, by decide⟩
  refine ⟨⟨32, rfl, rfl, by decide, fun t ht => by cases ht; exact ⟨typed, rfl⟩⟩,
    fun t ht => by cases ht; decide, ?_, fun s => ⟨v, result, evaluates, fun h => ?_⟩⟩
  · exact ⟨⟨.int, 0xFFFFFFFD, none⟩, ⟨.const ⟨0xFFFFFFFD, 32⟩, by decide, by decide⟩, by decide⟩
  · exact absurd (evaluates.unique h) (by decide)

end Routine

end Concolic
