import Mathlib
import Concolic.Proofs.Literal
import Concolic.Proofs.Order
import Concolic.Proofs.Typing
import Concolic.Term.Eval

namespace Concolic

@[simp] theorem monadLift_ok {ε α : Type} (a : α) :
    (MonadLift.monadLift (Except.ok a : Except Defect α) : Except (Failure ε) α) = .ok a := rfl

@[simp] theorem liftM_ok {ε α : Type} (a : α) :
    (liftM (Except.ok a : Except Defect α) : Except (Failure ε) α) = .ok a := rfl

theorem liftM_eq_ok {ε α : Type} {x : Except Defect α} {a : α}
    (h : (liftM x : Except (Failure ε) α) = .ok a) : x = .ok a := by
  cases x with
  | error => cases h
  | ok b =>
    cases h
    rfl

theorem liftM_error_eq_ok {ε α : Type} {x : Except ε α} {a : α}
    (h : (liftM x : Except (Failure ε) α) = .ok a) : x = .ok a := by
  cases x with
  | error => cases h
  | ok b =>
    cases h
    rfl

namespace BinaryOp

variable {w : Nat}

def compute (op : BinaryOp) (x y : BitVec w) : BitVec w :=
  match op with
  | add => x + y
  | sub => x - y
  | mul => x * y
  | udiv => x.smtUDiv y
  | sdiv => x.smtSDiv y
  | urem => x % y
  | srem => x.srem y
  | and => x &&& y
  | or => x ||| y
  | xor => x ^^^ y
  | _ => 0

def move (op : BinaryOp) (x : BitVec w) (n : Nat) : BitVec w :=
  match op with
  | shl => x <<< n
  | lshr => x >>> n
  | ashr => x.sshiftRight n
  | _ => 0

def test (op : BinaryOp) (x y : BitVec w) : Bool :=
  match op with
  | eq => x == y
  | ne => x != y
  | ult => x.ult y
  | ule => x.ule y
  | ugt => y.ult x
  | uge => y.ule x
  | slt => x.slt y
  | sle => x.sle y
  | sgt => y.slt x
  | sge => y.sle x
  | _ => false

end BinaryOp

def Input.pattern (i : Input) (name : String) : Nat := ((i.get? name).getD default).bits

namespace Term

/-- The bits of a term at a width, which is that of the term where the term has one. Variables
without a value are read as zero. -/
def denote (i : Input) : Term → (w : Nat) → BitVec w
  | const c, w => BitVec.ofNat w c.value
  | var n _, w => BitVec.ofNat w ((i.get? n).getD default).bits
  | extract s o _, w => (s.denote i s.size).extractLsb' o w
  | not s, w => ~~~s.denote i w
  | cast s _ signed, w =>
    if signed then (s.denote i s.size).signExtend w else (s.denote i s.size).setWidth w
  | binary op l r, w =>
    if op.isCompare then
      (BitVec.ofBool (op.test (l.denote i l.size) (r.denote i l.size))).setWidth w
    else if op.isShift then op.move (l.denote i w) (r.denote i r.size).toNat
    else op.compute (l.denote i w) (r.denote i w)
  | ite c y n, w => if c.denote i 1 = 1#1 then y.denote i w else n.denote i w
  | hole, _ | fconst _, _ | convert _ _ _, _ | float _ _ _, _ => 0

section Denote

variable {i : Input} {s l r : Term} {op : BinaryOp} {v w : Nat}

@[simp] theorem denote_const (x : BitVec w) : (const (Literal.ofBits x)).denote i w = x := by
  simp [denote]

@[simp] theorem denote_add : (binary .add l r).denote i w = l.denote i w + r.denote i w := rfl

@[simp] theorem denote_sub : (binary .sub l r).denote i w = l.denote i w - r.denote i w := rfl

@[simp] theorem denote_mul : (binary .mul l r).denote i w = l.denote i w * r.denote i w := rfl

@[simp] theorem denote_and : (binary .and l r).denote i w = l.denote i w &&& r.denote i w := rfl

@[simp] theorem denote_or : (binary .or l r).denote i w = l.denote i w ||| r.denote i w := rfl

@[simp] theorem denote_xor : (binary .xor l r).denote i w = l.denote i w ^^^ r.denote i w := rfl

@[simp] theorem denote_not : (not s).denote i w = ~~~s.denote i w := rfl

theorem denote_extract (hs : s.Typed v) (o u : Nat) :
    (extract s o u).denote i w = (s.denote i v).extractLsb' o w := by
  rw [denote, hs.size]

theorem denote_cast (hs : s.Typed v) (u : Nat) (signed : Bool) :
    (cast s u signed).denote i w =
      if signed then (s.denote i v).signExtend w else (s.denote i v).setWidth w := by
  rw [denote, hs.size]

theorem denote_arith (ha : op.isArithmetic) (hs : op.isShift = false) :
    (binary op l r).denote i w = op.compute (l.denote i w) (r.denote i w) := by
  simp [denote, BinaryOp.isCompare_of_isArithmetic ha, hs]

theorem denote_shift (hs : op.isShift) (hr : r.Typed v) :
    (binary op l r).denote i w = op.move (l.denote i w) (r.denote i v).toNat := by
  rw [denote, if_neg (by simp [BinaryOp.isCompare_of_isShift hs]), if_pos hs, hr.size]

theorem denote_compare (hc : op.isCompare) (hl : l.Typed v) :
    (binary op l r).denote i 1 = BitVec.ofBool (op.test (l.denote i v) (r.denote i v)) := by
  rw [denote, if_pos hc, hl.size, BitVec.setWidth_eq]

theorem denote_ite {c y n : Term} : (ite c y n).denote i w =
    if c.denote i 1 = 1#1 then y.denote i w else n.denote i w := rfl

theorem denote_congr {j : Input} {t : Term} (ht : t.Typed w)
    (h : ∀ p ∈ t.occurrences, ∀ w, p.2.width? = some w →
      BitVec.ofNat w (i.pattern p.1) = BitVec.ofNat w (j.pattern p.1)) :
    t.denote i w = t.denote j w := by
  induction ht with
  | const => rfl
  | @var n k w _ hw => exact h (n, k) (by simp [occurrences]) w hw
  | extract hs _ _ ih => rw [denote_extract hs, denote_extract hs, ih h]
  | not _ ih => rw [denote_not, denote_not, ih h]
  | cast hs _ _ ih => rw [denote_cast hs, denote_cast hs, ih h]
  | arith ha hs _ _ ihl ihr =>
    rw [denote_arith ha hs, denote_arith ha hs,
      ihl fun p hp => h p (List.mem_append_left _ hp),
      ihr fun p hp => h p (List.mem_append_right _ hp)]
  | shift hs _ hr ihl ihr =>
    rw [denote_shift hs hr, denote_shift hs hr,
      ihl fun p hp => h p (List.mem_append_left _ hp),
      ihr fun p hp => h p (List.mem_append_right _ hp)]
  | compare hc hl _ ihl ihr =>
    rw [denote_compare hc hl, denote_compare hc hl,
      ihl fun p hp => h p (List.mem_append_left _ hp),
      ihr fun p hp => h p (List.mem_append_right _ hp)]
  | ite _ _ _ ihc ihy ihn =>
    rw [denote_ite, denote_ite, ihc fun p hp => h p (by simp [occurrences, hp]),
      ihy fun p hp => h p (by simp [occurrences, hp]),
      ihn fun p hp => h p (by simp [occurrences, hp])]

end Denote

open Literal

section Constants

variable {w v : Nat}

theorem Typed.eq_ofBits {c : Literal} (h : (Term.const c).Typed w) :
    ∃ x : BitVec w, c = ofBits x := by
  cases h with
  | const hp hl hv => exact ⟨BitVec.ofNat _ c.value, by simp [ofBits, Nat.mod_eq_of_lt hv]⟩

theorem typed_const (hw : 0 < w) (hl : w ≤ 64) (x : BitVec w) : (const (ofBits x)).Typed w :=
  .const hw hl x.isLt

theorem ofBool_eq_one (b : Bool) : BitVec.ofBool b = 1#1 ↔ b = true := by
  cases b <;> decide

theorem isTrue_const (x : BitVec 1) : (const (ofBits x)).isTrue = true ↔ x = 1#1 := by
  revert x
  decide

theorem add_eq_xor (x y : BitVec 1) : x + y = x ^^^ y := by
  revert x y
  decide

theorem sub_eq_xor (x y : BitVec 1) : x - y = x ^^^ y := by
  revert x y
  decide

theorem mkXor_const (hl : w ≤ 64) (x y : BitVec w) :
    mkXor (const (ofBits x)) (const (ofBits y)) = const (ofBits (x ^^^ y)) := by
  change (if x.toNat = 0 then _ else const ((ofBits x).xor (ofBits y))) = _
  rw [xor_ofBits hl]
  split <;> rename_i hx
  · rw [(toNat_eq_zero_iff x).mp hx, BitVec.zero_xor]
  · rfl

theorem mkAnd_const (hl : w ≤ 64) (x y : BitVec w) :
    mkAnd (const (ofBits x)) (const (ofBits y)) = const (ofBits (x &&& y)) :=
  congrArg const (and_ofBits hl x y)

theorem mkOr_const (hl : w ≤ 64) (x y : BitVec w) :
    mkOr (const (ofBits x)) (const (ofBits y)) = const (ofBits (x ||| y)) :=
  congrArg const (or_ofBits hl x y)

theorem mkMul_const (hl : w ≤ 64) (x y : BitVec w) :
    mkMul w (const (ofBits x)) (const (ofBits y)) = const (ofBits (x * y)) :=
  congrArg const (mul_ofBits hl x y)

theorem plus_const (hl : w ≤ 64) (x y : BitVec w) :
    plus (ofBits x) (const (ofBits y)) = .ok (const (ofBits (x + y))) := by
  simp only [plus, width_ofBits, value_ofBits, add_ofBits hl, mkXor_const hl]
  split
  · subst w
    rw [add_eq_xor]
    rfl
  · split <;> rename_i hx
    · rw [(toNat_eq_zero_iff x).mp hx, BitVec.zero_add]
      rfl
    · rfl

theorem minus_const (hl : w ≤ 64) (x y : BitVec w) :
    minus (ofBits x) (const (ofBits y)) = .ok (const (ofBits (x - y))) := by
  rw [minus, sub_ofBits hl]
  rfl

theorem mkAdd_const (hl : w ≤ 64) (x y : BitVec w) :
    mkAdd w (const (ofBits x)) (const (ofBits y)) = .ok (const (ofBits (x + y))) := by
  change (if w = 1 then Except.ok (mkXor (const (ofBits x)) (const (ofBits y))) else
    plus (ofBits x) (const (ofBits y))) = _
  rw [mkXor_const hl, plus_const hl]
  split
  · subst w
    rw [add_eq_xor]
  · rfl

theorem mkSub_const (hl : w ≤ 64) (x y : BitVec w) :
    mkSub w (const (ofBits x)) (const (ofBits y)) = .ok (const (ofBits (x - y))) := by
  simp only [mkSub, minus_const hl, ofNat_eq hl]
  split <;> rename_i hs
  · obtain rfl : x = y := by
      rw [same_iff, const.injEq] at hs
      exact ofBits_injective hs
    rw [BitVec.sub_self]
    rfl
  · rfl

theorem mkEq_const (x y : BitVec w) :
    mkEq (const (ofBits x)) (const (ofBits y)) = .ok (const (ofBits (BitVec.ofBool (x == y)))) :=
  congrArg (Except.ok ∘ const) (eq_ofBits x y)

theorem commonWidth_const (op : BinaryOp) (x y : BitVec w) :
    commonWidth op (const (ofBits x)) (const (ofBits y)) = .ok w := by
  simp [commonWidth, Term.width]

variable {op : BinaryOp}

theorem mkBinary_compute (hw : 0 < w) (hl : w ≤ 64) (ha : op.isArithmetic)
    (hs : op.isShift = false) (x y : BitVec w) :
    mkBinary op (const (ofBits x)) (const (ofBits y)) = .ok (const (ofBits (op.compute x y))) := by
  have e := commonWidth_const op x y
  cases op with
  | add => simp only [mkBinary, e]; exact mkAdd_const hl x y
  | sub => simp only [mkBinary, e]; exact mkSub_const hl x y
  | mul => simp only [mkBinary, e]; exact congrArg Except.ok (mkMul_const hl x y)
  | and => simp only [mkBinary, e]; exact congrArg Except.ok (mkAnd_const hl x y)
  | or => simp only [mkBinary, e]; exact congrArg Except.ok (mkOr_const hl x y)
  | xor => simp only [mkBinary, e]; exact congrArg Except.ok (mkXor_const hl x y)
  | udiv => simp only [mkBinary, e]; exact congrArg (Except.ok ∘ const) (udiv_ofBits hl x y)
  | urem => simp only [mkBinary, e]; exact congrArg (Except.ok ∘ const) (urem_ofBits hl x y)
  | sdiv => simp only [mkBinary, e]; exact congrArg (const <$> ·) (sdiv_ofBits hw hl x y)
  | srem => simp only [mkBinary, e]; exact congrArg (const <$> ·) (srem_ofBits hw hl x y)
  | _ => simp_all [BinaryOp.isArithmetic, BinaryOp.isShift]

theorem mkBinary_move (hw : 0 < w) (hl : w ≤ 64) (hs : op.isShift) (x : BitVec w) (y : BitVec v) :
    mkBinary op (const (ofBits x)) (const (ofBits y)) =
      .ok (const (ofBits (op.move x y.toNat))) := by
  cases op with
  | shl => exact congrArg (Except.ok ∘ const) (shl_ofBits hl x y)
  | lshr => exact congrArg (Except.ok ∘ const) (lshr_ofBits hl x y)
  | ashr => exact congrArg (Except.ok ∘ const) (ashr_ofBits hw hl x y)
  | _ => simp [BinaryOp.isShift] at hs

theorem mkBinary_test (hw : 0 < w) (hl : w ≤ 64) (hc : op.isCompare) (x y : BitVec w) :
    mkBinary op (const (ofBits x)) (const (ofBits y)) =
      .ok (const (ofBits (BitVec.ofBool (op.test x y)))) := by
  have e := commonWidth_const op x y
  cases op with
  | eq => simp only [mkBinary, e]; exact mkEq_const x y
  | ne =>
    simp only [mkBinary, e, ok_bind, mkEq_const, ofNat_eq (show 1 ≤ 64 by decide),
      commonWidth_const, BinaryOp.test, bne]
    cases x == y <;> rfl
  | ult => simp only [mkBinary, e]; exact congrArg (Except.ok ∘ const) (ult_ofBits x y)
  | ule => simp only [mkBinary, e]; exact congrArg (Except.ok ∘ const) (ule_ofBits x y)
  | ugt => simp only [mkBinary, e]; exact congrArg (Except.ok ∘ const) (ult_ofBits y x)
  | uge => simp only [mkBinary, e]; exact congrArg (Except.ok ∘ const) (ule_ofBits y x)
  | slt => simp only [mkBinary, e]; exact congrArg (Except.ok ∘ const) (slt_ofBits hw hl x y)
  | sle => simp only [mkBinary, e]; exact congrArg (Except.ok ∘ const) (sle_ofBits hw hl x y)
  | sgt => simp only [mkBinary, e]; exact congrArg (Except.ok ∘ const) (slt_ofBits hw hl y x)
  | sge => simp only [mkBinary, e]; exact congrArg (Except.ok ∘ const) (sle_ofBits hw hl y x)
  | _ => simp [BinaryOp.isCompare] at hc

theorem mkNot_const (hl : w ≤ 64) (x : BitVec w) :
    mkNot (const (ofBits x)) = const (ofBits (~~~x)) := congrArg const (not_ofBits hl x)

theorem offsetSum_eq {a b : Nat} (h : a + b ≤ 64) : offsetSum a b = a + b :=
  Nat.mod_eq_of_lt (Nat.lt_of_le_of_lt h (by decide))

theorem mkExtract_const (hl : w ≤ 64) (hv : 0 < v) (x : BitVec w) {o : Nat} (ho : o + v ≤ w) :
    mkExtract (const (ofBits x)) o v = .ok (const (ofBits (x.extractLsb' o v))) := by
  rw [mkExtract]
  simp only [Term.width, ok_bind, width_ofBits, offsetSum_eq (Nat.le_trans ho hl),
    Nat.not_lt.mpr ho, Nat.ne_of_gt hv, if_false]
  split <;> rename_i he
  · subst he
    obtain rfl : o = 0 := by omega
    simp
  · rw [extract_ofBits hl (by omega)]
    rfl

theorem mkCast_const (hw : 0 < w) (hl : w ≤ 64) (hv : 0 < v) (hv' : v ≤ 64) (x : BitVec w)
    (signed : Bool) :
    mkCast (const (ofBits x)) v signed =
      .ok (const (ofBits (if signed then x.signExtend v else x.setWidth v))) := by
  simp only [mkCast, Term.width, ok_bind, width_ofBits]
  split <;> rename_i he
  · subst he
    simp
  · split <;> rename_i hlt
    · rw [mkExtract_const hl hv x (by omega), ← BitVec.setWidth_eq_extractLsb' (by omega),
        BitVec.signExtend_eq_setWidth_of_le _ (by omega), ite_self]
    · cases signed
      · simp [zext_ofBits hv']
      · simp [sext_ofBits hw hl hv']

end Constants

theorem eval_eq {i : Input} {t : Term} {w : Nat} (h : t.Typed w) (hb : i.Binds t) :
    t.eval i = .ok (const (ofBits (t.denote i w))) := by
  induction h with
  | const hp hl hv => simp [eval, denote, ofBits, Nat.mod_eq_of_lt hv]
  | @var n k w hf hk =>
    obtain ⟨v, hv, rfl⟩ := Option.map_eq_some_iff.mp (hb (n, k) (by simp [occurrences]))
    have hl : w ≤ 64 := (Kind.width_bounds hk).2
    simp only [eval, hv, Value.literal, Kind.width, hk, hf, ok_bind, denote, ofNat_eq hl]
    rfl
  | extract hs hw ho ih =>
    rw [eval, ih hb, denote_extract hs]
    simp only [ok_bind, mkExtract_const hs.le hw _ ho]
    rfl
  | not hs ih =>
    rw [eval, ih hb]
    simp only [ok_bind, mkNot_const hs.le]
    rfl
  | cast hs hv hl ih =>
    have hw := Nat.lt_of_lt_of_le hs.pos hv
    rw [eval, ih hb, denote_cast hs]
    simp only [ok_bind, mkCast_const hs.pos hs.le hw hl]
    rfl
  | arith ha hn hl hr ihl ihr =>
    rw [eval, ihl hb.left, ihr hb.right, denote_arith ha hn]
    simp only [ok_bind, mkBinary_compute hl.pos hl.le ha hn]
    rfl
  | shift hs hl hr ihl ihr =>
    rw [eval, ihl hb.left, ihr hb.right, denote_shift hs hr]
    simp only [ok_bind, mkBinary_move hl.pos hl.le hs]
    rfl
  | compare hc hl hr ihl ihr =>
    rw [eval, ihl hb.left, ihr hb.right, denote_compare hc hl]
    simp only [ok_bind, mkBinary_test hl.pos hl.le hc]
    rfl
  | ite hc hy hn ihc ihy ihn =>
    rw [eval, ihc hb.cond, ihy hb.yes, ihn hb.no, denote]
    simp only [ok_bind, isTrue_const]
    split <;> rfl

theorem eval_bool {i : Input} {t : Term} (ht : t.Typed 1) (hb : i.Binds t) :
    t.eval i = .ok (.ofBool (decide (t.denote i 1 = 1#1))) := by
  rw [eval_eq ht hb]
  generalize t.denote i 1 = x
  revert x
  decide

end Term

end Concolic
