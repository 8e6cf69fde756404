import Mathlib
import Concolic.Value.Text
import Concolic.Proofs.Denotation

namespace Concolic

theorem wrapInt_lt {w : Nat} (hw : w ≤ 64) (i : Int) : wrapInt w i < 2 ^ w := by
  have hp : (0 : Int) < 2 ^ w := by positivity
  have lt := Int.emod_lt_of_pos i hp
  have ge := Int.emod_nonneg i hp.ne'
  rw [wrapInt, patterns_eq hw]
  push_cast
  zify
  rw [Int.toNat_of_nonneg ge]
  exact lt

namespace Value

open Term

/-- Values of a bit-vector kind of a width. The term of a symbolic value is no literal. -/
structure Fits (v : Value) (w : Nat) : Prop where
  exact : v.kind.isFloat = false
  width : v.kind.width? = some w
  masked : v.bits < 2 ^ w
  typed : ∀ t ∈ v.expr, t.Typed w ∧ t.isConstant = false

def WellFormed (v : Value) : Prop := ∃ w, v.Fits w

def IsPlain (v : Value) : Prop := v.WellFormed ∧ v.expr = none

def Bound (i : Input) (v : Value) : Prop := ∀ t ∈ v.expr, i.Binds t

def evaluate (i : Input) (v : Value) : Except (Failure EvalError) Term := do (← v.term).eval i

def At (i : Input) (v c : Value) : Prop := ∃ t, v.evaluate i = .ok t ∧ ofTerm v.kind t = .ok c

def symbol (v : Value) (w : Nat) : Term :=
  v.expr.getD (.const (Literal.ofBits (BitVec.ofNat w v.bits)))

theorem ofTerm_const {k : Kind} {w : Nat} (hf : k.isFloat = false) (hw : k.width? = some w)
    (x : BitVec w) : ofTerm k (.const (Literal.ofBits x)) = .ok ⟨k, x.toNat, none⟩ := by
  have hl := (Kind.width_bounds hw).2
  simp [ofTerm, hf, Kind.width, hw, ofBits, wrap, patterns_eq hl, Nat.mod_eq_of_lt x.isLt]

theorem ofBits_of_ofTerm {k : Kind} {t : Term} {v : Value} (h : ofTerm k t = .ok v) :
    ∃ n, ofBits k n = .ok v := by
  cases t with
  | const c | fconst c =>
    simp only [ofTerm] at h
    split at h
    · cases h
    obtain ⟨w, -, h⟩ := bind_eq_ok h
    split at h
    · cases h
    exact ⟨_, liftM_eq_ok h⟩
  | _ => cases h

theorem ofTerm_ok {k : Kind} {t : Term} {v : Value} (h : ofTerm k t = .ok v) :
    v.kind = k ∧ ∃ w, k.width? = some w := by
  obtain ⟨n, h⟩ := ofBits_of_ofTerm h
  obtain ⟨w, hw, h⟩ := bind_eq_ok h
  cases h
  unfold Kind.width at hw
  split at hw
  next w' he => exact ⟨rfl, w', he⟩
  next => cases hw

theorem literal_of_ofTerm {k : Kind} {t : Term} {v : Value} {w : Nat} (ht : t.Typed w)
    (h : ofTerm k t = .ok v) : ∃ x : BitVec w, t = .const (Literal.ofBits x) := by
  cases ht with
  | const hp hl hv =>
    obtain ⟨x, hx⟩ := Typed.eq_ofBits (.const hp hl hv)
    exact ⟨x, congrArg _ hx⟩
  | _ => cases h

theorem symbol_of_isConcrete {v : Value} (h : v.isConcrete) (w : Nat) :
    v.symbol w = .const (Literal.ofBits (BitVec.ofNat w v.bits)) := by
  simp [symbol, Option.isNone_iff_eq_none.mp h]

namespace Fits

variable {v : Value} {w : Nat} {i : Input}

theorem pos (h : v.Fits w) : 0 < w := (Kind.width_bounds h.width).1

theorem le (h : v.Fits w) : w ≤ 64 := (Kind.width_bounds h.width).2

theorem literal (h : v.Fits w) :
    v.literal = .ok (.const (Literal.ofBits (BitVec.ofNat w v.bits))) := by
  have hl := (Kind.width_bounds h.width).2
  simp [Value.literal, Kind.width, h.width, h.exact, Literal.ofNat_eq hl]

theorem term (h : v.Fits w) : v.term = .ok (v.symbol w) := by
  unfold Value.term symbol
  cases v.expr with
  | none => exact h.literal
  | some t => rfl

theorem concrete_withTerm (h : v.Fits w) : v.concrete.withTerm (some (v.symbol w)) = v := by
  obtain ⟨k, n, e⟩ := v
  cases e with
  | none => rfl
  | some t => simp [withTerm, concrete, symbol, Option.filter, (h.typed t rfl).2]

theorem toBool (h : v.Fits 1) : v.toBool = decide (BitVec.ofNat 1 v.bits = 1#1) := by
  have := h.masked
  rw [Value.toBool]
  interval_cases v.bits <;> rfl

theorem symbol_typed (h : v.Fits w) : (v.symbol w).Typed w := by
  obtain ⟨hp, hl⟩ := Kind.width_bounds h.width
  unfold symbol
  cases he : v.expr with
  | none => exact typed_const hp hl _
  | some t => exact (h.typed t he).1

theorem binds (h : v.Bound i) : i.Binds (v.symbol w) := by
  unfold symbol
  cases he : v.expr with
  | none => simp [Input.Binds, occurrences]
  | some t => exact h t he

theorem evaluate (h : v.Fits w) (hb : v.Bound i) :
    v.evaluate i = .ok (.const (Literal.ofBits ((v.symbol w).denote i w))) := by
  simp only [Value.evaluate, h.term]
  exact eval_eq h.symbol_typed (binds hb)

theorem at_iff (h : v.Fits w) (hb : v.Bound i) {c : Value} :
    v.At i c ↔ c = ⟨v.kind, ((v.symbol w).denote i w).toNat, none⟩ := by
  simp [At, h.evaluate hb, ofTerm_const h.exact h.width, eq_comm]

theorem denote_of_at (h : v.Fits w) (hb : v.Bound i) (ha : v.At i v.concrete) :
    (v.symbol w).denote i w = BitVec.ofNat w v.bits := by
  have e := congrArg Value.bits ((h.at_iff hb).mp ha)
  simp only [concrete] at e
  rw [e, BitVec.ofNat_toNat, BitVec.setWidth_eq]

end Fits

section WithTerm

variable {k : Kind} {w : Nat} {t : Term} {x : BitVec w}

theorem withTerm_fits (hf : k.isFloat = false) (hw : k.width? = some w) (ht : t.Typed w) :
    (withTerm ⟨k, x.toNat, none⟩ (some t)).Fits w where
  exact := hf
  width := hw
  masked := x.isLt
  typed := fun s hs => by
    obtain ⟨rfl, hc⟩ : t = s ∧ s.isConstant = false := by simpa [withTerm] using hs
    exact ⟨ht, hc⟩

theorem symbol_withTerm : (withTerm ⟨k, x.toNat, none⟩ (some t)).symbol w =
    if t.isConstant then .const (Literal.ofBits x) else t := by
  cases h : t.isConstant <;> simp [withTerm, symbol, Option.filter, h]

theorem denote_withTerm {i : Input} : ((withTerm ⟨k, x.toNat, none⟩ (some t)).symbol w).denote i w =
    if t.isConstant then x else t.denote i w := by
  rw [symbol_withTerm]
  split
  · rw [denote_const]
  · rfl

theorem concrete_fits {v : Value} (h : v.Fits w) : (⟨v.kind, x.toNat, none⟩ : Value).Fits w :=
  ⟨h.exact, h.width, x.isLt, by simp⟩

end WithTerm

theorem readSigned?_lt {w n : Nat} {s : String} (hw : w ≤ 64) (h : readSigned? w s = some n) :
    n < 2 ^ w := by
  obtain ⟨i, -, hi⟩ := Option.bind_eq_some_iff.mp h
  split at hi
  · cases hi
    exact wrapInt_lt hw i
  · cases hi

theorem readBits?_lt {k : Kind} {w n : Nat} {s : String} (hf : k.isFloat = false)
    (hw : k.width? = some w) (h : readBits? k s = some n) : n < 2 ^ w := by
  cases k with
  | bool =>
    cases hw
    obtain ⟨b, -, rfl⟩ := Option.map_eq_some_iff.mp h
    cases b <;> decide
  | char =>
    cases hw
    obtain ⟨m, -, hm⟩ := Option.bind_eq_some_iff.mp h
    split at hm
    next hlt =>
      cases hm
      rwa [twoPow_eq] at hlt
    next => cases hm
  | byte | short | int | long =>
    cases hw
    exact readSigned?_lt (by decide) h
  | float | double => cases hf
  | unknown => cases hw

theorem read_isPlain {k : Kind} {w : Nat} {s : String} {v : Value} (hw : k.width? = some w)
    (h : read k s = .ok v) (hf : v.kind.isFloat = false) : v.IsPlain := by
  unfold read at h
  split at h
  next => cases hw
  next hb =>
    cases h
    exact ⟨⟨w, hf, hw, readBits?_lt hf hw hb, by simp⟩, rfl⟩
  next => cases h

theorem read_concrete {k : Kind} {s : String} {v : Value} (h : read k s = .ok v) :
    v.kind = k ∧ v.expr = none := by
  unfold read at h
  split at h
  next => cases h
  next =>
    cases h
    exact ⟨rfl, rfl⟩
  next => cases h

end Value

end Concolic
