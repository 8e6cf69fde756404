import Mathlib
import Concolic.Proofs.Safety.Operation

namespace Concolic

def Kind.Known (k : Kind) : Prop := k ∈ Kind.all ∨ k = .invalid

namespace Operation

def integerConversions : List (Operation × Kind × Kind) :=
  [(.i2l, .int, .long), (.l2i, .long, .int), (.i2b, .int, .byte), (.i2c, .int, .char),
    (.i2s, .int, .short), (.b2i, .byte, .int), (.c2i, .char, .int), (.s2i, .short, .int),
    (.z2i, .bool, .int)]

def floatConversions : List (Operation × Kind × Kind) :=
  [(.i2f, .int, .float), (.i2d, .int, .double), (.l2f, .long, .float), (.l2d, .long, .double),
    (.f2i, .float, .int), (.f2l, .float, .long), (.f2d, .float, .double), (.d2i, .double, .int),
    (.d2l, .double, .long), (.d2f, .double, .float)]

/-- The operand kinds that an operation takes, with the kind of its result. -/
inductive Signature : Operation → List Kind → Kind → Prop
  | equality {op : Operation} {k : Kind} : op ∈ [.eq, .ne] → k ∈ Kind.all → Signature op [k, k] .bool
  | ordering {op : Operation} {k : Kind} : op ∈ [.lt, .le, .gt, .ge] →
    k ∈ [.byte, .char, .short, .int, .long, .float, .double] → Signature op [k, k] .bool
  | threeWay {k : Kind} : k ∈ [.int, .long] → Signature .cmp [k, k] .int
  | floatThreeWay {op : Operation} {k : Kind} : op ∈ [.cmpl, .cmpg] → k ∈ [.float, .double] →
    Signature op [k, k] .int
  | arithmetic {op : Operation} {k : Kind} : op ∈ [.add, .sub, .mul, .div, .rem] →
    k ∈ [.int, .long, .float, .double] → Signature op [k, k] k
  | negation {k : Kind} : k ∈ [.int, .long, .float, .double] → Signature .neg [k] k
  | shift {op : Operation} {k : Kind} : op ∈ [.shl, .shr, .ushr] → k ∈ [.int, .long] →
    Signature op [k, .int] k
  | logic {op : Operation} {k : Kind} : op ∈ [.and, .or, .xor] → k ∈ [.int, .long, .bool] →
    Signature op [k, k] k
  | conversion {op : Operation} {k k' : Kind} : (op, k, k') ∈ integerConversions ++ floatConversions →
    Signature op [k] k'

variable {op : Operation} {kinds : List Kind} {k k' kind : Kind}

theorem conversion_iff :
    op.conversion? = some (k, k') ↔ (op, k, k') ∈ integerConversions ++ floatConversions := by
  have table : ∀ c ∈ integerConversions ++ floatConversions, c.1.conversion? = some c.2 := by decide
  refine ⟨fun h => ?_, table _⟩
  cases op <;> cases h <;> decide

theorem Signature.resultKind (h : Signature op kinds kind) : op.resultKind kinds = .ok kind := by
  cases h with
  | @equality _ k hop hk | @ordering _ k hop hk | @floatThreeWay _ k hop hk =>
    revert k
    revert op
    decide
  | arithmetic hop hk | shift hop hk | logic hop hk =>
    revert kind
    revert op
    decide
  | @threeWay k hk =>
    revert k
    decide
  | negation hk =>
    revert kind
    decide
  | conversion hc =>
    rw [← conversion_iff] at hc
    cases op <;> cases hc <;> rfl

theorem ordered_of_known (h : k.Known) (hi : k ≠ .invalid) (hb : k ≠ .bool) :
    k ∈ [.byte, .char, .short, .int, .long, .float, .double] := by
  have := h.resolve_right hi
  simpa [Kind.all, hb] using this

theorem isWord_iff : k.isWord = true ↔ k ∈ [.int, .long] := by
  cases k <;> simp [Kind.isWord]

theorem isFloat_iff : k.isFloat = true ↔ k ∈ [.float, .double] := by
  cases k <;> simp [Kind.isFloat]

theorem signature_of_resultOf (hk : k.Known) (h : op.resultOf k k' = .ok kind) :
    Signature op (if op.arity = 1 then [k] else [k, k']) kind := by
  unfold resultOf at h
  obtain ⟨hi, h⟩ := ite_error_iff.mp h
  split at h
  next source target hc =>
    obtain ⟨rfl, ⟨⟩⟩ := ite_ok_iff.mp h
    have : op.arity = 1 := by simp [arity, isConvert, hc]
    rw [if_pos this]
    exact .conversion (conversion_iff.mp hc)
  next hc =>
    have number : (k.isWord = true ∨ k.isFloat = true) ↔ k ∈ [.int, .long, .float, .double] := by
      rw [isWord_iff, isFloat_iff]
      simp [or_assoc]
    cases op with
    | eq | ne =>
      obtain ⟨rfl, ⟨⟩⟩ := ite_ok_iff.mp h
      exact .equality (by simp) (hk.resolve_right hi)
    | lt | le | gt | ge =>
      obtain ⟨he, h⟩ := ite_error_iff.mp h
      obtain ⟨hb, ⟨⟩⟩ := ite_error_iff.mp h
      obtain rfl := not_not.mp he
      exact .ordering (by simp) (ordered_of_known hk hi hb)
    | cmp =>
      obtain ⟨⟨rfl, hw⟩, ⟨⟩⟩ := ite_ok_iff.mp h
      exact .threeWay (isWord_iff.mp hw)
    | cmpl | cmpg =>
      obtain ⟨⟨rfl, hf⟩, ⟨⟩⟩ := ite_ok_iff.mp h
      exact .floatThreeWay (by simp) (isFloat_iff.mp hf)
    | shl | shr | ushr =>
      obtain ⟨hw, h⟩ := ite_error_iff.mp h
      obtain ⟨he, ⟨⟩⟩ := ite_error_iff.mp h
      obtain rfl := not_not.mp he
      exact .shift (by simp) (isWord_iff.mp (by simpa using hw))
    | and | or | xor =>
      obtain ⟨⟨rfl, hw⟩, ⟨⟩⟩ := ite_ok_iff.mp h
      rw [isWord_iff] at hw
      exact .logic (by simp) (by simpa [or_assoc] using hw)
    | neg =>
      obtain ⟨hn, ⟨⟩⟩ := ite_ok_iff.mp h
      exact .negation (number.mp hn)
    | add | sub | mul | div | rem =>
      obtain ⟨hn, h⟩ := ite_error_iff.mp h
      obtain ⟨he, ⟨⟩⟩ := ite_error_iff.mp h
      obtain rfl := not_not.mp he
      rw [Bool.not_eq_true', Bool.not_eq_false, Bool.or_eq_true] at hn
      exact .arithmetic (by simp) (number.mp hn)
    | unknown => cases h
    | _ => cases hc

theorem resultKind_iff {args : List Value} (hk : ∀ a ∈ args, a.kind.Known) :
    op.resultKind (args.map (·.kind)) = .ok kind ↔ Signature op (args.map (·.kind)) kind := by
  refine ⟨fun h => ?_, Signature.resultKind⟩
  obtain ⟨a, rest, rfl, hn, hr⟩ := resultKind_ok h
  have hs := signature_of_resultOf (hk a (by simp)) hr
  rcases op.arity_cases with h1 | h2
  · obtain rfl : rest = [] := List.length_eq_zero_iff.mp (by omega)
    rwa [if_pos h1] at hs
  · obtain ⟨b, rfl⟩ := List.length_eq_one_iff.mp (show rest.length = 1 by omega)
    rwa [if_neg (by omega)] at hs

theorem Signature.mem_all (h : Signature op kinds kind) : ∀ k ∈ kinds, k ∈ Kind.all := by
  cases h with
  | equality _ hk => simpa using hk
  | @ordering _ k _ hk | @floatThreeWay _ k _ hk | @threeWay k hk =>
    revert k
    decide
  | arithmetic _ hk | negation hk | shift _ hk | logic _ hk =>
    revert kind
    decide
  | conversion hc =>
    rw [← conversion_iff] at hc
    cases op <;> cases hc <;> decide

theorem resultKind_error {e : OperationError} (h : op.resultKind kinds = .error e) :
    ∃ fault, e = .operands op kinds fault := by
  simp only [resultKind] at h
  split at h
  next => cases h
  next fault _ =>
    cases h
    exact ⟨fault, rfl⟩

def DividesByZero (op : Operation) (args : List Value) : Prop :=
  op ∈ [.div, .rem] ∧ ∃ a b, args = [a, b] ∧ a.kind = b.kind ∧ b.kind ∈ [.int, .long] ∧ b.bits = 0

theorem DividesByZero.signature {args : List Value} (h : DividesByZero op args) :
    ∃ kind, Signature op (args.map (·.kind)) kind := by
  obtain ⟨hop, a, b, rfl, hab, hb, -⟩ := h
  refine ⟨b.kind, ?_⟩
  simp only [List.map_cons, List.map_nil, hab]
  exact .arithmetic (List.mem_append_right [Operation.add, .sub, .mul] hop)
    (List.mem_append_left [Kind.float, .double] hb)

theorem Signature.of_division (h : Signature op kinds kind) (hop : op ∈ [.div, .rem]) :
    kinds = [kind, kind] ∧ kind ∈ [.int, .long, .float, .double] := by
  cases h with
  | arithmetic _ hk => exact ⟨rfl, hk⟩
  | conversion hc =>
    rw [← conversion_iff] at hc
    cases op <;> simp_all [conversion?]
  | threeWay | negation => simp at hop
  | equality h | ordering h | floatThreeWay h | shift h | logic h =>
    simp only [List.mem_cons, List.not_mem_nil, or_false] at hop
    rcases hop with rfl | rfl <;> simp at h

theorem dividesByZero_iff {a : Value} {rest : List Value}
    (h : Signature op ((a :: rest).map (·.kind)) kind) :
    (op.isDivision && rest.any fun b => !b.kind.isFloat && b.bits = 0) = true ↔
      DividesByZero op (a :: rest) := by
  have hd : op.isDivision = true ↔ op ∈ [.div, .rem] := by
    cases op <;> simp [isDivision]
  have word : ∀ k ∈ [Kind.int, .long, .float, .double], k.isFloat = false ↔ k ∈ [.int, .long] := by
    decide
  rw [Bool.and_eq_true, hd, DividesByZero]
  refine and_congr_right fun hop => ?_
  obtain ⟨hk, hm⟩ := h.of_division hop
  simp only [List.map_cons, List.cons.injEq, List.map_eq_singleton_iff] at hk
  obtain ⟨ha, b, rfl, hb⟩ := hk
  simp [ha, hb, word kind hm]

section Errors

variable {args : List Value} (h : ∀ v ∈ args, v.Regular ∨ v = .unset)
include h

theorem known_of_operands : ∀ v ∈ args, v.kind.Known := by
  intro v hv
  rcases h v hv with ⟨s, hs, -⟩ | rfl
  · left
    revert hs
    cases v.kind <;> simp [Kind.all, Kind.shape?, Kind.width?]
  · exact .inr rfl

theorem apply_cases (op : Operation) :
    (∃ r, Signature op (args.map (·.kind)) r.kind ∧ ¬DividesByZero op args ∧ op.apply args = .ok r) ∨
    (∃ fault, (∀ kind, ¬Signature op (args.map (·.kind)) kind) ∧
      op.apply args = .error (.error (.operands op (args.map (·.kind)) fault))) ∨
    (DividesByZero op args ∧ op.apply args = .error (.error (.zeroDivisor op))) := by
  have known := known_of_operands h
  cases hk : op.resultKind (args.map (·.kind)) with
  | error e =>
    obtain ⟨fault, rfl⟩ := resultKind_error hk
    refine .inr (.inl ⟨fault, fun kind hs => ?_, apply_of_mistyped hk⟩)
    rw [hs.resultKind] at hk
    cases hk
  | ok kind =>
    have hs := (resultKind_iff known).mp hk
    have regular : ∀ v ∈ args, v.Regular := by
      intro v hv
      refine (h v hv).resolve_right ?_
      rintro rfl
      have := hs.mem_all _ (List.mem_map_of_mem hv)
      revert this
      decide
    obtain ⟨a, rest, rfl, -, -⟩ := resultKind_ok hk
    cases hz : op.isDivision && rest.any fun b => !b.kind.isFloat && b.bits = 0 with
    | true => exact .inr (.inr ⟨(dividesByZero_iff hs).mp hz, apply_of_zero hk hz⟩)
    | false =>
      obtain ⟨r, hr, -, rfl⟩ := exists_apply hk hz regular
      refine .inl ⟨r, hs, fun hd => ?_, hr⟩
      rw [(dividesByZero_iff hs).mpr hd] at hz
      cases hz

end Errors

structure Refusals (op : Operation) (args : List Value) : Prop where
  zeroDivisor : op.apply args = .error (.error (.zeroDivisor op)) ↔ DividesByZero op args
  operands : (∃ fault, op.apply args = .error (.error (.operands op (args.map (·.kind)) fault))) ↔
    ∀ kind, ¬Signature op (args.map (·.kind)) kind
  otherwise {kind : Kind} : Signature op (args.map (·.kind)) kind → ¬DividesByZero op args →
    ∃ r, op.apply args = .ok r ∧ r.kind = kind

theorem refusals {args : List Value} (h : ∀ v ∈ args, v.Regular ∨ v = .unset) (op : Operation) :
    Refusals op args := by
  rcases apply_cases h op with ⟨r, hs, hz, hr⟩ | ⟨fault, hs, hr⟩ | ⟨hz, hr⟩
  · refine ⟨by simp [hr, hz], ?_, fun hs' _ => ⟨r, hr, ?_⟩⟩
    · simp only [hr, reduceCtorEq, exists_false, false_iff, not_forall, not_not]
      exact ⟨_, hs⟩
    · exact Except.ok.inj (hs.resultKind.symm.trans hs'.resultKind)
  · refine ⟨?_, by simp [hr, hs], fun hs' => absurd hs' (hs _)⟩
    refine ⟨fun hz => by simp [hr] at hz, fun hz => ?_⟩
    obtain ⟨kind, hs'⟩ := hz.signature
    exact absurd hs' (hs kind)
  · refine ⟨by simp [hr, hz], ?_, fun _ hz' => absurd hz hz'⟩
    simpa [hr] using hz.signature

end Operation

end Concolic
