import Mathlib
import Concolic.Proofs.Assembly.Items
import Concolic.Proofs.Assembly.Words
import Concolic.Proofs.ValueText

namespace Concolic

namespace Kind

variable {k : Kind} {s : String}

theorem ofName?_mem (h : ofName? s = some k) : k ∈ all := List.mem_of_find?_eq_some h

theorem ofName?_name : ∀ k ∈ all, ofName? k.name = some k := by decide

theorem isToken_name : ∀ k ∈ all, Machine.IsToken k.name := by decide

theorem utf8ByteSize_name : ∀ k ∈ all, k.name.utf8ByteSize = k.name.toList.length := by decide

theorem utf8ByteSize_name_lt : ∀ k ∈ all, k.name.utf8ByteSize < 7 := by decide

theorem utf8ByteSize_name_le (h : ofName? s = some k) :
    k.name.utf8ByteSize ≤ s.utf8ByteSize := by
  have hs : s.toList.map foldCase = k.name.toList := by simpa using List.find?_some h
  calc k.name.utf8ByteSize = k.name.toList.length := utf8ByteSize_name k (ofName?_mem h)
    _ = s.toList.length := by rw [← hs, List.length_map]
    _ ≤ String.utf8Len s.toList := Text.length_le_utf8Len _
    _ = s.utf8ByteSize := String.utf8Len_toList s

end Kind

namespace Machine

theorem isBlank_of_isDecimal {c : Char} (h : Text.isDecimal c = true) : Text.isBlank c = false := by
  simp only [Text.isDecimal, Bool.and_eq_true, decide_eq_true_eq] at h
  have hl : 48 ≤ c.toNat := h.1
  have hu : c.toNat ≤ 57 := h.2
  simp only [Text.isBlank, Bool.or_eq_false_iff, Bool.and_eq_false_iff, decide_eq_false_iff_not]
  omega

theorem isToken_of_digits {word : String} (hne : word.toList ≠ [])
    (h : ∀ c ∈ word.toList, c = '-' ∨ Text.isDecimal c = true) : IsToken word := by
  refine ⟨hne, fun c hc => ?_, ?_⟩
  · obtain rfl | hc := h c hc
    · decide
    · exact isBlank_of_isDecimal hc
  · obtain ⟨c, cs, hw⟩ := List.exists_cons_of_ne_nil hne
    have hc := h c (by simp [hw])
    have hs : c ≠ ';' := by
      rintro rfl
      exact absurd hc (by decide)
    have hh : c ≠ '#' := by
      rintro rfl
      exact absurd hc (by decide)
    simp [isComment, hw, hs, hh]

theorem isToken_toString_int (z : Int) : IsToken (toString z) := by
  apply isToken_of_digits
  all_goals rw [Text.toList_toString_int]
  · split <;> simp [Nat.toDigits_ne_nil]
  · intro c hc
    split at hc
    · exact (List.mem_cons.mp hc).imp_right Text.isDecimal_of_mem_toDigits
    · exact .inr (Text.isDecimal_of_mem_toDigits hc)

theorem isToken_toString (n : Nat) : IsToken (toString n) := isToken_toString_int n

theorem isToken_format {v : Value} (hp : v.IsPlain) : IsToken v.format := by
  obtain h | ⟨z, -, h⟩ := Value.format_cases hp
  · have words : ∀ word ∈ ["true", "false"], IsToken word := by decide
    exact words _ h
  · rw [h]
    exact isToken_toString_int z

theorem utf8ByteSize_format_lt {v : Value} (hp : v.IsPlain) : v.format.utf8ByteSize < 22 := by
  obtain h | ⟨z, hz, h⟩ := Value.format_cases hp
  · have words : ∀ word ∈ ["true", "false"], word.utf8ByteSize < 22 := by decide
    exact words _ h
  · rw [h]
    exact Nat.lt_succ_of_le (Text.utf8ByteSize_toString_int_le (k := 20) (by omega) (by omega))

namespace Instruction

variable {i : Instruction} {words words' : List String}

def FloatFree (i : Instruction) : Prop := i.opcode = .const → i.value.kind.isFloat = false

instance (i : Instruction) : Decidable i.FloatFree := inferInstanceAs (Decidable (_ → _))

/-- An instruction that was read from words is printed as words that denote it. After a message
that is empty its space remains. -/
structure Respells (i : Instruction) (words words' : List String) : Prop where
  written : Written words' i
  tokens : (∀ w ∈ words, IsToken w) → ∀ w ∈ words', IsToken w
  bytes : wordBytes words' ≤ max 64 (wordBytes words)
  text : i.text = String.intercalate " " words' ∨
    ∃ op ∈ [Opcode.fault, .halt], i.text = op.name ++ " " ∧ words' = [op.name]

theorem Written.respells (h : Written words i) (ht : i.text = String.intercalate " " words) :
    Respells i words words := ⟨h, id, le_max_right _ _, .inl ht⟩

theorem respells_message (op : Opcode) (args : List String) (h : op ∈ [.fault, .halt]) :
    Respells { opcode := op, name := String.intercalate " " args } (op.name :: args)
      (op.name :: args) := by
  have ht : Instruction.text { opcode := op, name := String.intercalate " " args } =
      op.name ++ " " ++ String.intercalate " " args := by
    simp only [List.mem_cons, List.not_mem_nil, or_false] at h
    rcases h with rfl | rfl
    all_goals rfl
  refine ⟨.message op h, id, le_max_right _ _, ?_⟩
  cases args with
  | nil => exact .inr ⟨op, h, by simpa using ht, rfl⟩
  | cons w args => exact .inl (ht.trans String.intercalate_cons_cons.symm)

theorem respells_const {kind : Kind} {value : Value} {kindText text : String}
    (hk : Kind.ofName? kindText = some kind) (hv : Value.read kind text = .ok value)
    (hf : value.kind.isFloat = false) :
    Respells { opcode := .const, value } ["const", kindText, text]
      ["const", value.kind.name, value.format] := by
  obtain ⟨w, hw⟩ := Kind.ofName?_sized hk
  have plain := Value.read_isPlain hw hv hf
  obtain ⟨rfl, he⟩ := Value.read_concrete hv
  have hm := Kind.ofName?_mem hk
  have hr : Value.read value.kind value.format = .ok value := by
    obtain ⟨⟨w, -, hw, hb, -⟩, -⟩ := plain
    rw [Value.read_format hf hw hb, Value.concrete, ← he]
  refine ⟨.const (Kind.ofName?_name _ hm) hr, fun _ => ?_, le_max_of_le_left ?_, .inl ?_⟩
  · simp only [List.forall_mem_cons]
    exact ⟨by decide, Kind.isToken_name _ hm, isToken_format plain, List.forall_mem_nil _⟩
  · have hn := Kind.utf8ByteSize_name_lt _ hm
    have hl := utf8ByteSize_format_lt plain
    have hc : "const".utf8ByteSize = 5 := rfl
    simp only [wordBytes_cons, wordBytes_nil, hc]
    omega
  · apply String.toList_injective
    simp [Instruction.text]

theorem respells_input {kind : Kind} {name kindText : String}
    (hk : Kind.ofName? kindText = some kind) :
    Respells { opcode := .input, name, kind } ["input", name, kindText]
      ["input", name, kind.name] := by
  have hm := Kind.ofName?_mem hk
  refine ⟨.input (Kind.ofName?_name _ hm), fun hw => ?_, le_max_of_le_right ?_, .inl ?_⟩
  · simp only [List.forall_mem_cons] at hw ⊢
    exact ⟨hw.1, hw.2.1, Kind.isToken_name _ hm, List.forall_mem_nil _⟩
  · have hn := Kind.utf8ByteSize_name_le hk
    simp only [wordBytes_cons, wordBytes_nil]
    omega
  · apply String.toList_injective
    simp [Instruction.text]

theorem respells_slot (op : Opcode) {count : Nat} {text : String} (h : op ∈ [.load, .store])
    (hn : Text.decimal? text = some (count : Int)) :
    Respells { opcode := op, count } [op.name, text] [op.name, toString count] := by
  have hc := Text.decimal?_toString (Text.exists_digits_of_decimal? hn).1
  refine ⟨.slot op h hc, fun hw => ?_, le_max_of_le_right ?_, .inl ?_⟩
  · simp only [List.forall_mem_cons] at hw ⊢
    exact ⟨hw.1, isToken_toString count, List.forall_mem_nil _⟩
  · have hl := Text.utf8ByteSize_le_of_decimal? hn
    simp only [wordBytes_cons, wordBytes_nil]
    omega
  · simp only [List.mem_cons, List.not_mem_nil, or_false] at h
    rcases h with rfl | rfl
    all_goals rfl

theorem respells_invoke {count : Nat} {name text : String}
    (hn : Text.decimal? text = some (count : Int)) :
    Respells { opcode := .invoke, name, count } ["invoke", name, text]
      ["invoke", name, toString count] := by
  have hc := Text.decimal?_toString (Text.exists_digits_of_decimal? hn).1
  refine ⟨.invoke hc, fun hw => ?_, le_max_of_le_right ?_, .inl ?_⟩
  · simp only [List.forall_mem_cons] at hw ⊢
    exact ⟨hw.1, hw.2.1, isToken_toString count, List.forall_mem_nil _⟩
  · have hl := Text.utf8ByteSize_le_of_decimal? hn
    simp only [wordBytes_cons, wordBytes_nil]
    omega
  · apply String.toList_injective
    simp [Instruction.text]

namespace Written

theorem exists_respells (h : Written words i) (hi : i.FloatFree) :
    ∃ words', Respells i words words' := by
  cases h with
  | plain op h | target op h =>
    refine ⟨_, Written.respells ?_ ?_⟩
    · first | exact .plain op h | exact .target op h
    · simp only [List.mem_cons, List.not_mem_nil, or_false] at h
      rcases h with rfl | rfl | rfl | rfl | rfl
      all_goals rfl
  | message op h => exact ⟨_, respells_message op _ h⟩
  | const hk hv => exact ⟨_, respells_const hk hv (hi rfl)⟩
  | input hk => exact ⟨_, respells_input hk⟩
  | slot op h hn => exact ⟨_, respells_slot op h hn⟩
  | invoke hn => exact ⟨_, respells_invoke hn⟩
  | apply h => exact ⟨_, (Written.apply h).respells rfl⟩

theorem bare_message : ∀ op ∈ [Opcode.fault, .halt],
    Text.words (op.name ++ " ") = [op.name] ∧ '\n' ∉ (op.name ++ " ").toList ∧
      (op.name ++ " ").utf8ByteSize < 64 := by decide

theorem tokens_text (h : Written words i) (hi : i.FloatFree) (hw : ∀ w ∈ words, IsToken w) :
    Written (tokens i.text) i := by
  obtain ⟨words', hr⟩ := h.exists_respells hi
  have ht := hr.tokens hw
  have hwords : Text.words i.text = words' := by
    obtain he | ⟨op, hop, he, rfl⟩ := hr.text
    · rw [he, words_intercalate ht]
    · rw [he, (bare_message op hop).1]
  rw [tokens_of_words hwords ht]
  exact hr.written

theorem newline_text (h : Written words i) (hi : i.FloatFree) (hw : ∀ w ∈ words, IsToken w) :
    '\n' ∉ i.text.toList := by
  obtain ⟨words', hr⟩ := h.exists_respells hi
  obtain he | ⟨op, hop, he, -⟩ := hr.text
  · rw [he]
    exact newline_intercalate (hr.tokens hw)
  · rw [he]
    exact (bare_message op hop).2.1

theorem utf8ByteSize_text_lt (h : Written words i) (hi : i.FloatFree) :
    i.text.utf8ByteSize < max 64 (wordBytes words) := by
  obtain ⟨words', hr⟩ := h.exists_respells hi
  obtain he | ⟨op, hop, he, -⟩ := hr.text
  · have hb := hr.bytes
    obtain ⟨w, -, args, rfl⟩ := hr.written.mnemonic
    rwa [← wordBytes_intercalate, ← he] at hb
  · rw [he]
    exact lt_max_of_lt_left (bare_message op hop).2.2

end Written

end Instruction

end Machine

end Concolic
