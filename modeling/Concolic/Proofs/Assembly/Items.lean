import Mathlib
import Concolic.Proofs.Assembly

namespace Concolic.Machine

theorem count?_eq_some {text : String} {n : Nat} :
    count? text = some n ↔ Text.decimal? text = some (n : Int) := by
  unfold count?
  cases Text.decimal? text with
  | none => simp
  | some i =>
    by_cases hi : 0 ≤ i
    · simp [hi]
      omega
    · simp [hi]
      omega

namespace Instruction

inductive Written : List String → Instruction → Prop
  | plain (op : Opcode) (h : op ∈ [.nop, .dup, .pop, .swap, .ret]) :
    Written [op.name] { opcode := op }
  | const {kind : Kind} {value : Value} {kindText text : String}
    (hk : Kind.ofName? kindText = some kind) (hv : Value.read kind text = .ok value) :
    Written ["const", kindText, text] { opcode := .const, value }
  | input {kind : Kind} {name kindText : String} (hk : Kind.ofName? kindText = some kind) :
    Written ["input", name, kindText] { opcode := .input, name, kind }
  | slot (op : Opcode) {count : Nat} {text : String} (h : op ∈ [.load, .store])
    (hn : Text.decimal? text = some (count : Int)) : Written [op.name, text] { opcode := op, count }
  | target (op : Opcode) {name : String} (h : op ∈ [.jump, .jumpif, .call]) :
    Written [op.name, name] { opcode := op, name }
  | invoke {count : Nat} {name text : String} (hn : Text.decimal? text = some (count : Int)) :
    Written ["invoke", name, text] { opcode := .invoke, name, count }
  | message (op : Opcode) {args : List String} (h : op ∈ [.fault, .halt]) :
    Written (op.name :: args) { opcode := op, name := String.intercalate " " args }
  | apply {operation : Operation} (h : operation ∈ Operation.all) :
    Written [operation.name] { opcode := .apply, operation }

def mnemonics : List String :=
  (Opcode.all.filter (· ≠ .apply)).map Opcode.name ++ Operation.all.map Operation.name

theorem mnemonics_reserved : ∀ w ∈ mnemonics, w ≠ "func" ∧ w ≠ "end" := by decide

theorem mnemonics_no_colon : ∀ w ∈ mnemonics, w.toList.getLast? ≠ some ':' := by decide

variable {words args : List String} {i : Instruction}

theorem Written.mnemonic (h : Written words i) : ∃ w ∈ mnemonics, ∃ args, words = w :: args := by
  cases h with
  | plain op h | slot op h | target op h | message op h =>
    refine ⟨_, ?_, _, rfl⟩
    simp only [List.mem_cons, List.not_mem_nil, or_false] at h
    rcases h with rfl | rfl | rfl | rfl | rfl
    all_goals decide
  | const | input | invoke => exact ⟨_, by decide, _, rfl⟩
  | apply h => exact ⟨_, List.mem_append_right _ (List.mem_map_of_mem h), _, rfl⟩

theorem read_operation : ∀ operation ∈ Operation.all,
    read operation.name [] = .ok { opcode := .apply, operation } := by decide

theorem read_of_written {name : String} (h : Written (name :: args) i) :
    read name args = .ok i := by
  cases h with
  | plain op h | target op h | message op h =>
    simp only [List.mem_cons, List.not_mem_nil, or_false] at h
    rcases h with rfl | rfl | rfl | rfl | rfl
    all_goals rfl
  | @const kind value kindText text hk hv =>
    change readConst kindText text = _
    simp only [readConst, hk, hv]
  | @input kind name kindText hk =>
    change readInput name kindText = _
    simp only [readInput, hk]
  | @slot op count text h hn =>
    simp only [List.mem_cons, List.not_mem_nil, or_false] at h
    rcases h with rfl | rfl
    · change readSlot .load text = _
      simp only [readSlot, count?_eq_some.mpr hn]
    · change readSlot .store text = _
      simp only [readSlot, count?_eq_some.mpr hn]
  | @invoke count name text hn =>
    change readInvoke name text = _
    simp only [readInvoke, count?_eq_some.mpr hn]
  | apply h => exact read_operation _ h

theorem written_of_plain (op : Opcode) (ho : op ∈ [.nop, .dup, .pop, .swap, .ret])
    (h : expecting op.name 0 args (.ok { opcode := op }) = .ok i) :
    Written (op.name :: args) i := by
  obtain ⟨hl, hx⟩ := expecting_eq_ok.mp h
  obtain rfl := List.length_eq_zero_iff.mp hl
  cases hx
  exact .plain op ho

theorem written_of_const
    (h : expecting "const" 2 args (readConst (args.getD 0 "") (args.getD 1 "")) = .ok i) :
    Written ("const" :: args) i := by
  obtain ⟨hl, hx⟩ := expecting_eq_ok.mp h
  obtain ⟨kindText, text, rfl⟩ := List.length_eq_two.mp hl
  unfold readConst at hx
  split at hx
  · cases hx
  next hk =>
    split at hx
    next hv =>
      cases hx
      exact .const hk hv
    next => cases hx

theorem written_of_input
    (h : expecting "input" 2 args (readInput (args.getD 0 "") (args.getD 1 "")) = .ok i) :
    Written ("input" :: args) i := by
  obtain ⟨hl, hx⟩ := expecting_eq_ok.mp h
  obtain ⟨name, kindText, rfl⟩ := List.length_eq_two.mp hl
  unfold readInput at hx
  split at hx
  · cases hx
  next hk =>
    cases hx
    exact .input hk

theorem written_of_slot (op : Opcode) (ho : op ∈ [.load, .store])
    (h : expecting op.name 1 args (readSlot op (args.getD 0 "")) = .ok i) :
    Written (op.name :: args) i := by
  obtain ⟨hl, hx⟩ := expecting_eq_ok.mp h
  obtain ⟨text, rfl⟩ := List.length_eq_one_iff.mp hl
  unfold readSlot at hx
  split at hx
  next hn =>
    cases hx
    exact .slot op ho (count?_eq_some.mp hn)
  next => cases hx

theorem written_of_target (op : Opcode) (ho : op ∈ [.jump, .jumpif, .call])
    (h : expecting op.name 1 args (.ok { opcode := op, name := args.getD 0 "" }) = .ok i) :
    Written (op.name :: args) i := by
  obtain ⟨hl, hx⟩ := expecting_eq_ok.mp h
  obtain ⟨name, rfl⟩ := List.length_eq_one_iff.mp hl
  cases hx
  exact .target op ho

theorem written_of_invoke
    (h : expecting "invoke" 2 args (readInvoke (args.getD 0 "") (args.getD 1 "")) = .ok i) :
    Written ("invoke" :: args) i := by
  obtain ⟨hl, hx⟩ := expecting_eq_ok.mp h
  obtain ⟨name, text, rfl⟩ := List.length_eq_two.mp hl
  unfold readInvoke at hx
  split at hx
  next hn =>
    cases hx
    exact .invoke (count?_eq_some.mp hn)
  next => cases hx

theorem written_of_message (op : Opcode) (ho : op ∈ [.fault, .halt])
    (h : .ok { opcode := op, name := String.intercalate " " args } =
      (.ok i : Except AssemblyFault Instruction)) : Written (op.name :: args) i := by
  cases h
  exact .message op ho

theorem written_of_apply {name : String} {operation : Operation}
    (ho : Operation.ofName? name = some operation)
    (h : expecting name 0 args (.ok { opcode := .apply, operation }) = .ok i) :
    Written (name :: args) i := by
  obtain ⟨hl, hx⟩ := expecting_eq_ok.mp h
  obtain rfl := List.length_eq_zero_iff.mp hl
  cases hx
  obtain rfl : operation.name = name := by simpa using List.find?_some ho
  exact .apply (List.mem_of_find?_eq_some ho)

theorem written_of_read {name : String} (h : read name args = .ok i) :
    Written (name :: args) i := by
  unfold read at h
  split at h
  case h_1 => exact written_of_plain .nop (by simp) h
  case h_2 => exact written_of_plain .dup (by simp) h
  case h_3 => exact written_of_plain .pop (by simp) h
  case h_4 => exact written_of_plain .swap (by simp) h
  case h_5 => exact written_of_plain .ret (by simp) h
  case h_6 => exact written_of_const h
  case h_7 => exact written_of_input h
  case h_8 => exact written_of_slot .load (by simp) h
  case h_9 => exact written_of_slot .store (by simp) h
  case h_10 => exact written_of_target .jump (by simp) h
  case h_11 => exact written_of_target .jumpif (by simp) h
  case h_12 => exact written_of_target .call (by simp) h
  case h_13 => exact written_of_invoke h
  case h_14 => exact written_of_message .fault (by simp) h
  case h_15 => exact written_of_message .halt (by simp) h
  case h_16 =>
    split at h
    next ho => exact written_of_apply ho h
    next => cases h

end Instruction

inductive Attribute
  | params (n : Nat)
  | locals (n : Nat)

namespace Attribute

inductive Written : String → Attribute → Prop
  | params {n : Nat} {text : String} (h : Text.decimal? text = some (n : Int)) :
    Written ("params=" ++ text) (.params n)
  | locals {n : Nat} {text : String} (h : Text.decimal? text = some (n : Int)) :
    Written ("locals=" ++ text) (.locals n)

def params? : Attribute → Option Nat
  | params n => some n
  | locals _ => none

def locals? : Attribute → Option Nat
  | params _ => none
  | locals n => some n

end Attribute

namespace Function

variable {f g : Function}

def set (f : Function) : Attribute → Function
  | .params n => { f with params := n }
  | .locals n => { f with locals := n }

theorem splitAttribute_append (key value : String) (h : '=' ∉ key.toList) :
    splitAttribute (key ++ "=" ++ value) = some (key, value) := by
  have hk : ∀ c ∈ key.toList, (c != '=') = true := by
    intro c hc
    simp only [bne_iff_ne]
    rintro rfl
    exact h hc
  simp [splitAttribute, List.span_eq_takeWhile_dropWhile, List.takeWhile_append_of_pos hk,
    List.dropWhile_append_of_pos hk]

theorem eq_of_splitAttribute {s key value : String} (h : splitAttribute s = some (key, value)) :
    s = key ++ "=" ++ value := by
  unfold splitAttribute at h
  rw [List.span_eq_takeWhile_dropWhile] at h
  split at h
  next c r hs =>
    obtain ⟨rfl, hd⟩ := Prod.mk.inj hs
    cases h
    have hc : c = '=' := by
      have hh := List.head_dropWhile_not (· != '=') (l := s.toList) (by simp [hd])
      simpa [hd] using hh
    apply String.toList_injective
    simp only [String.toList_append, String.toList_ofList]
    rw [List.append_assoc]
    calc s.toList = s.toList.takeWhile (· != '=') ++ s.toList.dropWhile (· != '=') :=
          List.takeWhile_append_dropWhile.symm
      _ = s.toList.takeWhile (· != '=') ++ ("=".toList ++ r) := by rw [hd, hc]; rfl
  next => cases h

theorem withAttribute_of_written {attr : String} {a : Attribute} (h : Attribute.Written attr a) :
    f.withAttribute attr = .ok (f.set a) := by
  cases h with
  | @params n text h =>
    have hs : splitAttribute ("params=" ++ text) = some ("params", text) :=
      splitAttribute_append "params" text (by decide)
    simp [withAttribute, hs, count?_eq_some.mpr h, set]
  | @locals n text h =>
    have hs : splitAttribute ("locals=" ++ text) = some ("locals", text) :=
      splitAttribute_append "locals" text (by decide)
    simp [withAttribute, hs, count?_eq_some.mpr h, set]

theorem written_of_withAttribute {attr : String} (h : f.withAttribute attr = .ok g) :
    ∃ a, Attribute.Written attr a := by
  unfold withAttribute at h
  split at h
  · cases h
  next key value hs =>
    obtain rfl := eq_of_splitAttribute hs
    split at h
    · cases h
    next n hn =>
      split at h
      next hk => exact ⟨.params n, hk ▸ .params (count?_eq_some.mp hn)⟩
      next =>
        split at h
        next hk => exact ⟨.locals n, hk ▸ .locals (count?_eq_some.mp hn)⟩
        next => cases h

theorem withAttributes_of_written {words : List String} {attributes : List Attribute}
    (h : List.Forall₂ Attribute.Written words attributes) :
    words.foldlM withAttribute f = .ok (attributes.foldl set f) := by
  induction h generalizing f with
  | nil => rfl
  | cons h _ ih =>
    rw [List.foldlM_cons, withAttribute_of_written h]
    exact ih

theorem written_of_withAttributes {words : List String} (h : words.foldlM withAttribute f = .ok g) :
    ∃ attributes, List.Forall₂ Attribute.Written words attributes := by
  induction words generalizing f with
  | nil => exact ⟨[], .nil⟩
  | cons word words ih =>
    rw [List.foldlM_cons] at h
    obtain ⟨f', hf, h⟩ := bind_eq_ok h
    obtain ⟨a, ha⟩ := written_of_withAttribute hf
    obtain ⟨as, has⟩ := ih h
    exact ⟨a :: as, .cons ha has⟩

end Function

inductive Item
  | label (name : String)
  | code (i : Instruction)

namespace Item

inductive Written : Nat × List String → Item → Prop
  | label {line : Nat} {name : String} : Written (line, [name ++ ":"]) (.label name)
  | code {line : Nat} {words : List String} {i : Instruction} (h : Instruction.Written words i) :
    Written (line, words) (.code { i with line })

def label? : Item → Option String
  | label name => some name
  | code _ => none

def code? : Item → Option Instruction
  | label _ => none
  | code i => some i

variable (name : String) (i : Instruction)

@[simp] theorem label?_label : (label name).label? = some name := rfl
@[simp] theorem label?_code : (code i).label? = none := rfl
@[simp] theorem code?_label : (label name).code? = none := rfl
@[simp] theorem code?_code : (code i).code? = some i := rfl

end Item

theorem endsWith_colon {word : String} : word.endsWith ":" = true ↔ ∃ name, word = name ++ ":" := by
  rw [← String.endsWith_toSlice, String.Slice.endsWith_string_iff, String.copy_toSlice]
  constructor
  · rintro ⟨cs, h⟩
    exact ⟨String.ofList cs, String.toList_injective (by simp [← h])⟩
  · rintro ⟨name, rfl⟩
    exact ⟨name.toList, by simp⟩

theorem Instruction.Written.ne_label {words : List String} {i : Instruction} (h : Written words i)
    (name : String) : words ≠ [name ++ ":"] := by
  rintro rfl
  obtain ⟨w, hw, args, he⟩ := h.mnemonic
  obtain ⟨rfl, -⟩ := List.cons.inj he
  exact mnemonics_no_colon _ hw (by simp)

theorem Item.Written.head {line : Nat} {words : List String} {item : Item}
    (h : Item.Written (line, words) item) :
    ∃ w args, words = w :: args ∧ w ≠ "func" ∧ w ≠ "end" := by
  cases h with
  | @label _ name =>
    have hl : (name ++ ":").toList.getLast? = some ':' := by simp
    refine ⟨_, _, rfl, ?_, ?_⟩
    all_goals
      intro he
      rw [he] at hl
      exact absurd hl (by decide)
  | code h =>
    obtain ⟨w, hw, args, rfl⟩ := h.mnemonic
    exact ⟨w, args, rfl, Instruction.mnemonics_reserved w hw⟩

namespace Function

def add (f : Function) : Item → Function
  | .label name => { f with labels := f.labels ++ [(name, f.code.size)] }
  | .code i => { f with code := f.code.push i }

def Admits (f : Function) (item : Item) : Prop := ∀ name ∈ item.label?, f.label? name = none

end Function

namespace Assembly

variable {f g : Function} {line : Nat} {word : String} {args : List String}

theorem extend_of_written {item : Item} (h : Item.Written (line, word :: args) item) :
    extend f line word args = .ok g ↔ f.Admits item ∧ g = f.add item := by
  cases h with
  | @label _ name =>
    have hw : (name ++ ":").endsWith ":" = true := endsWith_colon.mpr ⟨name, rfl⟩
    have hn : String.ofList (name ++ ":").toList.dropLast = name := by simp
    simp only [extend, hw, hn, List.isEmpty_nil, Bool.and_self, if_true, Function.Admits,
      Item.label?_label, Option.mem_some_iff, forall_eq']
    cases f.label? name <;> simp [Function.add, eq_comm]
  | @code _ _ i h =>
    have hw : (word.endsWith ":" && args.isEmpty) = false := by
      by_contra hc
      simp only [Bool.not_eq_false, Bool.and_eq_true, List.isEmpty_iff] at hc
      obtain ⟨⟨name, rfl⟩, rfl⟩ := And.imp_left endsWith_colon.mp hc
      exact h.ne_label name rfl
    rw [extend, hw, if_neg (by simp), Instruction.read_of_written h]
    simp [Function.Admits, Function.add, eq_comm]

theorem written_of_extend (h : extend f line word args = .ok g) :
    ∃ item, Item.Written (line, word :: args) item := by
  unfold extend at h
  split at h
  next hw =>
    simp only [Bool.and_eq_true, List.isEmpty_iff] at hw
    obtain ⟨⟨name, rfl⟩, rfl⟩ := And.imp_left endsWith_colon.mp hw
    exact ⟨.label name, .label⟩
  next =>
    obtain ⟨i, hi, -⟩ := bind_eq_ok h
    exact ⟨_, .code (Instruction.written_of_read hi)⟩

end Assembly

end Concolic.Machine
