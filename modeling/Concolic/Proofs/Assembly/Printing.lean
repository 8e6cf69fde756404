import Mathlib
import Concolic.Proofs.Assembly.Language
import Concolic.Proofs.Assembly.Spelling

/-!
Printing the instructions of a program in its text. Main statement: the text in which every
instruction is printed on its line is read as the same program.
-/

namespace Concolic.Machine

namespace Instruction

variable {i : Instruction} {words : List String}

theorem Written.functional {j : Instruction} (hi : Written words i) (hj : Written words j) :
    i = j := by
  obtain ⟨w, -, args, rfl⟩ := hi.mnemonic
  exact Except.ok.inj ((read_of_written hi).symm.trans (read_of_written hj))

def unplaced (i : Instruction) : Instruction := { i with line := 0, target := 0 }

theorem Written.unplaced_eq (h : Written words i) : i.unplaced = i := by cases h <;> rfl

@[simp] theorem unplaced_point (f : Function) (i : Instruction) :
    (f.point i).unplaced = i.unplaced := by
  unfold Function.point
  split <;> rfl

end Instruction

structure Stands (l : Nat × List String) (i : Instruction) : Prop where
  line : i.line = l.1
  written : Instruction.Written l.2 i.unplaced

theorem Item.Written.stands {l : Nat × List String} {i : Instruction}
    (h : Item.Written l (.code i)) : Stands l i := by
  cases h with
  | code h => exact ⟨rfl, h.unplaced_eq.symm ▸ h⟩

theorem Stands.point {l : Nat × List String} {i : Instruction} (h : Stands l i) (f : Function) :
    Stands l (f.point i) where
  line := by
    rw [← h.line]
    unfold Function.point
    split <;> rfl
  written := by
    rw [Instruction.unplaced_point]
    exact h.written

/-- Two lines of words with one number are the same or denote the same instruction. -/
def Rewords (l l' : Nat × List String) : Prop :=
  l'.1 = l.1 ∧ (l'.2 = l.2 ∨ ∃ i, Instruction.Written l.2 i ∧ Instruction.Written l'.2 i)

namespace Rewords

variable {l l' : Nat × List String}

theorem eq_or (h : Rewords l l') :
    l' = l ∨ ∃ i, Instruction.Written l.2 i ∧ Instruction.Written l'.2 i :=
  h.2.imp_left fun hw => Prod.ext h.1 hw

theorem item {item : Item} (h : Rewords l l') (hi : Item.Written l item) :
    Item.Written l' item := by
  obtain rfl | ⟨i, hw, hw'⟩ := h.eq_or
  · exact hi
  · obtain ⟨n, words⟩ := l
    obtain ⟨n', words'⟩ := l'
    obtain rfl : n' = n := h.1
    cases hi with
    | label => exact absurd rfl (hw.ne_label _)
    | code hi =>
      obtain rfl := hi.functional hw
      exact .code hw'

theorem eq_nil_iff (h : Rewords l l') : l.2 = [] ↔ l'.2 = [] := by
  obtain ⟨-, hw | ⟨i, hi, hi'⟩⟩ := h
  · rw [hw]
  · obtain ⟨w, -, args, hw⟩ := hi.mnemonic
    obtain ⟨w', -, args', hw'⟩ := hi'.mnemonic
    simp [hw, hw']

theorem reserved {n : Nat} {w : String} {args : List String} (h : Rewords (n, w :: args) l')
    (hw : w = "func" ∨ w = "end") : l' = (n, w :: args) := by
  obtain rfl | ⟨i, hi, -⟩ := h.eq_or
  · rfl
  · obtain ⟨w', hm, args', he⟩ := hi.mnemonic
    obtain ⟨rfl, -⟩ := List.cons.inj he
    obtain ⟨hf, he⟩ := Instruction.mnemonics_reserved _ hm
    exact absurd hw (not_or.mpr ⟨hf, he⟩)

theorem body {lines tail lines' : List (Nat × List String)} {items : List Item}
    (h : List.Forall₂ Item.Written lines items) (hl : List.Forall₂ Rewords (lines ++ tail) lines') :
    ∃ body' tail', lines' = body' ++ tail' ∧ List.Forall₂ Item.Written body' items ∧
      List.Forall₂ Rewords tail tail' := by
  induction h generalizing lines' with
  | nil => exact ⟨[], lines', rfl, .nil, hl⟩
  | cons h _ ih =>
    obtain ⟨l', rest', hr, hrest, rfl⟩ := List.forall₂_cons_left_iff.mp hl
    obtain ⟨body', tail', rfl, hb, ht⟩ := ih hrest
    exact ⟨l' :: body', tail', rfl, .cons (hr.item h) hb, ht⟩

end Rewords

theorem Layout.rewords {lines lines' : List (Nat × List String)} {bs : List Block}
    (h : Layout lines bs) (hl : List.Forall₂ Rewords lines lines') : Layout lines' bs := by
  induction h generalizing lines' with
  | nil =>
    cases hl
    exact .nil
  | cons attributes body next ih =>
    -- The lines that begin and end the function are kept, and between them no item changes.
    obtain ⟨header, inner, hf, hinner, rfl⟩ := List.forall₂_cons_left_iff.mp hl
    obtain rfl := hf.reserved (.inl rfl)
    obtain ⟨body', tail', rfl, hb, ht⟩ := Rewords.body body hinner
    obtain ⟨footer, rest', he, hrest, rfl⟩ := List.forall₂_cons_left_iff.mp ht
    obtain rfl := he.reserved (.inr rfl)
    exact .cons attributes hb (ih hrest)

theorem exists_stands {lines : List (Nat × List String)} {items : List Item} (f : Function)
    (h : List.Forall₂ Item.Written lines items) :
    ∃ picked, picked.Sublist lines ∧
      List.Forall₂ Stands picked ((items.filterMap Item.code?).map f.point) := by
  induction h with
  | nil => exact ⟨[], List.Sublist.slnil, .nil⟩
  | @cons l item lines items h _ ih =>
    obtain ⟨picked, hs, hp⟩ := ih
    cases item with
    | label name => exact ⟨picked, hs.cons l, hp⟩
    | code i => exact ⟨l :: picked, hs.cons_cons l, .cons (h.stands.point f) hp⟩

theorem Layout.exists_stands {lines : List (Nat × List String)} {bs : List Block}
    (h : Layout lines bs) :
    ∃ picked, picked.Sublist lines ∧
      List.Forall₂ Stands picked ((bs.map Block.function).flatMap fun f => f.code.toList) := by
  induction h with
  | nil => exact ⟨[], List.Sublist.slnil, .nil⟩
  | @cons b bs first last words trailer lines rest attributes body next ih =>
    obtain ⟨later, hs, hp⟩ := ih
    obtain ⟨picked, hsb, hpb⟩ := Machine.exists_stands b.unresolved body
    refine ⟨picked ++ later, ?_, ?_⟩
    · exact (hsb.append (hs.cons _)).cons _
    · have hc : b.function.code.toList = b.code.map b.unresolved.point := by
        simp [Block.function, Block.unresolved]
      rw [List.map_cons, List.flatMap_cons, hc]
      exact List.rel_append hpb hp

theorem exists_of_forall₂ {α β : Type} {R : α → β → Prop} {as : List α} {bs : List β}
    (h : List.Forall₂ R as bs) {a : α} (ha : a ∈ as) : ∃ b ∈ bs, R a b := by
  induction h with
  | nil => cases ha
  | @cons c d as bs h _ ih =>
    obtain rfl | ha := List.mem_cons.mp ha
    · exact ⟨d, List.mem_cons_self, h⟩
    · obtain ⟨b, hb, hr⟩ := ih ha
      exact ⟨b, List.mem_cons_of_mem d hb, hr⟩

def IsMark (words : List String) : Prop :=
  words.head? = some "func" ∨ words.head? = some "end" ∨ ∃ name, words = [name ++ ":"]

theorem Layout.isMark_or {lines : List (Nat × List String)} {bs : List Block}
    (h : Layout lines bs) {l : Nat × List String} (hl : l ∈ lines) :
    IsMark l.2 ∨
      ∃ i ∈ (bs.map Block.function).flatMap fun f => f.code.toList, i.line = l.1 := by
  induction h with
  | nil => cases hl
  | @cons b bs first last words trailer lines rest attributes body next ih =>
    simp only [List.mem_cons, List.mem_append] at hl
    rw [List.map_cons, List.flatMap_cons]
    obtain rfl | hl | rfl | hl := hl
    · exact .inl (.inl rfl)
    · obtain ⟨item, hi, hw⟩ := exists_of_forall₂ body hl
      cases item with
      | label name =>
        cases hw
        exact .inl (.inr (.inr ⟨name, rfl⟩))
      | code i =>
        have hc : i ∈ b.code := List.mem_filterMap.mpr ⟨_, hi, rfl⟩
        have hf : b.unresolved.point i ∈ b.function.code.toList :=
          Array.mem_toList_iff.mpr (Array.mem_map_of_mem (List.mem_toArray.mpr hc))
        exact .inr ⟨_, List.mem_append_left _ hf, (hw.stands.point _).line⟩
    · exact .inl (.inr (.inl rfl))
    · refine (ih hl).imp_right ?_
      rintro ⟨i, hi, hn⟩
      exact ⟨i, List.mem_append_right _ hi, hn⟩

def Program.instructions (p : Program) : List Instruction :=
  p.functions.flatMap fun f => f.code.toList

def numberedLines (text : String) : List (String × Nat) := (textLines text).zipIdx 1

theorem mem_tokenLines {text : String} {l : Nat × List String} (h : l ∈ tokenLines text) :
    ∃ s, (s, l.1) ∈ numberedLines text ∧ l.2 = tokens s := by
  obtain ⟨h, -⟩ := List.mem_filter.mp h
  obtain ⟨⟨s, n⟩, hs, rfl⟩ := List.mem_map.mp h
  exact ⟨s, hs, rfl⟩

theorem numberedLines_functional {text s t : String} {n : Nat} (hs : (s, n) ∈ numberedLines text)
    (ht : (t, n) ∈ numberedLines text) : s = t := by
  obtain ⟨-, hs⟩ := List.mk_mem_zipIdx_iff_le_and_getElem?_sub.mp hs
  obtain ⟨-, ht⟩ := List.mk_mem_zipIdx_iff_le_and_getElem?_sub.mp ht
  exact Option.some.inj (hs.symm.trans ht)

theorem tokenLines_nodup (text : String) : ((tokenLines text).map Prod.fst).Nodup := by
  have hs : ((tokenLines text).map Prod.fst).Sublist
      (((numberedLines text).map fun l => (l.2, tokens l.1)).map Prod.fst) :=
    List.filter_sublist.map _
  have hr : ((numberedLines text).map fun l => (l.2, tokens l.1)).map Prod.fst =
      List.range' 1 (textLines text).length := by
    rw [List.map_map]
    exact List.zipIdx_map_snd 1 (textLines text)
  exact (List.nodup_range' 1).sublist (hr ▸ hs)

theorem newline_of_mem_textLines {text s : String} (h : s ∈ textLines text) : '\n' ∉ s.toList := by
  obtain ⟨cs, hc, rfl⟩ := List.mem_map.mp h
  rw [String.toList_ofList]
  exact fun hn => by simpa using Text.not_of_mem_splitOnP hc _ hn

theorem textLines_intercalate {ls : List String} (hne : ls ≠ []) (h : ∀ s ∈ ls, '\n' ∉ s.toList) :
    textLines (String.intercalate "\n" ls) = ls := by
  have hl : ∀ cs ∈ ls.map String.toList, '\n' ∉ cs := List.forall_mem_map.mpr h
  have hn : "\n".toList = ['\n'] := rfl
  rw [textLines, String.toList_intercalate, hn,
    List.splitOn_intercalate '\n' hl (by simpa using hne)]
  simp [Function.comp_def]

theorem Assembly.short_of_addLines {a b : Assembly} {line last : Nat} {lines : List String}
    (h : a.addLines line lines = .ok (b, last)) :
    ∀ s ∈ lines, s.utf8ByteSize < maxLineBytes := by
  induction lines generalizing a line with
  | nil => simp
  | cons s lines ih =>
    unfold addLines at h
    split at h
    · cases h
    next hs =>
      obtain ⟨a', -, h⟩ := bind_eq_ok h
      exact List.forall_mem_cons.mpr ⟨by omega, ih h⟩

theorem forall₂_numbered {lines : List String} {first : Nat} {g : String × Nat → String}
    (h : ∀ l ∈ lines.zipIdx first, Rewords (l.2, tokens l.1) (l.2, tokens (g l))) :
    List.Forall₂ Rewords (numbered first lines) (numbered first ((lines.zipIdx first).map g)) := by
  induction lines generalizing first with
  | nil => exact .nil
  | cons s lines ih =>
    rw [List.zipIdx_cons, List.forall_mem_cons] at h
    obtain ⟨hs, h⟩ := h
    rw [List.zipIdx_cons, List.map_cons, numbered_cons, numbered_cons]
    by_cases ht : tokens s = []
    · rw [if_pos ht, if_pos (hs.eq_nil_iff.mp ht)]
      exact ih h
    · rw [if_neg ht, if_neg (mt hs.eq_nil_iff.mpr ht)]
      exact .cons hs (ih h)

theorem zipIdx_map_zipIdx {lines : List String} {first : Nat} (g : String × Nat → String) :
    ((lines.zipIdx first).map g).zipIdx first = (lines.zipIdx first).map fun l => (g l, l.2) := by
  induction lines generalizing first with
  | nil => rfl
  | cons s lines ih => simp [List.zipIdx_cons, ih]

namespace Program

variable {p : Program} {text : String}

theorem short_of_parse (h : Program.parse text = .ok p) :
    ∀ s ∈ textLines text, s.utf8ByteSize < maxLineBytes := by
  obtain ⟨⟨a, last⟩, ha, -⟩ := bind_eq_ok h
  have hs := Assembly.short_of_addLines ha
  obtain ⟨tail, ht, hl⟩ := textLines_eq text
  rw [hl]
  refine List.forall_mem_append.mpr ⟨hs, fun s hm => ?_⟩
  obtain rfl : s = "" := by simpa using ht hm
  decide

theorem exists_layout (h : Program.parse text = .ok p) :
    ∃ bs, Layout (tokenLines text) bs ∧ p.functions = bs.map Block.function := by
  have short := short_of_parse h
  obtain ⟨hr, -⟩ := (Program.parse_eq_ok short).mp h
  obtain ⟨bs, hl⟩ := Assembly.follows_of_readLines tokenLines_ne_nil hr
  exact ⟨bs, hl, ((parse_eq_ok_of_layout short hl).mp h).2.1⟩

def printLine (p : Program) (l : String × Nat) : String :=
  ((p.instructions.find? (·.line == l.2)).map Instruction.text).getD l.1

def reprint (p : Program) (text : String) : String :=
  String.intercalate "\n" ((numberedLines text).map p.printLine)

theorem exists_stands (h : Program.parse text = .ok p) :
    ∃ picked, picked.Sublist (tokenLines text) ∧ List.Forall₂ Stands picked p.instructions := by
  obtain ⟨bs, hl, hf⟩ := exists_layout h
  rw [instructions, hf]
  exact hl.exists_stands

theorem instructions_nodup (h : Program.parse text = .ok p) :
    (p.instructions.map Instruction.line).Nodup := by
  obtain ⟨picked, hs, hp⟩ := exists_stands h
  have hl : picked.map Prod.fst = p.instructions.map Instruction.line := by
    rw [← List.forall₂_eq_eq_eq, List.forall₂_map_left_iff, List.forall₂_map_right_iff]
    exact hp.imp fun _ _ h => h.line.symm
  rw [← hl]
  exact (tokenLines_nodup text).sublist (hs.map _)

theorem exists_line (h : Program.parse text = .ok p) {i : Instruction} (hi : i ∈ p.instructions) :
    ∃ s, (s, i.line) ∈ numberedLines text ∧ Instruction.Written (tokens s) i.unplaced := by
  obtain ⟨picked, hs, hp⟩ := exists_stands h
  obtain ⟨l, hl, hst⟩ := exists_of_forall₂ (List.Forall₂.flip hp) hi
  obtain ⟨s, hsl, hw⟩ := mem_tokenLines (hs.mem hl)
  exact ⟨s, hst.line ▸ hsl, hw ▸ hst.written⟩

theorem printLine_cases (h : Program.parse text = .ok p) {l : String × Nat}
    (hl : l ∈ numberedLines text) :
    (p.printLine l = l.1 ∧ ∀ i ∈ p.instructions, i.line ≠ l.2) ∨
      ∃ i ∈ p.instructions, i.line = l.2 ∧ p.printLine l = i.text ∧
        Instruction.Written (tokens l.1) i.unplaced := by
  unfold printLine
  cases hf : p.instructions.find? (·.line == l.2) with
  | none =>
    refine .inl ⟨rfl, ?_⟩
    simpa using hf
  | some i =>
    have hi := List.mem_of_find?_eq_some hf
    have hn : i.line = l.2 := by simpa using List.find?_some hf
    obtain ⟨s, hs, hw⟩ := exists_line h hi
    obtain rfl := numberedLines_functional (hn ▸ hs) hl
    exact .inr ⟨i, hi, hn, rfl, hw⟩

section Printed

variable (h : Program.parse text = .ok p) (floatFree : ∀ i ∈ p.instructions, i.FloatFree)
  {l : String × Nat} (hl : l ∈ numberedLines text)

include h floatFree hl

theorem printLine_written : p.printLine l = l.1 ∨
    ∃ j, Instruction.Written (tokens l.1) j ∧ j.FloatFree ∧ p.printLine l = j.text := by
  obtain ⟨hp, -⟩ | ⟨i, hi, -, hp, hw⟩ := printLine_cases h hl
  · exact .inl hp
  · exact .inr ⟨i.unplaced, hw, floatFree i hi, hp⟩

theorem printLine_rewords : Rewords (l.2, tokens l.1) (l.2, tokens (p.printLine l)) := by
  refine ⟨rfl, ?_⟩
  obtain hp | ⟨j, hw, hj, hp⟩ := printLine_written h floatFree hl
  · exact .inl (by rw [hp])
  · rw [hp]
    exact .inr ⟨j, hw, hw.tokens_text hj fun _ => isToken_of_mem_tokens⟩

theorem newline_printLine : '\n' ∉ (p.printLine l).toList := by
  obtain hp | ⟨j, hw, hj, hp⟩ := printLine_written h floatFree hl
  · rw [hp]
    exact newline_of_mem_textLines (List.fst_mem_of_mem_zipIdx hl)
  · rw [hp]
    exact hw.newline_text hj fun _ => isToken_of_mem_tokens

theorem short_printLine : (p.printLine l).utf8ByteSize < maxLineBytes := by
  have hs := short_of_parse h _ (List.fst_mem_of_mem_zipIdx hl)
  obtain hp | ⟨j, hw, hj, hp⟩ := printLine_written h floatFree hl
  · rwa [hp]
  · have ht := hw.utf8ByteSize_text_lt hj
    have hb := wordBytes_tokens l.1
    rw [hp]
    unfold maxLineBytes at hs ⊢
    omega

end Printed

theorem textLines_reprint (h : Program.parse text = .ok p)
    (floatFree : ∀ i ∈ p.instructions, i.FloatFree) :
    textLines (p.reprint text) = (numberedLines text).map p.printLine := by
  refine textLines_intercalate ?_ (List.forall_mem_map.mpr fun l => newline_printLine h floatFree)
  simp [numberedLines, textLines, List.splitOn, List.splitOnP_ne_nil]

theorem parse_reprint (h : Program.parse text = .ok p)
    (floatFree : ∀ i ∈ p.instructions, i.FloatFree) : Program.parse (p.reprint text) = .ok p := by
  have hlines := textLines_reprint h floatFree
  have short : ∀ s ∈ textLines (p.reprint text), s.utf8ByteSize < maxLineBytes := by
    rw [hlines]
    exact List.forall_mem_map.mpr fun l => short_printLine h floatFree
  have reworded : List.Forall₂ Rewords (tokenLines text) (tokenLines (p.reprint text)) := by
    rw [tokenLines, tokenLines, hlines]
    exact forall₂_numbered fun l => printLine_rewords h floatFree
  obtain ⟨bs, hl, -⟩ := exists_layout h
  exact (parse_eq_ok_of_layout short (hl.rewords reworded)).mpr
    ((parse_eq_ok_of_layout (short_of_parse h) hl).mp h)

theorem numberedLines_reprint (h : Program.parse text = .ok p)
    (floatFree : ∀ i ∈ p.instructions, i.FloatFree) :
    numberedLines (p.reprint text) = (numberedLines text).map fun l => (p.printLine l, l.2) := by
  rw [numberedLines, textLines_reprint h floatFree]
  exact zipIdx_map_zipIdx p.printLine

theorem printLine_of_mem (h : Program.parse text = .ok p) {i : Instruction}
    (hi : i ∈ p.instructions) (s : String) : p.printLine (s, i.line) = i.text := by
  have found : (p.instructions.find? (·.line == i.line)).isSome = true :=
    List.find?_isSome.mpr ⟨i, hi, beq_self_eq_true i.line⟩
  obtain ⟨j, hj⟩ := Option.isSome_iff_exists.mp found
  have hl : j.line = i.line := by simpa using List.find?_some hj
  obtain rfl := List.inj_on_of_nodup_map (instructions_nodup h) (List.mem_of_find?_eq_some hj) hi hl
  simp [printLine, hj]

theorem isMark_of_kept (h : Program.parse text = .ok p) {l : String × Nat}
    (hl : l ∈ numberedLines text) (kept : ∀ i ∈ p.instructions, i.line ≠ l.2) :
    tokens l.1 = [] ∨ IsMark (tokens l.1) := by
  by_cases ht : tokens l.1 = []
  · exact .inl ht
  obtain ⟨bs, hb, hf⟩ := exists_layout h
  have hm : (l.2, tokens l.1) ∈ tokenLines text :=
    List.mem_filter.mpr ⟨List.mem_map.mpr ⟨l, hl, rfl⟩, by simpa using ht⟩
  obtain hm | ⟨i, hi, hn⟩ := hb.isMark_or hm
  · exact .inr hm
  · rw [← hf] at hi
    exact absurd hn (kept i hi)

/-- A text without floating-point constants in which every instruction is printed on its line, all
other lines kept, is read as the same program. -/
theorem reprinted_instructions_are_read_back {p : Program} {text : String}
    (h : Program.parse text = .ok p) (floatFree : ∀ i ∈ p.instructions, i.FloatFree) :
    Program.parse (p.reprint text) = .ok p ∧
    (textLines (p.reprint text)).length = (textLines text).length ∧
    (∀ i ∈ p.instructions, (i.text, i.line) ∈ numberedLines (p.reprint text) ∧
      ∃ s, (s, i.line) ∈ numberedLines text ∧ Instruction.Written (tokens s) i.unplaced) ∧
    ∀ l ∈ numberedLines text, (∀ i ∈ p.instructions, i.line ≠ l.2) →
      l ∈ numberedLines (p.reprint text) ∧ (tokens l.1 = [] ∨ IsMark (tokens l.1)) := by
  refine ⟨parse_reprint h floatFree, ?_, fun i hi => ?_, fun l hl kept => ?_⟩
  · rw [textLines_reprint h floatFree]
    simp [numberedLines]
  · obtain ⟨s, hs, hw⟩ := exists_line h hi
    refine ⟨?_, s, hs, hw⟩
    rw [numberedLines_reprint h floatFree]
    exact List.mem_map.mpr ⟨_, hs, by rw [printLine_of_mem h hi]⟩
  · refine ⟨?_, isMark_of_kept h hl kept⟩
    rw [numberedLines_reprint h floatFree]
    obtain ⟨hp, -⟩ | ⟨i, hi, hn, -⟩ := printLine_cases h hl
    · exact List.mem_map.mpr ⟨l, hl, by rw [hp]⟩
    · exact absurd hn (kept i hi)

def looseText : String :=
  "func main ; entry\n const LONG -0x8000_0000_0000_0000 # low\n store +00\nagain: # back\n" ++
    " jumpif again\n invoke f 007\n fault  two   words ; no\n halt\nend of main"

def loose : Program where
  functions := [
    { name := "main", labels := [("again", 2)], code := #[
        { opcode := .const, line := 2, value := { kind := .long, bits := 2 ^ 63 } },
        { opcode := .store, line := 3 },
        { opcode := .jumpif, line := 5, name := "again", target := 2 },
        { opcode := .invoke, line := 6, name := "f", count := 7 },
        { opcode := .fault, line := 7, name := "two words" },
        { opcode := .halt, line := 8 }] }]
  entry := "main"

def tidyText : String :=
  "func main ; entry\nconst long -9223372036854775808\nstore 0\nagain: # back\njumpif again\n" ++
    "invoke f 7\nfault two words\nhalt \nend of main"

theorem reprinted_instructions_are_read_back_loose :
    Program.parse looseText = .ok loose ∧ (∀ i ∈ loose.instructions, i.FloatFree) ∧
      loose.reprint looseText = tidyText ∧ Program.parse tidyText = .ok loose := by
  have hp : Program.parse looseText = .ok loose := by decide +kernel
  have floatFree : ∀ i ∈ loose.instructions, i.FloatFree := by decide +kernel
  have printed : loose.reprint looseText = tidyText := by decide +kernel
  exact ⟨hp, floatFree, printed, printed ▸ (reprinted_instructions_are_read_back hp floatFree).1⟩

end Program

end Concolic.Machine
