import Mathlib
import Concolic.Proofs.Assembly

namespace Concolic

namespace Text

theorem wordsFrom_eq (word cs : List Char) :
    wordsFrom word cs =
      (((cs.splitOnP isBlank).modifyHead (word.reverse ++ ·)).filter (· ≠ [])).map
        String.ofList := by
  induction cs generalizing word with
  | nil => cases word <;> simp [wordsFrom]
  | cons c cs ih =>
    obtain ⟨w, ws, hw⟩ := List.exists_cons_of_ne_nil (List.splitOnP_ne_nil isBlank cs)
    rw [wordsFrom, List.splitOnP_cons_eq_if_modifyHead, ih [], ih (c :: word), hw]
    by_cases hc : isBlank c
    · cases word <;> simp [hc]
    · simp [hc]

theorem words_eq (s : String) :
    words s = ((s.toList.splitOnP isBlank).filter (· ≠ [])).map String.ofList := by
  obtain ⟨w, ws, hw⟩ := List.exists_cons_of_ne_nil (List.splitOnP_ne_nil isBlank s.toList)
  rw [words, wordsFrom_eq, hw]
  rfl

end Text

namespace Machine

def textLines (text : String) : List String := (text.toList.splitOn '\n').map String.ofList

def isComment (word : String) : Bool :=
  word.toList.head? == some ';' || word.toList.head? == some '#'

def tokens (line : String) : List String :=
  (((line.toList.splitOnP Text.isBlank).filter (· ≠ [])).map String.ofList).takeWhile
    fun w => !isComment w

def numbered (first : Nat) (lines : List String) : List (Nat × List String) :=
  ((lines.zipIdx first).map fun l => (l.2, tokens l.1)).filter (·.2 ≠ [])

def tokenLines (text : String) : List (Nat × List String) := numbered 1 (textLines text)

theorem startsWith_singleton (w : String) (c : Char) :
    w.startsWith (String.singleton c) = (w.toList.head? == some c) := by
  rw [Bool.eq_iff_iff, String.startsWith_string_iff, String.toList_singleton]
  cases w.toList with
  | nil => simp
  | cons d ds => simpa using eq_comm

theorem lineWords_eq (line : String) : lineWords line = tokens line := by
  have hc (w : String) : (w.startsWith ";" || w.startsWith "#") = isComment w :=
    congrArg₂ (· || ·) (startsWith_singleton w ';') (startsWith_singleton w '#')
  simp only [lineWords, tokens, Text.words_eq, hc]

theorem linesFrom_eq (line cs : List Char) :
    ∃ tail ⊆ [""], ((cs.splitOn '\n').modifyHead (line.reverse ++ ·)).map String.ofList =
      linesFrom line cs ++ tail := by
  induction cs generalizing line with
  | nil =>
    cases line with
    | nil => exact ⟨[""], by simp, by simp [linesFrom]⟩
    | cons c line => exact ⟨[], by simp, by simp [linesFrom]⟩
  | cons c cs ih =>
    have hne : cs.splitOn '\n' ≠ [] := List.splitOnP_ne_nil _ cs
    obtain ⟨l, ls, hl⟩ := List.exists_cons_of_ne_nil hne
    by_cases hc : c = '\n'
    · obtain ⟨tail, ht, h⟩ := ih []
      refine ⟨tail, ht, ?_⟩
      simp_all [List.splitOn_cons_eq_if_modifyHead, linesFrom]
    · obtain ⟨tail, ht, h⟩ := ih (c :: line)
      refine ⟨tail, ht, ?_⟩
      simp_all [List.splitOn_cons_eq_if_modifyHead, linesFrom]

theorem textLines_eq (text : String) :
    ∃ tail ⊆ [""], textLines text = sourceLines text ++ tail := by
  obtain ⟨tail, ht, h⟩ := linesFrom_eq [] text.toList
  refine ⟨tail, ht, ?_⟩
  rw [sourceLines, ← h, textLines]
  cases text.toList.splitOn '\n' <;> rfl

theorem tokens_empty : tokens "" = [] := rfl

theorem numbered_cons (first : Nat) (line : String) (lines : List String) :
    numbered first (line :: lines) =
      if tokens line = [] then numbered (first + 1) lines
      else (first, tokens line) :: numbered (first + 1) lines := by
  by_cases h : tokens line = [] <;> simp [numbered, h]

theorem numbered_append_empty (first : Nat) (lines : List String) {tail : List String}
    (h : tail ⊆ [""]) : numbered first (lines ++ tail) = numbered first lines := by
  have hn (n : Nat) : numbered n tail = [] := by
    simp only [numbered, List.filter_eq_nil_iff, List.mem_map]
    rintro - ⟨⟨l, k⟩, hl, rfl⟩
    have : l = "" := by simpa using h (List.fst_mem_of_mem_zipIdx hl)
    simp [this, tokens_empty]
  have happ : numbered first (lines ++ tail) =
      numbered first lines ++ numbered (first + lines.length) tail := by
    simp [numbered, List.zipIdx_append]
  rw [happ, hn, List.append_nil]

namespace Assembly

variable {a b : Assembly}

def readLines (a : Assembly) (lines : List (Nat × List String)) : Except AssemblyError Assembly :=
  lines.foldlM (fun a l => a.addLine l.1 l.2) a

theorem addLines_eq_ok {lines : List String} {line : Nat}
    (short : ∀ s ∈ lines, s.utf8ByteSize < maxLineBytes) :
    (∃ last, a.addLines line lines = .ok (b, last)) ↔
      a.readLines (numbered line lines) = .ok b := by
  induction lines generalizing a line with
  | nil => simp [addLines, readLines, numbered]
  | cons s lines ih =>
    obtain ⟨hs, short⟩ := List.forall_mem_cons.mp short
    rw [addLines, if_neg (by omega), lineWords_eq, numbered_cons]
    by_cases h : tokens s = []
    · rw [if_pos h, h]
      exact ih short
    · rw [if_neg h, readLines, List.foldlM_cons]
      cases a.addLine line (tokens s) with
      | error e => simp [bind, Except.bind]
      | ok a' => exact ih short

end Assembly

/-- A text without lines that are too long is read as its numbered lines of words. -/
theorem Program.parse_eq_ok {text : String} {p : Program}
    (short : ∀ line ∈ textLines text, line.utf8ByteSize < maxLineBytes) :
    Program.parse text = .ok p ↔
      ({} : Assembly).readLines (tokenLines text) = .ok ⟨p.functions.reverse, none⟩ ∧ p.Linked := by
  obtain ⟨tail, ht, hl⟩ := textLines_eq text
  have short : ∀ line ∈ sourceLines text, line.utf8ByteSize < maxLineBytes :=
    fun line h => short line (by simp [hl, h])
  rw [tokenLines, hl, numbered_append_empty 1 _ ht, ← Assembly.addLines_eq_ok short, parse,
    bind_eq_ok_iff]
  constructor
  · rintro ⟨⟨⟨finished, current⟩, last⟩, ha, h⟩
    obtain ⟨rfl, hf, hp⟩ := Assembly.finish_eq_ok.mp h
    rw [hf, List.reverse_reverse]
    exact ⟨⟨last, ha⟩, hp⟩
  · rintro ⟨⟨last, ha⟩, hp⟩
    exact ⟨_, ha, Assembly.finish_eq_ok.mpr ⟨rfl, (List.reverse_reverse _).symm, hp⟩⟩

end Machine

end Concolic
