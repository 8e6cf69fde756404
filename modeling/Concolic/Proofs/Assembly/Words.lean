import Mathlib
import Concolic.Proofs.Assembly.Lines

namespace Concolic

namespace Text

theorem words_append_space (s t : String) : words (s ++ " " ++ t) = words s ++ words t := by
  have hs : (s ++ " " ++ t).toList = s.toList ++ ' ' :: t.toList := by simp
  have hp : (s.toList ++ ' ' :: t.toList).splitOnP isBlank =
      s.toList.splitOnP isBlank ++ t.toList.splitOnP isBlank :=
    List.splitOnP_append_cons _ _ (by decide)
  rw [words_eq, hs, hp, List.filter_append, List.map_append, ← words_eq, ← words_eq]

theorem words_of_solid {s : String} (hs : s.toList ≠ [])
    (h : ∀ c ∈ s.toList, isBlank c = false) : words s = [s] := by
  simp [words_eq, List.splitOnP_eq_singleton h, hs]

theorem not_of_mem_splitOnP {p : Char → Bool} {cs word : List Char} (h : word ∈ cs.splitOnP p) :
    ∀ c ∈ word, p c = false := by
  induction cs generalizing word with
  | nil => simp_all
  | cons d cs ih =>
    rw [List.splitOnP_cons_eq_if_modifyHead] at h
    split at h
    · obtain rfl | h := List.mem_cons.mp h
      · simp
      · exact ih h
    next hd =>
      obtain ⟨w, ws, hw⟩ := List.exists_cons_of_ne_nil (List.splitOnP_ne_nil p cs)
      rw [hw, List.modifyHead_cons] at h
      rw [hw] at ih
      obtain rfl | h := List.mem_cons.mp h
      · exact List.forall_mem_cons.mpr ⟨by simpa using hd, ih List.mem_cons_self⟩
      · exact ih (List.mem_cons_of_mem w h)

theorem mem_words {s word : String} (h : word ∈ words s) :
    word.toList ≠ [] ∧ ∀ c ∈ word.toList, isBlank c = false := by
  rw [words_eq] at h
  obtain ⟨cs, hc, rfl⟩ := List.mem_map.mp h
  obtain ⟨hc, hne⟩ := List.mem_filter.mp hc
  rw [String.toList_ofList]
  exact ⟨by simpa using hne, not_of_mem_splitOnP hc⟩

end Text

namespace Machine

/-- A word that a line can be made of: it is not empty, has no white space and begins no comment. -/
def IsToken (word : String) : Prop :=
  word.toList ≠ [] ∧ (∀ c ∈ word.toList, Text.isBlank c = false) ∧ isComment word = false

instance (word : String) : Decidable (IsToken word) :=
  -- The letters of the word are tried, not all there are.
  have : Decidable (∀ c ∈ word.toList, Text.isBlank c = false) := List.decidableBAll _ _
  inferInstanceAs (Decidable (_ ∧ _ ∧ _))

variable {word line : String} {ws : List String}

theorem tokens_eq (line : String) :
    tokens line = (Text.words line).takeWhile fun w => !isComment w := by
  rw [tokens, Text.words_eq]

theorem isToken_of_mem_tokens (h : word ∈ tokens line) : IsToken word := by
  rw [tokens_eq] at h
  obtain ⟨hne, hb⟩ := Text.mem_words ((List.takeWhile_sublist _).mem h)
  exact ⟨hne, hb, by simpa using List.mem_takeWhile_imp h⟩

namespace IsToken

theorem words_eq (h : IsToken word) : Text.words word = [word] := Text.words_of_solid h.1 h.2.1

theorem newline (h : IsToken word) : '\n' ∉ word.toList :=
  fun hc => absurd (h.2.1 _ hc) (by decide)

end IsToken

theorem words_intercalate (h : ∀ w ∈ ws, IsToken w) :
    Text.words (String.intercalate " " ws) = ws := by
  induction ws with
  | nil => rfl
  | cons w ws ih =>
    obtain ⟨hw, h⟩ := List.forall_mem_cons.mp h
    cases ws with
    | nil => rw [String.intercalate_singleton, hw.words_eq]
    | cons w' ws =>
      rw [String.intercalate_cons_cons, Text.words_append_space, hw.words_eq, ih h,
        List.singleton_append]

theorem newline_intercalate (h : ∀ w ∈ ws, IsToken w) :
    '\n' ∉ (String.intercalate " " ws).toList := by
  induction ws with
  | nil => simp
  | cons w ws ih =>
    obtain ⟨hw, h⟩ := List.forall_mem_cons.mp h
    cases ws with
    | nil => simpa using hw.newline
    | cons w' ws =>
      rw [String.intercalate_cons_cons, String.toList_append, String.toList_append, List.mem_append,
        List.mem_append]
      rintro ((hc | hc) | hc)
      · exact hw.newline hc
      · exact absurd hc (by decide)
      · exact ih h hc

theorem tokens_of_words (hl : Text.words line = ws) (h : ∀ w ∈ ws, IsToken w) :
    tokens line = ws := by
  rw [tokens_eq, hl, List.takeWhile_eq_self_iff]
  exact fun w hw => by simp [(h w hw).2.2]

def wordBytes (ws : List String) : Nat := (ws.map fun w => w.utf8ByteSize + 1).sum

@[simp] theorem wordBytes_nil : wordBytes [] = 0 := rfl

@[simp] theorem wordBytes_cons (w : String) (ws : List String) :
    wordBytes (w :: ws) = w.utf8ByteSize + 1 + wordBytes ws := rfl

theorem wordBytes_intercalate (w : String) (ws : List String) :
    (String.intercalate " " (w :: ws)).utf8ByteSize + 1 = wordBytes (w :: ws) := by
  induction ws generalizing w with
  | nil => simp
  | cons w' ws ih =>
    have hs : " ".utf8ByteSize = 1 := rfl
    rw [String.intercalate_cons_cons, String.utf8ByteSize_append, String.utf8ByteSize_append,
      wordBytes_cons, ← ih w', hs]
    omega

theorem bytes_splitOnP (p : Char → Bool) (cs : List Char) :
    ((cs.splitOnP p).map fun w => String.utf8Len w + 1).sum ≤ String.utf8Len cs + 1 := by
  induction cs with
  | nil => simp
  | cons c cs ih =>
    rw [List.splitOnP_cons_eq_if_modifyHead]
    have hc := c.utf8Size_pos
    split
    · simp only [List.map_cons, List.sum_cons, String.utf8Len_nil, String.utf8Len_cons]
      omega
    · obtain ⟨w, ws, hw⟩ := List.exists_cons_of_ne_nil (List.splitOnP_ne_nil p cs)
      rw [hw] at ih ⊢
      simp only [List.modifyHead_cons, List.map_cons, List.sum_cons, String.utf8Len_cons] at ih ⊢
      omega

theorem wordBytes_tokens (line : String) : wordBytes (tokens line) ≤ line.utf8ByteSize + 1 := by
  have hs : (tokens line).Sublist ((line.toList.splitOnP Text.isBlank).map String.ofList) :=
    (List.takeWhile_sublist _).trans (List.filter_sublist.map _)
  calc wordBytes (tokens line)
      ≤ wordBytes ((line.toList.splitOnP Text.isBlank).map String.ofList) :=
        (hs.map _).sum_le_sum fun _ _ => Nat.zero_le _
    _ = ((line.toList.splitOnP Text.isBlank).map fun w => String.utf8Len w + 1).sum := by
        simp [wordBytes, Function.comp_def, String.utf8ByteSize_ofList]
    _ ≤ String.utf8Len line.toList + 1 := bytes_splitOnP _ _
    _ = line.utf8ByteSize + 1 := by rw [String.utf8Len_toList]

end Machine

end Concolic
