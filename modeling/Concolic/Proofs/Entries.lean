import Mathlib
import Concolic.Entries

namespace Concolic.Entries

variable {κ β : Type} [DecidableEq κ] [LT κ]

def Ascending (l : List (κ × β)) : Prop := l.Pairwise fun d e => d.1 < e.1

variable {k m : κ} {v : β} {f : Option β → β} {e : κ × β} {l : List (κ × β)}

theorem Ascending.lookup_of_mem [Std.Irrefl (α := κ) (· < ·)] (h : Ascending l)
    (hm : (k, v) ∈ l) : l.lookup k = some v := by
  induction l with
  | nil => cases hm
  | cons d l ih =>
    obtain ⟨n, w⟩ := d
    obtain ⟨below, hl⟩ := List.pairwise_cons.mp h
    rw [lookup_cons]
    rcases List.mem_cons.mp hm with he | hm
    · cases he
      exact if_pos rfl
    · have ne : n ≠ k := by
        rintro rfl
        exact Std.Irrefl.irrefl _ (below (n, v) hm)
      rw [if_neg ne, ih hl hm]

theorem Ascending.mem_iff_lookup [Std.Irrefl (α := κ) (· < ·)] (h : Ascending l) :
    (k, v) ∈ l ↔ l.lookup k = some v := ⟨h.lookup_of_mem, mem_of_lookup⟩

variable [DecidableLT κ]

theorem mem_alter (h : e ∈ alter k f l) :
    e = (k, f none) ∨ (∃ w, (k, w) ∈ l ∧ e = (k, f (some w))) ∨ e ∈ l := by
  induction l with
  | nil => exact .inl (List.mem_singleton.mp h)
  | cons d l ih =>
    obtain ⟨n, w⟩ := d
    rw [alter] at h
    split at h
    · exact (List.mem_cons.mp h).imp_right .inr
    · split at h
      next hn =>
        subst hn
        rcases List.mem_cons.mp h with rfl | h
        · exact .inr (.inl ⟨w, List.mem_cons_self, rfl⟩)
        · exact .inr (.inr (List.mem_cons_of_mem _ h))
      next =>
        rcases List.mem_cons.mp h with rfl | h
        · exact .inr (.inr List.mem_cons_self)
        · rcases ih h with rfl | ⟨u, hu, rfl⟩ | h
          · exact .inl rfl
          · exact .inr (.inl ⟨u, List.mem_cons_of_mem _ hu, rfl⟩)
          · exact .inr (.inr (List.mem_cons_of_mem _ h))

theorem mem_place (h : e ∈ place k v l) : e = (k, v) ∨ e ∈ l := by
  rcases mem_alter h with h | ⟨-, -, h⟩ | h
  · exact .inl h
  · exact .inl h
  · exact .inr h

section Map

variable {γ : Type} (g : β → γ)

omit [LT κ] [DecidableLT κ] in
theorem lookup_map : (l.map fun e => (e.1, g e.2)).lookup k = (l.lookup k).map g := by
  induction l with
  | nil => rfl
  | cons e l ih =>
    obtain ⟨n, w⟩ := e
    rw [List.map_cons, lookup_cons, lookup_cons, ih]
    split <;> rfl

theorem place_map :
    place k (g v) (l.map fun e => (e.1, g e.2)) = (place k v l).map fun e => (e.1, g e.2) := by
  unfold place
  induction l with
  | nil => rfl
  | cons e l ih =>
    obtain ⟨n, w⟩ := e
    simp only [List.map_cons, alter, ih]
    split
    · rfl
    · split <;> rfl

end Map

section Alike

def Alike {γ : Type} (R : β → γ → Prop) : List (κ × β) → List (κ × γ) → Prop :=
  List.Forall₂ fun d e => d.1 = e.1 ∧ R d.2 e.2

variable {γ : Type} {R S : β → γ → Prop} {u : γ} {l' : List (κ × γ)}

omit [DecidableEq κ] [LT κ] [DecidableLT κ] in
theorem Alike.imp (h : Alike R l l') (hRS : ∀ v u, R v u → S v u) : Alike S l l' :=
  List.Forall₂.imp (fun _ _ hd => ⟨hd.1, hRS _ _ hd.2⟩) h

omit [DecidableEq κ] [LT κ] [DecidableLT κ] in
theorem Alike.keys (h : Alike R l l') : l.map (·.1) = l'.map (·.1) := by
  rw [← List.forall₂_eq_eq_eq, List.forall₂_map_left_iff, List.forall₂_map_right_iff]
  exact List.Forall₂.imp (fun _ _ hd => hd.1) h

omit [LT κ] [DecidableLT κ] in
theorem Alike.lookup (h : Alike R l l') (k : κ) : Option.Rel R (l.lookup k) (l'.lookup k) := by
  induction h with
  | nil => exact .none
  | @cons d e l l' hde hl ih =>
    obtain ⟨n, v⟩ := d
    obtain ⟨m, u⟩ := e
    obtain ⟨rfl, hv⟩ := hde
    rw [lookup_cons, lookup_cons]
    split
    · exact .some hv
    · exact ih

theorem Alike.place (h : Alike R l l') (hv : R v u) :
    Alike R (place k v l) (place k u l') := by
  unfold Entries.place
  induction h with
  | nil => exact .cons ⟨rfl, hv⟩ .nil
  | @cons d e l l' hde hl ih =>
    obtain ⟨n, w⟩ := d
    obtain ⟨m, x⟩ := e
    obtain ⟨rfl, hw⟩ := hde
    rw [alter, alter]
    split
    · exact .cons ⟨rfl, hv⟩ (.cons ⟨rfl, hw⟩ hl)
    · split
      · exact .cons ⟨rfl, hv⟩ hl
      · exact .cons ⟨rfl, hw⟩ ih

end Alike

variable [IsStrictTotalOrder κ (· < ·)]

theorem Ascending.alter (h : Ascending l) : Ascending (alter k f l) := by
  induction l with
  | nil => exact List.pairwise_singleton _ _
  | cons d l ih =>
    obtain ⟨n, w⟩ := d
    obtain ⟨below, hl⟩ := List.pairwise_cons.mp h
    rw [Entries.alter]
    split
    next lt =>
      refine List.pairwise_cons.mpr ⟨fun e he => ?_, h⟩
      rcases List.mem_cons.mp he with rfl | he
      · exact lt
      · exact trans_of (· < ·) lt (below e he)
    next ge =>
      split
      next => exact List.pairwise_cons.mpr ⟨below, hl⟩
      next ne =>
        have less : n < k := ((trichotomous_of (· < ·) n k).resolve_right
          (not_or.mpr ⟨Ne.symm ne, ge⟩))
        refine List.pairwise_cons.mpr ⟨fun e he => ?_, ih hl⟩
        rcases mem_alter he with rfl | ⟨u, -, rfl⟩ | he
        · exact less
        · exact less
        · exact below e he

/-- In ascending order the search for a key may end at a greater one. -/
theorem Ascending.lookup_alter (h : Ascending l) :
    (Entries.alter k f l).lookup m = if k = m then some (f (l.lookup k)) else l.lookup m := by
  induction l with
  | nil => rw [Entries.alter, lookup_cons, List.lookup_nil, List.lookup_nil]
  | cons d l ih =>
    obtain ⟨n, w⟩ := d
    obtain ⟨below, hl⟩ := List.pairwise_cons.mp h
    rw [Entries.alter]
    split
    next lt =>
      have absent : ((n, w) :: l).lookup k = none := by
        refine List.lookup_eq_none_iff.mpr fun e he => bne_iff_ne.mpr ?_
        rintro rfl
        rcases List.mem_cons.mp he with rfl | he
        · exact irrefl_of (· < ·) _ lt
        · exact irrefl_of (· < ·) _ (trans_of (· < ·) lt (below e he))
      rw [lookup_cons k, absent]
    next ge =>
      split
      next eq =>
        subst eq
        simp only [lookup_cons, if_true]
        split <;> rfl
      next ne =>
        rw [lookup_cons, ih hl, lookup_cons n m, lookup_cons n k, if_neg (Ne.symm ne)]
        by_cases hn : n = m
        · rw [if_pos hn, if_pos hn, if_neg (hn ▸ ne)]
        · rw [if_neg hn, if_neg hn]

theorem alter_of_lt (h : ∀ e ∈ l, e.1 < k) : Entries.alter k f l = l ++ [(k, f none)] := by
  induction l with
  | nil => rfl
  | cons d l ih =>
    obtain ⟨n, w⟩ := d
    obtain ⟨less, hl⟩ := List.forall_mem_cons.mp h
    rw [Entries.alter, if_neg (asymm_of (· < ·) less), if_neg, ih hl]
    · rfl
    · rintro rfl
      exact irrefl_of (· < ·) _ less

end Concolic.Entries
