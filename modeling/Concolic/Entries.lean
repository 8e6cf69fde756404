namespace Concolic.Entries

variable {κ β : Type} [DecidableEq κ]

theorem lookup_cons (n m : κ) (v : β) (l : List (κ × β)) :
    ((n, v) :: l).lookup m = if n = m then some v else l.lookup m := by
  by_cases h : n = m
  · simp [h]
  · simp [List.lookup_cons, h, beq_false_of_ne (Ne.symm h)]

theorem mem_of_lookup {l : List (κ × β)} {k : κ} {v : β} (h : l.lookup k = some v) :
    (k, v) ∈ l := by
  obtain ⟨l₁, l₂, he, -⟩ := List.lookup_eq_some_iff.mp h
  simp [he]

variable [LT κ] [DecidableLT κ]

/-- Sets the value of a key to what is made of the one it has, if it has one. -/
def alter (k : κ) (f : Option β → β) : List (κ × β) → List (κ × β)
  | [] => [(k, f none)]
  | (n, v) :: rest =>
    if k < n then (k, f none) :: (n, v) :: rest
    else if k = n then (n, f (some v)) :: rest
    else (n, v) :: alter k f rest

def place (k : κ) (v : β) (l : List (κ × β)) : List (κ × β) := alter k (fun _ => v) l

theorem lookup_place (k m : κ) (v : β) (l : List (κ × β)) :
    (place k v l).lookup m = if k = m then some v else l.lookup m := by
  unfold place
  induction l with
  | nil => rw [alter, lookup_cons]
  | cons e rest ih =>
    obtain ⟨n, w⟩ := e
    rw [alter]
    split
    · rw [lookup_cons]
    · split
      next h =>
        subst h
        rw [lookup_cons, lookup_cons]
        split <;> rfl
      next h =>
        rw [lookup_cons, lookup_cons, ih]
        by_cases hn : n = m
        · rw [if_pos hn, if_pos hn, if_neg (hn ▸ h)]
        · rw [if_neg hn, if_neg hn]

end Concolic.Entries
