import Mathlib
import Concolic.Term.Walk
import Concolic.Proofs.Entries
import Concolic.Proofs.Typing

namespace Concolic

namespace Term

variable {t : Term} {w : Nat} {n : String} {k : Kind} {vs : List (String × Kind)}

/-- No operand is missing, except the right one of a floating-point operation, where a hole stands
for none. -/
def isWhole : Term → Bool
  | hole => false
  | const _ | fconst _ | var _ _ => true
  | extract s _ _ | not s | cast s _ _ | convert _ s _ => s.isWhole
  | binary _ l r => l.isWhole && r.isWhole
  | float _ l r => l.isWhole && (r.isHole || r.isWhole)
  | ite c y n => c.isWhole && y.isWhole && n.isWhole

theorem Typed.isWhole (h : t.Typed w) : t.isWhole := by
  induction h with
  | const => rfl
  | var => rfl
  | extract _ _ _ ih => exact ih
  | not _ ih => exact ih
  | cast _ _ _ ih => exact ih
  | arith _ _ _ _ ihl ihr => simp [Term.isWhole, ihl, ihr]
  | shift _ _ _ ihl ihr => simp [Term.isWhole, ihl, ihr]
  | compare _ _ _ ihl ihr => simp [Term.isWhole, ihl, ihr]
  | ite _ _ _ ihc ihy ihn => simp [Term.isWhole, ihc, ihy, ihn]

def insertVars (vs ps : List (String × Kind)) : List (String × Kind) :=
  ps.foldl (fun s p => insertVar p.1 p.2 s) vs

theorem insertVars_append (vs ps qs : List (String × Kind)) :
    insertVars vs (ps ++ qs) = insertVars (insertVars vs ps) qs := List.foldl_append

theorem walk_visitVar (t : Term) (vs : List (String × Kind)) :
    t.walk (fun _ => false) visitVar vs =
      if t.isWhole then .ok (insertVars vs t.occurrences) else .error .unreachable := by
  induction t generalizing vs with
  | hole => rfl
  | const => rfl
  | fconst => rfl
  | var => rfl
  | extract _ _ _ ih => exact ih vs
  | not _ ih => exact ih vs
  | cast _ _ _ ih => exact ih vs
  | convert _ _ _ ih => exact ih vs
  | binary _ l r ihl ihr =>
    simp only [walk, visitVar, isWhole, occurrences, insertVars_append, ihl]
    cases l.isWhole <;> simp [ihr]
    rfl
  | float _ l r ihl ihr =>
    simp only [walk, visitVar, isWhole, occurrences, insertVars_append, ihl]
    cases hr : r.isHole with
    | true =>
      obtain rfl : r = hole := by
        cases r <;> first | rfl | cases hr
      cases l.isWhole <;> rfl
    | false =>
      cases l.isWhole
      · rfl
      · exact ihr _
  | ite c y n ihc ihy ihn =>
    simp only [walk, visitVar, isWhole, occurrences, insertVars_append, ihc]
    cases c.isWhole <;> cases hy : y.isWhole <;> simp [ihy, hy, ihn]
    all_goals rfl

theorem vars_eq (ts : List Term) :
    vars ts =
      if ts.all isWhole then .ok (insertVars [] (ts.flatMap occurrences))
      else .error .unreachable := by
  have run : ∀ vs, ts.foldlM (fun s t => t.walk (fun _ => false) visitVar s) vs =
      (if ts.all isWhole then .ok (insertVars vs (ts.flatMap occurrences))
        else .error .unreachable : Except Defect _) := by
    induction ts with
    | nil => exact fun _ => rfl
    | cons t ts ih =>
      intro vs
      rw [List.foldlM_cons, walk_visitVar, List.all_cons, List.flatMap_cons, insertVars_append]
      cases t.isWhole
      · rfl
      · exact ih _
  exact run []

theorem ascending_insertVars {ps : List (String × Kind)} (h : Entries.Ascending vs) :
    Entries.Ascending (insertVars vs ps) := by
  induction ps generalizing vs with
  | nil => exact h
  | cons q ps ih => exact ih h.alter

theorem lookup_insertVar (h : Entries.Ascending vs) (m : String) :
    (insertVar n k vs).lookup m = (vs ++ [(n, k)]).lookup m := by
  rw [insertVar, h.lookup_alter, List.lookup_append, Entries.lookup_cons]
  split
  next hm =>
    subst hm
    cases vs.lookup n <;> rfl
  next => exact (Option.or_none).symm

theorem lookup_insertVars {ps : List (String × Kind)} (h : Entries.Ascending vs) (m : String) :
    (insertVars vs ps).lookup m = (vs ++ ps).lookup m := by
  induction ps generalizing vs with
  | nil => simp [insertVars]
  | cons q ps ih =>
    have ascending : Entries.Ascending (insertVar q.1 q.2 vs) := h.alter
    rw [insertVars, List.foldl_cons, ← insertVars, ih ascending, List.lookup_append,
      lookup_insertVar h, ← List.lookup_append, List.append_assoc]
    rfl

theorem vars_first {ts : List Term} (hw : ∀ t ∈ ts, t.isWhole) :
    ∃ vs, vars ts = .ok vs ∧ Entries.Ascending vs ∧
      ∀ n k, (n, k) ∈ vs ↔ (ts.flatMap occurrences).lookup n = some k := by
  have ascending : Entries.Ascending (insertVars [] (ts.flatMap occurrences)) :=
    ascending_insertVars .nil
  refine ⟨_, ?_, ascending, fun n k => ?_⟩
  · rw [vars_eq, if_pos (List.all_eq_true.mpr hw)]
  · rw [ascending.mem_iff_lookup, lookup_insertVars .nil, List.nil_append]

theorem vars_spec {ts : List Term} {K : String → Kind} (ht : ∀ t ∈ ts, ∃ w, t.Typed w)
    (hK : ∀ t ∈ ts, ∀ p ∈ t.occurrences, K p.1 = p.2) :
    ∃ vs, vars ts = .ok vs ∧ Entries.Ascending vs ∧ ∀ p, p ∈ vs ↔ ∃ t ∈ ts, p ∈ t.occurrences := by
  obtain ⟨vs, hv, ha, first⟩ := vars_first fun t hm => (ht t hm).elim fun _ h => h.isWhole
  refine ⟨vs, hv, ha, fun ⟨n, k⟩ => ?_⟩
  rw [first, ← List.mem_flatMap]
  refine ⟨Entries.mem_of_lookup, fun hm => ?_⟩
  have one : ∀ q ∈ ts.flatMap occurrences, K q.1 = q.2 := fun q hq => by
    obtain ⟨t, ht, hq⟩ := List.mem_flatMap.mp hq
    exact hK t ht q hq
  cases hl : (ts.flatMap occurrences).lookup n with
  | none => simpa using List.lookup_eq_none_iff.mp hl _ hm
  | some k' => exact congrArg some ((one _ (Entries.mem_of_lookup hl)).symm.trans (one _ hm))

end Term

end Concolic
