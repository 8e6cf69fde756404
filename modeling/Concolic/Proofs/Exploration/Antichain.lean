import Mathlib
import Concolic.Proofs.Exploration.Direction
import Concolic.Proofs.Frontier

namespace Concolic

structure BranchPoint.Apart (p q : BranchPoint) : Prop where
  key : p.key ≠ q.key
  left : ¬p.target <+: q.target
  right : ¬q.target <+: p.target

theorem BranchPoint.Apart.symm {p q : BranchPoint} (h : p.Apart q) : q.Apart p :=
  ⟨h.key.symm, h.right, h.left⟩

namespace Run

variable {r : Run} {p q : BranchPoint}

theorem target_not_prefix_of_lt (hp : p ∈ r.points) (hq : q ∈ r.points) (h : p.index < q.index) :
    ¬p.target <+: q.target ∧ ¬q.target <+: p.target := by
  obtain ⟨d, hd⟩ := getElem?_of_mem_points hp
  obtain ⟨d', hd'⟩ := getElem?_of_mem_points hq
  obtain ⟨rfl, -⟩ := mem_points.mp hp
  obtain ⟨run, -⟩ := mem_points.mp hq
  refine ⟨Direction.turn_not_prefix hd ?_, fun hqp => ?_⟩
  · rw [BranchPoint.target, Direction.getElem?_turn_of_lt hd' h, run, hd]
  · have := hqp.length_le
    rw [BranchPoint.target, BranchPoint.target, Direction.length_turn hd,
      Direction.length_turn hd'] at this
    omega

theorem apart_of_mem_points (hp : p ∈ r.points) (hq : q ∈ r.points) (h : p.key ≠ q.key) :
    p.Apart q := by
  rcases lt_trichotomy p.index q.index with hlt | heq | hgt
  · exact ⟨h, (target_not_prefix_of_lt hp hq hlt).1, (target_not_prefix_of_lt hp hq hlt).2⟩
  · obtain ⟨hrun, hkey, -⟩ := mem_points.mp hp
    obtain ⟨hrun', hkey', -⟩ := mem_points.mp hq
    rw [hkey, hkey', BranchPoint.target, BranchPoint.target, hrun, hrun', heq] at h
    exact absurd rfl h
  · exact ⟨h, (target_not_prefix_of_lt hq hp hgt).2, (target_not_prefix_of_lt hq hp hgt).1⟩

theorem key_mem_takenKeys {s : Run} (hp : p ∈ r.points) (h : p.target <+: s.directions) :
    p.key ∈ s.takenKeys := by
  obtain ⟨d, hd⟩ := getElem?_of_mem_points hp
  exact mem_takenKeys.mpr ⟨p.target, Direction.turn_ne_nil hd, h, (mem_points.mp hp).2.1.symm⟩

end Run

theorem eraseP_key {l : List BranchPoint} {p : BranchPoint} (h : l.Pairwise BranchPoint.Apart)
    (hp : p ∈ l) : l.eraseP (·.key == p.key) = l.erase p := by
  induction l with
  | nil => cases hp
  | cons q l ih =>
    obtain ⟨hq, hl⟩ := List.pairwise_cons.mp h
    rcases List.mem_cons.mp hp with rfl | hp
    · simp
    · have key : q.key ≠ p.key := (hq p hp).key
      have ne : q ≠ p := fun heq => key (heq ▸ rfl)
      rw [List.eraseP_cons_of_neg (by simpa using key), List.erase_cons_tail (by simpa using ne),
        ih hl hp]

structure Coherent (e : Explorer) (f : Frontier) (flying : List BranchPoint) (history : List Run) :
    Prop where
  yields : ∀ r ∈ history, ∃ i : Input, i.Masked ∧ e.Yields i r
  points : ∀ p ∈ f.waiting ++ flying, p.run ∈ history ∧ p ∈ p.run.points
  seen : ∀ p ∈ f.waiting ++ flying, p.key ∈ f.seen
  sources : ∀ k ∈ f.seen, ∃ r ∈ history, ∃ p ∈ r.points, p.key = k
  covered : ∀ k, k ∈ f.covered ↔ ∃ r ∈ history, k ∈ r.takenKeys
  apart : (f.waiting ++ flying).Pairwise BranchPoint.Apart
  untaken : ∀ p ∈ f.waiting ++ flying, ∀ r ∈ history, ¬p.target <+: r.directions
  distinct : history.Pairwise fun r s => r.directions ≠ s.directions

namespace Coherent

variable {e : Explorer} {f g : Frontier} {flying flying' : List BranchPoint} {history : List Run}
  {p q : BranchPoint} {r : Run}

theorem empty (e : Explorer) (maxRetries : Int) : Coherent e { maxRetries } [] [] := by
  constructor <;> simp [Frontier.waiting]

theorem shrink (h : Coherent e f flying history)
    (sub : (g.waiting ++ flying').Subperm (f.waiting ++ flying)) (seen : g.seen = f.seen)
    (covered : g.covered = f.covered) : Coherent e g flying' history where
  yields := h.yields
  points := fun p hp => h.points p (sub.subset hp)
  seen := fun p hp => seen ▸ h.seen p (sub.subset hp)
  sources := seen ▸ h.sources
  covered := covered ▸ h.covered
  apart := by
    obtain ⟨l, perm, sublist⟩ := sub
    exact (perm.pairwise_iff BranchPoint.Apart.symm).mp (h.apart.sublist sublist)
  untaken := fun p hp => h.untaken p (sub.subset hp)
  distinct := h.distinct

theorem draw {dropped : List BranchPoint} {found : Option BranchPoint}
    (h : Coherent e f flying history) (draws : f.Draws dropped found g) :
    Coherent e g (flying ++ found.toList) history := by
  obtain ⟨turn, frame⟩ := draws.frame
  refine h.shrink ?_ (by rw [frame]) (by rw [frame])
  apply List.subperm_ext_iff.mpr
  intro p _
  have count := draws.perm.count_eq p
  simp only [List.count_append] at count ⊢
  omega

theorem resolve {status : Satisfiability} (h : Coherent e f flying history) (hp : p ∈ flying) :
    Coherent e (f.resolve p status) (flying.erase p) history := by
  have count (q : BranchPoint) : (flying.erase p).count q + [p].count q = flying.count q := by
    rw [← List.count_append]
    exact ((List.perm_append_singleton p _).trans (List.perm_cons_erase hp).symm).count_eq q
  have sub : ∀ q ∈ f.waiting ++ flying.erase p,
      (f.waiting ++ flying.erase p).count q ≤ (f.waiting ++ flying).count q := by
    intro q _
    have := count q
    simp only [List.count_append]
    omega
  generalize hg : f.resolve p status = g
  have resolves := hg ▸ f.resolve_resolves p status
  cases resolves with
  | answered => exact h.shrink (List.subperm_ext_iff.mpr sub) rfl rfl
  | abandoned => exact h.shrink (List.subperm_ext_iff.mpr sub) rfl rfl
  | deferred =>
    refine h.shrink (List.subperm_ext_iff.mpr fun q _ => ?_) rfl rfl
    have := count q
    simp only [Frontier.waiting, List.count_append] at this ⊢
    omega

theorem apart_new (h : Coherent e f flying history) (hp : p ∈ f.waiting ++ flying)
    (hq : q ∈ r.points) (fresh : q.key ∉ f.seen) (free : ¬p.target <+: r.directions)
    (untaken : ∀ s ∈ history, ¬q.target <+: s.directions) : p.Apart q := by
  obtain ⟨hrun, hpoint⟩ := h.points p hp
  have key : p.key ≠ q.key := fun heq => fresh (heq ▸ h.seen p hp)
  have target : p.target ≠ q.target := by
    intro heq
    rw [(Run.mem_points.mp hpoint).2.1, (Run.mem_points.mp hq).2.1, heq] at key
    exact key rfl
  obtain ⟨rfl, -⟩ := Run.mem_points.mp hq
  refine ⟨key, fun hpq => ?_, fun hqp => ?_⟩
  · exact free (Direction.prefix_of_prefix_turn hpq target)
  · exact untaken p.run hrun (Direction.prefix_of_prefix_turn hqp target.symm)

theorem record (h : Coherent e f flying history) {i : Input} (hi : i.Masked) (hr : e.Yields i r)
    (free : ∀ p ∈ f.waiting ++ flying, ¬p.target <+: r.directions)
    (new : ∀ s ∈ history, s.directions ≠ r.directions) :
    Coherent e (f.expand r).2 flying (history ++ [r]) := by
  obtain ⟨added, adds⟩ := f.expand_adds r
  generalize (f.expand r).2 = g at adds
  have perm : (g.waiting ++ flying).Perm ((f.waiting ++ flying) ++ added) := by
    apply List.perm_iff_count.mpr
    intro p
    rw [adds.frame]
    simp only [Frontier.waiting, Frontier.cover, List.count_append]
    omega
  have mem {p : BranchPoint} (hp : p ∈ g.waiting ++ flying) :
      p ∈ f.waiting ++ flying ∨ p ∈ added :=
    List.mem_append.mp (perm.subset hp)
  have covered (k : UInt64) : k ∈ g.covered ↔ ∃ s ∈ history ++ [r], k ∈ s.takenKeys := by
    rw [adds.frame]
    refine Frontier.mem_cover.trans ?_
    simp only [h.covered, List.mem_append, List.mem_singleton, or_and_right, exists_or,
      exists_eq_left]
  have untaken {p : BranchPoint} (hp : p ∈ added) (s : Run) (hs : s ∈ history ++ [r]) :
      ¬p.target <+: s.directions := by
    intro hps
    have key := (covered p.key).mpr ⟨s, hs, Run.key_mem_takenKeys (adds.offered p hp) hps⟩
    rw [adds.frame] at key
    exact (adds.fresh p hp).1 key
  refine ⟨?_, ?_, ?_, ?_, covered, ?_, ?_, ?_⟩
  · intro s hs
    rcases List.mem_append.mp hs with hs | hs
    · exact h.yields s hs
    · exact List.mem_singleton.mp hs ▸ ⟨i, hi, hr⟩
  · intro p hp
    rcases mem hp with hp | hp
    · exact (h.points p hp).imp_left (List.mem_append_left _)
    · have offered := adds.offered p hp
      obtain ⟨rfl, -⟩ := Run.mem_points.mp offered
      exact ⟨by simp, offered⟩
  · intro p hp
    rw [adds.seen]
    rcases mem hp with hp | hp
    · exact .inl (h.seen p hp)
    · exact .inr (List.mem_map_of_mem hp)
  · intro k hk
    rcases (adds.seen k).mp hk with hk | hk
    · obtain ⟨s, hs, p⟩ := h.sources k hk
      exact ⟨s, List.mem_append_left _ hs, p⟩
    · obtain ⟨p, hp, rfl⟩ := List.mem_map.mp hk
      exact ⟨r, by simp, p, adds.offered p hp, rfl⟩
  · rw [perm.pairwise_iff BranchPoint.Apart.symm, List.pairwise_append]
    refine ⟨h.apart, ?_, ?_⟩
    · refine (List.pairwise_map.mp adds.nodup).imp_of_mem fun hp hq key => ?_
      exact Run.apart_of_mem_points (adds.offered _ hp) (adds.offered _ hq) key
    · intro p hp q hq
      exact h.apart_new hp (adds.offered q hq) (adds.fresh q hq).2 (free p hp)
        fun s hs => untaken hq s (List.mem_append_left _ hs)
  · intro p hp s hs
    rcases mem hp with hp | hp
    · rcases List.mem_append.mp hs with hs | hs
      · exact h.untaken p hp s hs
      · exact List.mem_singleton.mp hs ▸ free p hp
    · exact untaken hp s hs
  · refine List.pairwise_append.mpr ⟨h.distinct, List.pairwise_singleton _ r, ?_⟩
    simpa using new

/-- The run that a point led to takes no other target, since two beginnings of one run would be
beginnings of each other. -/
theorem record_target (h : Coherent e f flying history) (hp : p ∈ flying) {i : Input}
    (hi : i.Masked) (hr : e.Yields i r) (target : p.target <+: r.directions) :
    Coherent e ((f.resolve p .sat).expand r).2 (flying.erase p) (history ++ [r]) := by
  refine (h.resolve hp).record hi hr (fun q hq htaken => ?_) fun s hs heq => ?_
  · have perm : (f.waiting ++ flying).Perm (p :: (f.waiting ++ flying.erase p)) :=
      ((List.perm_cons_erase hp).append_left f.waiting).trans List.perm_middle
    have apart := (perm.pairwise_iff BranchPoint.Apart.symm).mp h.apart
    have hpq : p.Apart q := (List.pairwise_cons.mp apart).1 q hq
    exact (List.prefix_or_prefix_of_prefix target htaken).elim hpq.left hpq.right
  · exact h.untaken p (List.mem_append_right _ hp) s hs (heq ▸ target)

end Coherent

end Concolic
