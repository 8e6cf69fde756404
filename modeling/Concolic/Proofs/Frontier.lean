import Mathlib
import Concolic.Frontier.Basic
import Concolic.Proofs.Typing

namespace Concolic

namespace Frontier

variable {f g : Frontier} {strategy : Strategy} {p : BranchPoint}

theorem mem_cover {keys : List UInt64} {k : UInt64} :
    k ∈ (f.cover keys).covered ↔ k ∈ f.covered ∨ k ∈ keys := by
  unfold cover
  generalize f.covered = covered
  induction keys generalizing covered with
  | nil => simp
  | cons key keys ih =>
    rw [List.foldl_cons, ih, Std.TreeSet.mem_insert, Std.LawfulEqCmp.compare_eq_iff_eq,
      List.mem_cons, eq_comm]
    tauto

structure Adds (f : Frontier) (ps new : List BranchPoint) (g : Frontier) : Prop where
  frame : g = { f with seen := g.seen, pending := f.pending ++ new }
  offered : ∀ p ∈ new, p ∈ ps
  fresh : ∀ p ∈ new, p.key ∉ f.covered ∧ p.key ∉ f.seen
  nodup : (new.map (·.key)).Nodup
  seen : ∀ k, k ∈ g.seen ↔ k ∈ f.seen ∨ k ∈ new.map (·.key)
  known : ∀ p ∈ ps, p.key ∈ f.covered ∨ p.key ∈ g.seen

theorem offer_adds (f : Frontier) (p : BranchPoint) : ∃ new, f.Adds [p] new (f.offer p) := by
  unfold offer
  split
  next h =>
    rw [Bool.or_eq_true, ← Std.TreeSet.mem_iff_contains, ← Std.TreeSet.mem_iff_contains] at h
    exact ⟨[], by simp, by simp, by simp, by simp, by simp, by simpa using h⟩
  next h =>
    rw [Bool.or_eq_true, ← Std.TreeSet.mem_iff_contains, ← Std.TreeSet.mem_iff_contains] at h
    refine ⟨[p], by simp, by simp, by simpa using h, by simp, ?_, ?_⟩
    · intro k
      rw [Std.TreeSet.mem_insert, Std.LawfulEqCmp.compare_eq_iff_eq, List.map_singleton,
        List.mem_singleton]
      tauto
    · simp

theorem Adds.trans {h : Frontier} {ps qs new new' : List BranchPoint} (hf : f.Adds ps new g)
    (hg : g.Adds qs new' h) : f.Adds (ps ++ qs) (new ++ new') h where
  frame := by
    have := hg.frame
    rw [hf.frame] at this
    simpa using this
  offered := by
    intro p hp
    rw [List.mem_append] at hp ⊢
    exact hp.imp (hf.offered p) (hg.offered p)
  fresh := by
    intro p hp
    rcases List.mem_append.mp hp with hp | hp
    · exact hf.fresh p hp
    · obtain ⟨covered, seen⟩ := hg.fresh p hp
      rw [hf.frame] at covered
      exact ⟨covered, fun hs => seen ((hf.seen _).mpr (.inl hs))⟩
  nodup := by
    rw [List.map_append]
    refine hf.nodup.append hg.nodup ?_
    intro k hk hk'
    obtain ⟨p, hp, rfl⟩ := List.mem_map.mp hk'
    exact (hg.fresh p hp).2 ((hf.seen _).mpr (.inr hk))
  seen := by
    intro k
    rw [hg.seen, hf.seen, List.map_append, List.mem_append]
    tauto
  known := by
    intro p hp
    rcases List.mem_append.mp hp with hp | hp
    · exact (hf.known p hp).imp_right fun hs => (hg.seen _).mpr (.inl hs)
    · have := hg.known p hp
      rwa [hf.frame] at this

theorem foldl_offer_adds (ps : List BranchPoint) (f : Frontier) :
    ∃ new, f.Adds ps new (ps.foldl offer f) := by
  induction ps generalizing f with
  | nil => exact ⟨[], by simp, by simp, by simp, by simp, by simp, by simp⟩
  | cons p ps ih =>
    obtain ⟨new, hp⟩ := f.offer_adds p
    obtain ⟨new', hps⟩ := ih (f.offer p)
    exact ⟨new ++ new', hp.trans hps⟩

theorem expand_adds (f : Frontier) (run : Run) :
    ∃ new, (f.cover run.takenKeys).Adds run.points new (f.expand run).2 :=
  foldl_offer_adds run.points (f.cover run.takenKeys)

@[simp] theorem counters_expand (f : Frontier) (run : Run) :
    (f.expand run).2.counters = f.counters := by
  obtain ⟨new, adds⟩ := f.expand_adds run
  rw [adds.frame]
  rfl

def waiting (f : Frontier) : List BranchPoint := f.pending ++ f.deferred

/-- What taking out a point does. The points that are dropped on the way have keys of directions that
were taken. -/
structure Draws (f : Frontier) (dropped : List BranchPoint) (found : Option BranchPoint)
    (g : Frontier) : Prop where
  perm : (dropped ++ (found.toList ++ g.waiting)).Perm f.waiting
  covered : ∀ p ∈ dropped, p.key ∈ f.covered
  fresh : ∀ p ∈ found, p.key ∉ f.covered
  frame : ∃ turn, g = { f with
    pending := g.pending, deferred := g.deferred, turn
    counters := { f.counters with skipped := f.counters.skipped + dropped.length } }

theorem waiting_refill (f : Frontier) : f.refill.waiting = f.waiting := by
  unfold refill
  split
  next h => simp_all [waiting]
  next => rfl

theorem refill_frame (f : Frontier) :
    f.refill = { f with pending := f.refill.pending, deferred := f.refill.deferred } := by
  unfold refill
  split <;> rfl

theorem select_perm (h : f.select strategy = .ok (p, g)) :
    (p :: g.pending).Perm f.pending ∧ g = { f with turn := f.turn + 1, pending := g.pending } := by
  unfold select at h
  obtain ⟨i, -, h⟩ := bind_eq_ok h
  by_cases hi : i < 0
  · rw [if_pos hi] at h
    cases h
  rw [if_neg hi] at h
  cases hp : f.pending[i.toNat]? with
  | none =>
    rw [hp] at h
    cases h
  | some q =>
    rw [hp] at h
    cases h
    obtain ⟨hi, rfl⟩ := List.getElem?_eq_some_iff.mp hp
    exact ⟨List.getElem_cons_eraseIdx_perm hi, rfl⟩

theorem select_refill (h : f.refill.select strategy = .ok (p, g)) :
    (p :: g.waiting).Perm f.waiting ∧
      g = { f with pending := g.pending, deferred := g.deferred, turn := f.turn + 1 } := by
  obtain ⟨perm, frame⟩ := select_perm h
  have deferred : g.deferred = f.refill.deferred := by rw [frame]
  refine ⟨?_, ?_⟩
  · rw [← waiting_refill f, waiting, waiting, deferred]
    exact perm.append_right f.refill.deferred
  · rw [refill_frame f] at frame
    rw [frame]

theorem nextFrom_draws {fuel : Nat} {found : Option BranchPoint}
    (h : nextFrom strategy fuel f = .ok (found, g)) : ∃ dropped, f.Draws dropped found g := by
  induction fuel generalizing f with
  | zero =>
    cases h
    exact ⟨[], by simp, by simp, by simp, g.turn, by simp⟩
  | succ fuel ih =>
    rw [nextFrom] at h
    split at h
    next =>
      cases h
      refine ⟨[], by simp [waiting_refill], by simp, by simp, f.turn, ?_⟩
      rw [refill_frame f]
      simp
    next =>
      obtain ⟨⟨p, f'⟩, hs, h⟩ := bind_eq_ok h
      obtain ⟨perm, frame⟩ := select_refill hs
      have covered : f'.covered = f.covered := by rw [frame]
      have counters : f'.counters = f.counters := by rw [frame]
      dsimp only at h
      split at h
      next hc =>
        rw [covered, ← Std.TreeSet.mem_iff_contains] at hc
        obtain ⟨dropped, draws⟩ := ih h
        refine ⟨p :: dropped, ?_, ?_, ?_, ?_⟩
        · exact (draws.perm.cons p).trans perm
        · simpa [hc] using fun q hq => covered ▸ draws.covered q hq
        · exact fun q hq => covered ▸ draws.fresh q hq
        · obtain ⟨turn, hg⟩ := draws.frame
          refine ⟨turn, hg.trans ?_⟩
          rw [skip, counters, frame]
          simp [Nat.add_right_comm, Nat.add_assoc]
      next hc =>
        rw [covered, ← Std.TreeSet.mem_iff_contains] at hc
        cases h
        exact ⟨[], by simpa using perm, by simp, by simpa using hc, f.turn + 1, by simpa using frame⟩

theorem next_draws {found : Option BranchPoint} (h : f.next strategy = .ok (found, g)) :
    ∃ dropped, f.Draws dropped found g :=
  nextFrom_draws h

inductive Resolves (f : Frontier) (p : BranchPoint) : Satisfiability → Frontier → Prop
  | answered {status : Satisfiability} {counters : FrontierStats}
      (answer : status = .sat ∨ status = .unsat)
      (skipped : counters.skipped = f.counters.skipped)
      (abandoned : counters.abandoned = f.counters.abandoned) :
      f.Resolves p status { f with counters }
  | abandoned {status : Satisfiability} {counters : FrontierStats}
      (skipped : counters.skipped = f.counters.skipped)
      (abandoned : counters.abandoned = f.counters.abandoned + 1) :
      f.Resolves p status { f with counters }
  | deferred {status : Satisfiability} {counters : FrontierStats}
      (skipped : counters.skipped = f.counters.skipped)
      (abandoned : counters.abandoned = f.counters.abandoned)
      (retry : (f.retriesOf p : Int) < f.maxRetries) :
      f.Resolves p status { f with
        counters, retries := f.retries.insert p.key (f.retriesOf p + 1)
        deferred := f.deferred ++ [p] }

theorem resolve_resolves (f : Frontier) (p : BranchPoint) (status : Satisfiability) :
    f.Resolves p status (f.resolve p status) := by
  unfold resolve
  split
  · exact .answered (.inl rfl) rfl rfl
  · exact .answered (.inr rfl) rfl rfl
  all_goals
    dsimp only
    split
    next hr => exact .deferred rfl rfl hr
    next => exact .abandoned rfl rfl

end Frontier

end Concolic
