import Mathlib
import Concolic.Proofs.Exploration.Schedule
import Concolic.Proofs.Frontier
import Concolic.Proofs.Literal

/-!
Explorations end. Each key may be handed out once and once more for each retry, and each time it is
handed back; so the number of steps that `Explorer.explore` may take is never used up, and nothing is
in flight at its end.
-/

namespace Concolic

namespace Frontier

variable {f g : Frontier} {flying : List BranchPoint} {p : BranchPoint}

def allowed (f : Frontier) (k : UInt64) : Nat :=
  if k ∈ f.seen then f.maxRetries.toNat - f.retries.getD k 0 else f.maxRetries.toNat + 1

def credit (f : Frontier) : Nat := ∑ k, f.allowed k + f.waiting.length

structure Accounted (f : Frontier) (flying : List BranchPoint) : Prop where
  seen : ∀ p ∈ f.waiting ++ flying, p.key ∈ f.seen
  unseen : ∀ k, k ∉ f.seen → f.retries.getD k 0 = 0

theorem Draws.credit {dropped : List BranchPoint} {found : Option BranchPoint}
    (h : f.Draws dropped found g) : g.credit + found.toList.length ≤ f.credit := by
  have length := h.perm.length_eq
  obtain ⟨turn, frame⟩ := h.frame
  have allowed : g.allowed = f.allowed := by
    rw [frame]
    rfl
  rw [Frontier.credit, Frontier.credit, allowed]
  simp only [List.length_append] at length
  omega

theorem credit_defer {counters : FrontierStats} (hp : p.key ∈ f.seen)
    (retry : (f.retriesOf p : Int) < f.maxRetries) :
    credit { f with
      counters, retries := f.retries.insert p.key (f.retriesOf p + 1)
      deferred := f.deferred ++ [p] } = f.credit := by
  set g : Frontier := { f with
    counters, retries := f.retries.insert p.key (f.retriesOf p + 1)
    deferred := f.deferred ++ [p] }
  have allowed (k : UInt64) : f.allowed k = g.allowed k + if p.key = k then 1 else 0 := by
    simp only [Frontier.allowed, g, Std.TreeMap.getD_insert, Std.LawfulEqCmp.compare_eq_iff_eq]
    by_cases hk : p.key = k
    · subst hk
      simp only [hp, if_true]
      unfold retriesOf at retry ⊢
      omega
    · simp [hk]
  have length : g.waiting.length = f.waiting.length + 1 := by simp [waiting, g, Nat.add_assoc]
  rw [credit, credit, length, Finset.sum_congr rfl fun k _ => allowed k, Finset.sum_add_distrib,
    Finset.sum_ite_eq, if_pos (Finset.mem_univ _)]
  omega

theorem credit_resolve (status : Satisfiability) (hp : p.key ∈ f.seen) :
    (f.resolve p status).credit = f.credit := by
  have resolves := f.resolve_resolves p status
  generalize f.resolve p status = g at resolves
  cases resolves with
  | answered => rfl
  | abandoned => rfl
  | deferred _ _ retry => exact credit_defer hp retry

theorem credit_expand (h : f.Accounted flying) (run : Run) :
    (f.expand run).2.credit = f.credit := by
  obtain ⟨new, adds⟩ := f.expand_adds run
  generalize (f.expand run).2 = g at adds
  have maxRetries : g.maxRetries = f.maxRetries := congrArg (·.maxRetries) adds.frame
  have retries : g.retries = f.retries := congrArg (·.retries) adds.frame
  have allowed (k : UInt64) : f.allowed k = g.allowed k + (new.map (·.key)).count k := by
    simp only [Frontier.allowed, maxRetries, retries, adds.seen]
    by_cases hk : k ∈ new.map (·.key)
    · obtain ⟨p, hp, rfl⟩ := List.mem_map.mp hk
      have fresh : p.key ∉ f.seen := (adds.fresh p hp).2
      rw [List.count_eq_one_of_mem adds.nodup hk, if_neg fresh, if_pos (.inr hk),
        h.unseen p.key fresh]
      omega
    · rw [List.count_eq_zero_of_not_mem hk]
      simp [hk, Frontier.cover]
  have count : ∑ k, (new.map (·.key)).count k = new.length := by
    have := Multiset.sum_count_eq_card (s := Finset.univ)
      (m := ((new.map (·.key) : List UInt64) : Multiset UInt64)) (by simp)
    simpa using this
  have length : g.waiting.length = f.waiting.length + new.length := by
    rw [adds.frame]
    simp only [waiting, cover, List.length_append]
    omega
  rw [credit, credit, length, Finset.sum_congr rfl fun k _ => allowed k, Finset.sum_add_distrib,
    count]
  omega

namespace Accounted

theorem draw (h : f.Accounted flying) {dropped : List BranchPoint} {found : Option BranchPoint}
    (draws : f.Draws dropped found g) : g.Accounted (flying ++ found.toList) := by
  obtain ⟨turn, frame⟩ := draws.frame
  have seen : g.seen = f.seen := congrArg (·.seen) frame
  have retries : g.retries = f.retries := congrArg (·.retries) frame
  refine ⟨fun p hp => ?_, ?_⟩
  · rw [seen]
    apply h.seen
    have waiting (hq : p ∈ found.toList ++ g.waiting) : p ∈ f.waiting :=
      draws.perm.subset (List.mem_append_right _ hq)
    simp only [List.mem_append] at hp waiting ⊢
    tauto
  · rw [seen, retries]
    exact h.unseen

theorem resolve (h : f.Accounted flying) (hp : p ∈ flying) (status : Satisfiability) :
    (f.resolve p status).Accounted (flying.eraseP (·.key == p.key)) := by
  have known : p.key ∈ f.seen := h.seen p (List.mem_append_right _ hp)
  have seen (q : BranchPoint) (hq : q ∈ f.waiting ++ flying.eraseP (·.key == p.key)) :
      q.key ∈ f.seen := by
    rcases List.mem_append.mp hq with hq | hq
    · exact h.seen q (List.mem_append_left _ hq)
    · exact h.seen q (List.mem_append_right _ (List.mem_of_mem_eraseP hq))
  have resolves := f.resolve_resolves p status
  generalize f.resolve p status = g at resolves
  cases resolves with
  | answered => exact ⟨seen, h.unseen⟩
  | abandoned => exact ⟨seen, h.unseen⟩
  | deferred =>
    refine ⟨fun q hq => ?_, fun k hk => ?_⟩
    · by_cases heq : q = p
      · exact heq ▸ known
      · apply seen
        simp only [waiting, List.mem_append, List.mem_singleton, heq, or_false] at hq ⊢
        exact hq
    · rw [Std.TreeMap.getD_insert, if_neg]
      · exact h.unseen k hk
      · rw [Std.LawfulEqCmp.compare_eq_iff_eq]
        exact fun heq => hk (heq ▸ known)

theorem expand (h : f.Accounted flying) (run : Run) : (f.expand run).2.Accounted flying := by
  obtain ⟨new, adds⟩ := f.expand_adds run
  generalize (f.expand run).2 = g at adds
  have retries : g.retries = f.retries := congrArg (·.retries) adds.frame
  refine ⟨fun p hp => ?_, fun k hk => ?_⟩
  · rw [adds.seen]
    by_cases hnew : p ∈ new
    · exact .inr (List.mem_map_of_mem hnew)
    · left
      apply h.seen
      rw [adds.frame] at hp
      simp only [waiting, cover, List.mem_append, hnew, or_false] at hp ⊢
      exact hp
  · rw [retries]
    exact h.unseen k fun hs => hk ((adds.seen k).mpr (.inl hs))

end Accounted

end Frontier

namespace Exploration

variable {e : Explorer} {x y : Exploration} {p : BranchPoint}

/-- How many steps there may still be: points that are handed out also come back. -/
def potential (x : Exploration) : Nat := 2 * x.frontier.credit + x.inFlight.length

theorem Keeps.potential (h : Keeps x y) : y.potential = x.potential := by
  rw [Exploration.potential, Exploration.potential, h.frontier, h.inFlight]

theorem record_potential (h : x.frontier.Accounted x.inFlight) (run : Run)
    (origin : Option BranchPoint) :
    (x.record run origin).frontier.Accounted (x.record run origin).inFlight ∧
      (x.record run origin).potential = x.potential := by
  have records := x.record_records run origin
  rw [potential, records.frontier, records.inFlight, Frontier.credit_expand h]
  exact ⟨h.expand _, rfl⟩

theorem receive_potential (h : x.frontier.Accounted x.inFlight) (hp : p ∈ x.inFlight)
    (status : Satisfiability) (run : Option Run) :
    (x.receive p status run).frontier.Accounted (x.receive p status run).inFlight ∧
      (x.receive p status run).potential < x.potential := by
  set y : Exploration := { x with
    inFlight := x.inFlight.eraseP (·.key == p.key), frontier := x.frontier.resolve p status }
  have accounted : y.frontier.Accounted y.inFlight := h.resolve hp status
  have spent : y.potential < x.potential := by
    have credit := Frontier.credit_resolve status (h.seen p (List.mem_append_right _ hp))
    have length := List.length_eraseP_of_mem hp (p := (·.key == p.key)) (by simp)
    have pos := List.length_pos_of_mem hp
    simp only [potential, y, credit, length]
    omega
  cases run with
  | none => exact ⟨accounted, spent⟩
  | some r =>
    obtain ⟨recorded, same⟩ := record_potential accounted r (some p)
    exact ⟨recorded, same.trans_lt spent⟩

theorem settle_potential (h : x.frontier.Accounted x.inFlight) (hp : p ∈ x.inFlight)
    (answer : Except SolverFailure Solution) (duration : Int) :
    (x.settle e p answer duration).frontier.Accounted (x.settle e p answer duration).inFlight ∧
      (x.settle e p answer duration).potential < x.potential := by
  have keeps := x.work_keeps e p answer duration
  unfold settle
  generalize x.work e p answer duration = result at keeps
  obtain ⟨⟨status, run⟩, y⟩ := result
  rw [← keeps.potential]
  rw [← keeps.frontier, ← keeps.inFlight] at h
  rw [← keeps.inFlight] at hp
  exact receive_potential h hp status run

end Exploration

namespace Explorer

variable {σ : Type} {e : Explorer} {solver : Solver σ} {x y : Exploration} {s t : σ}

theorem advance_potential {more : Bool} (h : x.frontier.Accounted x.inFlight)
    (ha : e.advance solver x s = (more, y, t)) :
    y.frontier.Accounted y.inFlight ∧
      (more = true → y.potential < x.potential) ∧ (more = false → y.inFlight = []) := by
  have dispatched : (x.dispatch e).2.frontier.Accounted (x.dispatch e).2.inFlight ∧
      (x.dispatch e).2.potential + (if (x.dispatch e).1 then 1 else 0) ≤ x.potential := by
    rcases x.dispatch_cases e with hd | ⟨found, g, -, hn, hd⟩
    · rw [hd]
      exact ⟨h, le_rfl⟩
    · obtain ⟨dropped, draws⟩ := Frontier.next_draws hn
      have credit := draws.credit
      rw [hd]
      refine ⟨h.draw draws, ?_⟩
      cases found <;> simp [Exploration.potential] at credit ⊢ <;> omega
  unfold advance at ha
  generalize x.dispatch e = result at ha dispatched
  obtain ⟨found, z⟩ := result
  obtain ⟨accounted, spent⟩ := dispatched
  cases found with
  | true =>
    cases ha
    exact ⟨accounted, fun _ => spent, nofun⟩
  | false =>
    dsimp only at ha
    split at ha
    next idle =>
      cases ha
      exact ⟨accounted, nofun, fun _ => idle⟩
    next p rest hf =>
      cases ha
      have settled := Exploration.settle_potential (e := e) accounted (p := p) (by simp [hf])
        (p.ask solver (z.allowance e) s).1 0
      exact ⟨settled.1, fun _ => settled.2.trans_le spent, nofun⟩

theorem advanceFor_idle {fuel : Nat} (h : x.frontier.Accounted x.inFlight)
    (hf : x.potential < fuel) : (e.advanceFor solver fuel x s).1.inFlight = [] := by
  induction fuel generalizing x s with
  | zero => omega
  | succ fuel ih =>
    rw [advanceFor]
    split
    next ha =>
      obtain ⟨accounted, spent, -⟩ := advance_potential h ha
      exact ih accounted (by have := spent rfl; omega)
    next ha => exact (advance_potential h ha).2.2 rfl

theorem card_keys : Fintype.card UInt64 = twoPow 64 := by
  rw [twoPow_eq]
  exact (Fintype.card_congr ⟨UInt64.toFin, UInt64.ofFin, fun _ => rfl, fun _ => rfl⟩).trans
    (Fintype.card_fin _)

theorem begin_potential (hx : x.Fresh e) (input : Input) :
    (x.begin e input).frontier.Accounted (x.begin e input).inFlight ∧
      (x.begin e input).potential = e.maxAdvances := by
  obtain ⟨y, hy, h⟩ := hx.begin_cases input
  have accounted : y.frontier.Accounted y.inFlight := by
    rw [hy.frontier, hy.inFlight]
    refine ⟨by simp [Frontier.waiting], fun k _ => ?_⟩
    simp
  have full : y.potential = e.maxAdvances := by
    rw [Exploration.potential, hy.frontier, hy.inFlight]
    simp only [Frontier.credit, Frontier.allowed, Frontier.waiting]
    simp [maxAdvances, card_keys]
    ring
  rcases h with ⟨-, heq⟩ | ⟨z, r, -, heq⟩
  · rw [heq]
    exact ⟨accounted, full⟩
  · rw [heq]
    obtain ⟨recorded, same⟩ := Exploration.record_potential accounted r none
    exact ⟨recorded, same.trans full⟩

theorem exploreFor_fst (e : Explorer) (solver : Solver σ) (fuel : Nat) (input : Input)
    (x : Exploration) (s : σ) :
    (e.exploreFor solver fuel input x s).1 =
      (e.advanceFor solver fuel (x.begin e input) s).1.report 0 :=
  rfl

theorem exploreFor_reports {input : Input} {fuel : Nat} (hx : x.Fresh e)
    (hf : e.maxAdvances < fuel) :
    e.Reports (Answers solver) input (e.exploreFor solver fuel input x s).1 := by
  have start : Moment.Reached e (Answers solver) input { now := x.begin e input } := .begin hx
  obtain ⟨accounted, full⟩ := begin_potential hx input
  refine ⟨_, 0, start.advanceFor, ?_, (e.exploreFor_fst solver fuel input x s).symm⟩
  exact advanceFor_idle accounted (full.trans_lt hf)

theorem explore_reports {input : Input} (hx : x.Fresh e) :
    e.Reports (Answers solver) input (e.explore solver input x s).1 := by
  rw [explore]
  exact exploreFor_reports hx (Nat.lt_add_one _)

end Explorer

end Concolic
