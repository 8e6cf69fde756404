import Mathlib
import Concolic.Proofs.Frontier

/-!
The books of a frontier. Whatever is asked of it in whatever order, a point that was ever added is
pending, deferred, handed out or counted as done with, and it is in one of these places only.
-/

namespace Concolic

namespace Strategy

def InRange (strategy : Strategy) : Prop :=
  ∀ turn ps, ps ≠ [] → ∃ i, strategy turn ps = .ok i ∧ 0 ≤ i ∧ i < (ps.length : Int)

end Strategy

theorem SearchOrder.inRange_select [g : Generator] (order : SearchOrder) (seed : Int64) :
    (order.select seed).InRange := by
  intro turn ps hps
  have pos := List.length_pos_of_ne_nil hps
  cases order with
  | depthFirst => exact ⟨_, rfl, by omega, by omega⟩
  | breadthFirst => exact ⟨_, rfl, by omega, by omega⟩
  | random =>
    have lt := g.below_lt seed turn pos
    refine ⟨(g.below seed turn ps.length : Nat), ?_, by omega, by omega⟩
    simp only [select, List.isEmpty_iff, hps, if_false]
    rfl

theorem SearchPlan.inRange_select [Generator] (plan : SearchPlan) (seed : Int64) :
    (plan.select seed).InRange :=
  fun _ ps hps => SearchOrder.inRange_select _ seed _ ps hps

namespace Satisfiability

def isOpen (status : Satisfiability) : Bool := status != .sat && status != .unsat

end Satisfiability

namespace Frontier

variable {f g : Frontier} {strategy : Strategy} {p : BranchPoint}

theorem select_total (hs : strategy.InRange) (hf : f.pending ≠ []) :
    ∃ p g, f.select strategy = .ok (p, g) := by
  obtain ⟨i, hi, nonneg, lt⟩ := hs f.turn f.pending hf
  have bound : i.toNat < f.pending.length := by omega
  unfold select
  rw [hi, ok_bind, if_neg (by omega), List.getElem?_eq_getElem bound]
  exact ⟨_, _, rfl⟩

theorem nextFrom_total (hs : strategy.InRange) {fuel : Nat} (hf : f.size < fuel) :
    ∃ found g, nextFrom strategy fuel f = .ok (found, g) ∧ (found = none → g.waiting = []) := by
  induction fuel generalizing f with
  | zero => omega
  | succ fuel ih =>
    rw [nextFrom]
    split
    next he =>
      refine ⟨none, f.refill, rfl, fun _ => ?_⟩
      unfold refill at he ⊢
      split at he <;> simp_all [waiting]
    next he =>
      obtain ⟨p, g, hg⟩ := select_total hs (by simpa using he)
      rw [hg, ok_bind]
      dsimp only
      split
      · -- The point that is dropped makes the frontier smaller.
        apply ih
        have length := (select_refill hg).1.length_eq
        simp only [waiting, List.length_cons, List.length_append] at length
        simp only [size, skip] at hf ⊢
        omega
      · exact ⟨some p, g, rfl, by simp⟩

theorem next_total (hs : strategy.InRange) (f : Frontier) :
    ∃ found g, f.next strategy = .ok (found, g) ∧ (found = none → g.waiting = []) :=
  nextFrom_total hs (Nat.lt_succ_self f.size)

/-- Where the points come from that are pending after a turn or taken out by it. Deferred ones are
among them only if all that were pending had to be dropped. -/
inductive Turns (f : Frontier) (found : Option BranchPoint) (g : Frontier) : Prop
  | pending (deferred : g.deferred = f.deferred)
      (from_pending : (found.toList ++ g.pending).Subperm f.pending)
  | refilled (exhausted : ∀ p ∈ f.pending, p.key ∈ f.covered) (deferred : g.deferred = [])
      (from_deferred : (found.toList ++ g.pending).Subperm f.deferred)

theorem Turns.drop {h : Frontier} {found : Option BranchPoint} (ht : g.Turns found h)
    (perm : (p :: g.pending).Perm f.pending) (deferred : g.deferred = f.deferred)
    (covered : g.covered = f.covered) (hp : p.key ∈ f.covered) : f.Turns found h := by
  cases ht with
  | pending hd sub =>
    refine .pending (hd.trans deferred) (sub.trans ?_)
    exact (List.subperm_cons_self).trans perm.subperm
  | refilled exhausted hd sub =>
    refine .refilled (fun q hq => ?_) hd (deferred ▸ sub)
    rcases List.mem_cons.mp (perm.symm.subset hq) with rfl | hq
    · exact hp
    · exact covered ▸ exhausted q hq

theorem Turns.of_refill {found : Option BranchPoint} (ht : f.refill.Turns found g) :
    f.Turns found g := by
  unfold refill at ht
  split at ht
  next he =>
    have empty : f.pending = [] := by simpa using he
    have exhausted : ∀ p ∈ f.pending, p.key ∈ f.covered := by simp [empty]
    cases ht with
    | pending hd sub => exact .refilled exhausted hd sub
    | refilled _ hd sub =>
      -- Nothing is deferred after a refill.
      obtain ⟨rfl, hg⟩ : found = none ∧ g.pending = [] := by
        simpa using List.subperm_nil.mp sub
      exact .refilled exhausted hd (by simp [hg])
  next => exact ht

theorem nextFrom_turns {fuel : Nat} {found : Option BranchPoint}
    (h : nextFrom strategy fuel f = .ok (found, g)) : f.Turns found g := by
  induction fuel generalizing f with
  | zero =>
    cases h
    exact .pending rfl (.refl g.pending)
  | succ fuel ih =>
    rw [nextFrom] at h
    apply Turns.of_refill
    split at h
    next =>
      cases h
      exact .pending rfl (.refl f.refill.pending)
    next =>
      obtain ⟨⟨p, f'⟩, hs, h⟩ := bind_eq_ok h
      obtain ⟨perm, frame⟩ := select_perm hs
      have deferred : f'.deferred = f.refill.deferred := by rw [frame]
      have covered : f'.covered = f.refill.covered := by rw [frame]
      dsimp only at h
      split at h
      next hc =>
        rw [covered, ← Std.TreeSet.mem_iff_contains] at hc
        have turns := ih h
        exact turns.drop perm deferred covered hc
      next =>
        cases h
        exact .pending deferred (by simpa using perm.subperm)

inductive Settles (f : Frontier) (p : BranchPoint) : Satisfiability → Frontier → Prop
  | sat : f.Settles p .sat { f with counters := { f.counters with sat := f.counters.sat + 1 } }
  | unsat :
    f.Settles p .unsat { f with counters := { f.counters with unsat := f.counters.unsat + 1 } }
  | deferred {status : Satisfiability} (unknown : status ≠ .sat ∧ status ≠ .unsat)
      (retry : (f.retriesOf p : Int) < f.maxRetries) :
    f.Settles p status { f with
      counters := { f.counters with unknown := f.counters.unknown + 1 }
      retries := f.retries.insert p.key (f.retriesOf p + 1)
      deferred := f.deferred ++ [p] }
  | abandoned {status : Satisfiability} (unknown : status ≠ .sat ∧ status ≠ .unsat) :
    f.Settles p status { f with
      counters := { f.counters with
        unknown := f.counters.unknown + 1, abandoned := f.counters.abandoned + 1 } }

theorem resolve_settles (f : Frontier) (p : BranchPoint) (status : Satisfiability) :
    f.Settles p status (f.resolve p status) := by
  unfold resolve
  split
  · exact .sat
  · exact .unsat
  all_goals
    dsimp only
    split
    next hr => exact .deferred (by simp) hr
    next => exact .abandoned (by simp)

theorem getD_retries (retries : Std.TreeMap UInt64 Nat) (k j : UInt64) :
    (retries.insert k (retries.getD k 0 + 1)).getD j 0 =
      retries.getD j 0 + if k = j then 1 else 0 := by
  rw [Std.TreeMap.getD_insert]
  simp only [Std.LawfulEqCmp.compare_eq_iff_eq]
  split
  next hk => rw [hk]
  next => rfl

theorem sum_retries (retries : Std.TreeMap UInt64 Nat) (k : UInt64) :
    ∑ j, (retries.insert k (retries.getD k 0 + 1)).getD j 0 = ∑ j, retries.getD j 0 + 1 := by
  rw [Finset.sum_congr rfl fun j _ => getD_retries retries k j, Finset.sum_add_distrib,
    Finset.sum_ite_eq, if_pos (Finset.mem_univ k)]

namespace Settles

variable {status : Satisfiability}

theorem frame (h : f.Settles p status g) :
    g.maxRetries = f.maxRetries ∧ g.seen = f.seen ∧ g.covered = f.covered := by
  cases h <;> exact ⟨rfl, rfl, rfl⟩

theorem counters (h : f.Settles p status g) :
    g.counters.sat = f.counters.sat + (if status = .sat then 1 else 0) ∧
    g.counters.unsat = f.counters.unsat + (if status = .unsat then 1 else 0) ∧
    g.counters.unknown = f.counters.unknown + (if status.isOpen then 1 else 0) := by
  cases h with
  | sat => exact ⟨rfl, rfl, rfl⟩
  | unsat => exact ⟨rfl, rfl, rfl⟩
  | deferred unknown => simp [unknown, Satisfiability.isOpen]
  | abandoned unknown => simp [unknown, Satisfiability.isOpen]

theorem waiting (h : f.Settles p status g) : g.waiting = f.waiting ∨ g.waiting = f.waiting ++ [p] := by
  cases h with
  | deferred => exact .inr (List.append_assoc ..).symm
  | _ => exact .inl rfl

theorem places (h : f.Settles p status g) :
    g.waiting.length + g.counters.sat + g.counters.unsat + g.counters.abandoned +
      g.counters.skipped = f.waiting.length + f.counters.sat + f.counters.unsat +
        f.counters.abandoned + f.counters.skipped + 1 := by
  cases h with
  | deferred =>
    simp only [Frontier.waiting, List.length_append, List.length_singleton]
    omega
  | _ =>
    simp only [Frontier.waiting]
    omega

theorem retried (h : f.Settles p status g)
    (hf : f.counters.unknown = f.counters.abandoned + ∑ k, f.retries.getD k 0) :
    g.counters.unknown = g.counters.abandoned + ∑ k, g.retries.getD k 0 := by
  cases h with
  | sat => exact hf
  | unsat => exact hf
  | deferred =>
    have sum := sum_retries f.retries p.key
    simp only [retriesOf]
    omega
  | abandoned =>
    dsimp only
    omega

theorem retries_le (h : f.Settles p status g) (k : UInt64) :
    g.retries.getD k 0 ≤ f.retries.getD k 0 ∨
      p.key = k ∧ (g.retries.getD k 0 : Int) ≤ f.maxRetries := by
  cases h with
  | deferred _ retry =>
    simp only [retriesOf] at retry ⊢
    rw [getD_retries]
    split
    next hk =>
      subst hk
      exact .inr ⟨rfl, retry⟩
    next => exact .inl (Nat.le_refl _)
  | _ => exact .inl (Nat.le_refl _)

theorem turns (h : f.Settles p status g) (k : UInt64) :
    (g.waiting.map BranchPoint.key).count k + f.retries.getD k 0 =
      (f.waiting.map BranchPoint.key).count k + g.retries.getD k 0 := by
  cases h with
  | deferred =>
    simp only [retriesOf, Frontier.waiting, List.map_append, List.count_append, getD_retries,
      List.map_singleton, List.count_singleton, beq_iff_eq]
    omega
  | _ => rfl

end Settles

end Frontier

structure Ledger where
  frontier : Frontier
  outstanding : List BranchPoint := []
  enqueued : List BranchPoint := []
  added : Nat := 0
  returned : List BranchPoint := []
  expanded : List Run := []
  answers : List (BranchPoint × Satisfiability) := []

namespace Ledger

def new (maxRetries : Int) : Ledger := { frontier := { maxRetries } }

def expand (l : Ledger) (run : Run) : Ledger :=
  let (n, g) := l.frontier.expand run
  { l with
    frontier := g
    enqueued := l.enqueued ++ g.pending.drop l.frontier.pending.length
    added := l.added + n
    expanded := l.expanded ++ [run] }

def give (l : Ledger) (found : Option BranchPoint) (g : Frontier) : Ledger :=
  { l with
    frontier := g
    outstanding := l.outstanding ++ found.toList
    returned := l.returned ++ found.toList }

def resolve (l : Ledger) (p : BranchPoint) (status : Satisfiability) : Ledger :=
  { l with
    frontier := l.frontier.resolve p status
    outstanding := l.outstanding.erase p
    answers := l.answers ++ [(p, status)] }

inductive Step (strategy : Strategy) : Ledger → Ledger → Prop
  | expand (l : Ledger) (run : Run) : Step strategy l (l.expand run)
  | next {l : Ledger} {found : Option BranchPoint} {g : Frontier} :
    l.frontier.next strategy = .ok (found, g) → Step strategy l (l.give found g)
  | resolve {l : Ledger} {p : BranchPoint} (status : Satisfiability) :
    p ∈ l.outstanding → Step strategy l (l.resolve p status)

abbrev Later (strategy : Strategy) : Ledger → Ledger → Prop := Relation.ReflTransGen (Step strategy)

open BranchPoint

/-- Where the points and their keys are, and what the counters stand for. -/
structure Balanced (maxRetries : Int) (l : Ledger) : Prop where
  limit : l.frontier.maxRetries = maxRetries
  enqueued : (l.enqueued.map key).Nodup
  seen : ∀ k, k ∈ l.frontier.seen ↔ k ∈ l.enqueued.map key
  known : ∀ p ∈ l.frontier.waiting ++ l.outstanding, p ∈ l.enqueued
  distinct : ((l.frontier.waiting ++ l.outstanding).map key).Nodup
  covered : ∀ k, k ∈ l.frontier.covered ↔ ∃ run ∈ l.expanded, k ∈ run.takenKeys
  added : l.added = l.enqueued.length
  places : l.enqueued.length = l.frontier.waiting.length + l.outstanding.length +
    l.frontier.counters.sat + l.frontier.counters.unsat + l.frontier.counters.abandoned +
    l.frontier.counters.skipped
  answered : (l.answers.map (·.1) ++ l.outstanding).Perm l.returned
  sat : l.frontier.counters.sat = l.answers.countP (·.2 = .sat)
  unsat : l.frontier.counters.unsat = l.answers.countP (·.2 = .unsat)
  unknown : l.frontier.counters.unknown = l.answers.countP (·.2.isOpen)
  retried : l.frontier.counters.unknown =
    l.frontier.counters.abandoned + ∑ k, l.frontier.retries.getD k 0
  retries : ∀ k, l.frontier.retries.getD k 0 ≤ if k ∈ l.frontier.seen then maxRetries.toNat else 0
  turns : ∀ k, (l.returned.map key).count k + (l.frontier.waiting.map key).count k ≤
    l.frontier.retries.getD k 0 + (l.enqueued.map key).count k

theorem balanced_new (maxRetries : Int) : (new maxRetries).Balanced maxRetries := by
  constructor <;> simp [new, Frontier.waiting]

namespace Balanced

variable {l : Ledger} {maxRetries : Int} {p : BranchPoint}

theorem expand (h : l.Balanced maxRetries) (run : Run) : (l.expand run).Balanced maxRetries := by
  obtain ⟨new, adds⟩ := l.frontier.expand_adds run
  have count : (l.frontier.expand run).1 = new.length := by
    change (l.frontier.expand run).2.pending.length - _ = _
    rw [adds.frame]
    simp [Frontier.cover]
  unfold Ledger.expand
  generalize l.frontier.expand run = x at adds count
  obtain ⟨n, g⟩ := x
  obtain rfl : n = new.length := count
  dsimp only at adds
  have pending : g.pending = l.frontier.pending ++ new := congrArg (·.pending) adds.frame
  have deferred : g.deferred = l.frontier.deferred := congrArg (·.deferred) adds.frame
  have retries : g.retries = l.frontier.retries := congrArg (·.retries) adds.frame
  have counters : g.counters = l.frontier.counters := congrArg (·.counters) adds.frame
  have covered : g.covered = (l.frontier.cover run.takenKeys).covered :=
    congrArg (·.covered) adds.frame
  -- The new points stand before the deferred ones.
  have waiting : g.waiting.Perm (l.frontier.waiting ++ new) := by
    simp only [Frontier.waiting, pending, deferred, List.append_assoc]
    exact List.perm_append_comm.append_left _
  have all : (g.waiting ++ l.outstanding).Perm (l.frontier.waiting ++ l.outstanding ++ new) := by
    refine (waiting.append_right _).trans ?_
    simp only [List.append_assoc]
    exact List.perm_append_comm.append_left _
  have seen (k : UInt64) : k ∈ g.seen ↔ k ∈ l.frontier.seen ∨ k ∈ new.map key := adds.seen k
  have fresh {k : UInt64} (hk : k ∈ new.map key) : k ∉ l.enqueued.map key := by
    obtain ⟨q, hq, rfl⟩ := List.mem_map.mp hk
    exact fun hold => (adds.fresh q hq).2 ((h.seen _).mpr hold)
  dsimp only
  rw [pending, List.drop_left]
  refine ⟨?_, ?_, ?_, ?_, ?_, ?_, ?_, ?_, h.answered, ?_, ?_, ?_, ?_, ?_, ?_⟩
  · exact (congrArg (·.maxRetries) adds.frame).trans h.limit
  · rw [List.map_append]
    exact h.enqueued.append adds.nodup fun k hk hnew => fresh hnew hk
  · intro k
    rw [seen, h.seen, List.map_append, List.mem_append]
  · intro p hp
    exact List.mem_append.mpr ((List.mem_append.mp (all.subset hp)).imp_left (h.known p))
  · rw [(all.map key).nodup_iff, List.map_append]
    refine h.distinct.append adds.nodup fun k hk hnew => fresh hnew ?_
    obtain ⟨p, hp, rfl⟩ := List.mem_map.mp hk
    exact List.mem_map_of_mem (h.known p hp)
  · intro k
    rw [covered, Frontier.mem_cover]
    simp only [h.covered, List.mem_append, List.mem_singleton, or_and_right, exists_or,
      exists_eq_left]
  · rw [List.length_append, h.added]
  · have := h.places
    have length := waiting.length_eq
    simp only [List.length_append, counters] at length ⊢
    omega
  · rw [counters, h.sat]
  · rw [counters, h.unsat]
  · rw [counters, h.unknown]
  · rw [counters, retries, h.retried]
  · intro k
    have bound := h.retries k
    simp only [retries, seen]
    split at bound
    next hk => simpa [hk] using bound
    next => omega
  · intro k
    have := h.turns k
    have moved := (waiting.map key).count_eq k
    simp only [List.map_append, List.count_append, retries] at moved ⊢
    omega

theorem draw (h : l.Balanced maxRetries) {dropped : List BranchPoint} {found : Option BranchPoint}
    {g : Frontier} (draws : l.frontier.Draws dropped found g) :
    (l.give found g).Balanced maxRetries := by
  obtain ⟨turn, frame⟩ := draws.frame
  have seen : g.seen = l.frontier.seen := by rw [frame]
  have retries : g.retries = l.frontier.retries := by rw [frame]
  have covered : g.covered = l.frontier.covered := by rw [frame]
  have counters : g.counters =
      { l.frontier.counters with skipped := l.frontier.counters.skipped + dropped.length } := by
    rw [frame]
  have all : (dropped ++ (g.waiting ++ (l.outstanding ++ found.toList))).Perm
      (l.frontier.waiting ++ l.outstanding) := by
    refine List.Perm.trans ?_ (draws.perm.append_right l.outstanding)
    rw [List.append_assoc]
    refine .append_left dropped ?_
    rw [List.append_assoc, ← List.append_assoc]
    exact List.perm_append_comm
  have sub {p : BranchPoint} (hp : p ∈ g.waiting ++ (l.outstanding ++ found.toList)) :
      p ∈ l.frontier.waiting ++ l.outstanding := all.subset (List.mem_append_right _ hp)
  unfold give
  refine ⟨?_, h.enqueued, ?_, ?_, ?_, ?_, h.added, ?_, ?_, ?_, ?_, ?_, ?_, ?_, ?_⟩
  · rw [frame]
    exact h.limit
  · rw [seen]
    exact h.seen
  · exact fun p hp => h.known p (sub hp)
  · have nodup := (all.map key).nodup_iff.mpr h.distinct
    rw [List.map_append] at nodup
    exact (List.nodup_append.mp nodup).2.1
  · rw [covered]
    exact h.covered
  · have := h.places
    have length := all.length_eq
    simp only [List.length_append, counters] at length ⊢
    omega
  · rw [← List.append_assoc]
    exact h.answered.append_right _
  · rw [counters, ← h.sat]
  · rw [counters, ← h.unsat]
  · rw [counters, ← h.unknown]
  · rw [counters, retries, h.retried]
  · rw [seen, retries]
    exact h.retries
  · intro k
    have := h.turns k
    have moved := (draws.perm.map key).count_eq k
    simp only [List.map_append, List.count_append, retries] at moved ⊢
    omega

theorem resolve (h : l.Balanced maxRetries) (hp : p ∈ l.outstanding) (status : Satisfiability) :
    (l.resolve p status).Balanced maxRetries := by
  have settles := l.frontier.resolve_settles p status
  unfold Ledger.resolve
  generalize l.frontier.resolve p status = g at settles
  obtain ⟨limit, seen, covered⟩ := settles.frame
  obtain ⟨sat, unsat, unknown⟩ := settles.counters
  have erased := List.perm_cons_erase hp
  have fewer : (g.waiting ++ l.outstanding.erase p).Subperm
      (l.frontier.waiting ++ l.outstanding) := by
    rcases settles.waiting with same | back
    · rw [same]
      exact (List.erase_sublist.append_left _).subperm
    · rw [back, List.append_assoc]
      exact (erased.symm.append_left _).subperm
  refine ⟨limit.trans h.limit, h.enqueued, ?_, fun q hq => h.known q (fewer.subset hq), ?_, ?_,
    h.added, ?_, ?_, ?_, ?_, ?_, settles.retried h.retried, ?_, ?_⟩
  · rw [seen]
    exact h.seen
  · obtain ⟨points, perm, sub⟩ := fewer
    exact (perm.map key).nodup_iff.mp (h.distinct.sublist (sub.map key))
  · rw [covered]
    exact h.covered
  · have length := erased.length_eq
    have before := h.places
    have places := settles.places
    rw [List.length_cons] at length
    dsimp only
    omega
  · refine List.Perm.trans ?_ h.answered
    rw [List.map_append, List.append_assoc]
    exact erased.symm.append_left _
  · simp [List.countP_append, List.countP_singleton, sat, h.sat]
  · simp [List.countP_append, List.countP_singleton, unsat, h.unsat]
  · simp [List.countP_append, List.countP_singleton, unknown, h.unknown]
  · intro k
    have before := h.retries k
    rw [seen]
    rcases settles.retries_le k with le | ⟨rfl, le⟩
    · exact le.trans before
    · -- Only points that were added are retried.
      have mem : p.key ∈ l.frontier.seen :=
        (h.seen _).mpr (List.mem_map_of_mem (h.known p (List.mem_append_right _ hp)))
      have := h.limit
      rw [if_pos mem]
      dsimp only
      omega
  · intro k
    have before := h.turns k
    have turns := settles.turns k
    dsimp only
    omega

theorem step {strategy : Strategy} {m : Ledger} (h : l.Balanced maxRetries)
    (hs : Step strategy l m) : m.Balanced maxRetries := by
  cases hs with
  | expand run => exact h.expand run
  | next hn =>
    obtain ⟨dropped, draws⟩ := Frontier.next_draws hn
    exact h.draw draws
  | resolve status hp => exact h.resolve hp status

theorem later {strategy : Strategy} {m : Ledger} (h : l.Balanced maxRetries)
    (hl : Later strategy l m) : m.Balanced maxRetries := by
  induction hl with
  | refl => exact h
  | tail _ hs ih => exact ih.step hs

theorem sum_retries_le (h : l.Balanced maxRetries) :
    ∑ k, l.frontier.retries.getD k 0 ≤ maxRetries.toNat * l.enqueued.length := by
  set keys := (l.enqueued.map key).toFinset
  have bound (k : UInt64) :
      l.frontier.retries.getD k 0 ≤ if k ∈ keys then maxRetries.toNat else 0 := by
    have := h.retries k
    simpa only [h.seen, keys, List.mem_toFinset] using this
  calc
    ∑ k, l.frontier.retries.getD k 0 ≤ ∑ k, if k ∈ keys then maxRetries.toNat else 0 :=
      Finset.sum_le_sum fun k _ => bound k
    _ = maxRetries.toNat * keys.card := by
      rw [Finset.sum_ite_mem, Finset.univ_inter, Finset.sum_const, smul_eq_mul, Nat.mul_comm]
    _ = maxRetries.toNat * l.enqueued.length := by
      rw [List.toFinset_card_of_nodup h.enqueued, List.length_map]

theorem length_answers (h : l.Balanced maxRetries) :
    l.answers.length =
      l.frontier.counters.sat + l.frontier.counters.unsat + l.frontier.counters.unknown := by
  rw [h.sat, h.unsat, h.unknown]
  generalize l.answers = answers
  induction answers with
  | nil => rfl
  | cons a answers ih =>
    obtain ⟨p, status⟩ := a
    cases status <;> simp [Satisfiability.isOpen, ih] <;> omega

theorem count_returned_le (h : l.Balanced maxRetries) (k : UInt64) :
    (l.returned.map key).count k ≤ maxRetries.toNat + 1 := by
  have turns := h.turns k
  have retries := h.retries k
  have once := List.nodup_iff_count_le_one.mp h.enqueued k
  split at retries <;> omega

end Balanced

variable {strategy : Strategy} {l m : Ledger}

theorem Step.expanded (h : Step strategy l m) : l.expanded <+: m.expanded := by
  cases h with
  | expand run => exact List.prefix_append _ _
  | next => exact List.prefix_rfl
  | resolve => exact List.prefix_rfl

theorem expanded_grows (h : Later strategy l m) : l.expanded <+: m.expanded := by
  induction h with
  | refl => exact List.prefix_rfl
  | tail _ hs ih => exact ih.trans hs.expanded

end Ledger

theorem Run.mem_takenKeys_iff {r : Run} {k : UInt64} :
    k ∈ r.takenKeys ↔ ∃ n b, r.path[n]? = some b ∧ branchKey r.path n b.taken = .ok k := by
  simp only [takenKeys, List.mem_map, Prod.exists, List.mem_zipIdx_iff_getElem?, branchKey]
  constructor
  · rintro ⟨b, n, hb, rfl⟩
    exact ⟨n, b, hb, by simp [hb]⟩
  · rintro ⟨n, b, hb, hk⟩
    exact ⟨b, n, hb, by simpa [hb] using hk⟩

namespace Ledger

open BranchPoint

/-- The books of a frontier after any history. The next search of the frontier succeeds, and what it
finds is not covered. -/
theorem books_balance {strategy : Strategy} (hs : strategy.InRange) {maxRetries : Int} {l : Ledger}
    (h : Later strategy (.new maxRetries) l) :
    (l.enqueued.map key).Nodup ∧
    ((l.frontier.pending ++ l.frontier.deferred ++ l.outstanding).map key).Nodup ∧
    (∃ found g, l.frontier.next strategy = .ok (found, g) ∧
      (found = none → g.pending = [] ∧ g.deferred = []) ∧
      (∀ p ∈ found, p.key ∉ l.frontier.covered) ∧ l.frontier.Turns found g) ∧
    (∀ k, (l.returned.map key).count k ≤ maxRetries.toNat + 1) ∧
    (∀ k, k ∈ l.frontier.covered ↔ ∃ run ∈ l.expanded, ∃ n b,
      run.path[n]? = some b ∧ branchKey run.path n b.taken = .ok k) ∧
    (∀ m, Later strategy l m → ∀ k ∈ l.frontier.covered, k ∈ m.frontier.covered) ∧
    l.added = l.enqueued.length ∧
    l.added = l.frontier.stats.pending + l.frontier.stats.deferred + l.outstanding.length +
      l.frontier.stats.sat + l.frontier.stats.unsat + l.frontier.stats.abandoned +
      l.frontier.stats.skipped ∧
    l.frontier.stats.sat = l.answers.countP (·.2 = .sat) ∧
    l.frontier.stats.unsat = l.answers.countP (·.2 = .unsat) ∧
    l.frontier.stats.unknown = l.answers.countP (·.2.isOpen) ∧
    l.frontier.stats.abandoned ≤ l.frontier.stats.unknown ∧
    l.frontier.stats.unknown ≤ l.frontier.stats.abandoned + maxRetries.toNat * l.added := by
  have balanced := (balanced_new maxRetries).later h
  have sum := balanced.sum_retries_le
  have retried := balanced.retried
  refine ⟨balanced.enqueued, balanced.distinct, ?_, balanced.count_returned_le, ?_, ?_,
    balanced.added, ?_, balanced.sat, balanced.unsat, balanced.unknown, ?_, ?_⟩
  · obtain ⟨found, g, hn, none⟩ := Frontier.next_total hs l.frontier
    obtain ⟨dropped, draws⟩ := Frontier.next_draws hn
    exact ⟨found, g, hn, fun he => List.append_eq_nil_iff.mp (none he), draws.fresh,
      Frontier.nextFrom_turns hn⟩
  · intro k
    simp only [balanced.covered, Run.mem_takenKeys_iff]
  · intro m hm k hk
    obtain ⟨run, hrun, taken⟩ := (balanced.covered k).mp hk
    exact ((balanced.later hm).covered k).mpr ⟨run, (expanded_grows hm).subset hrun, taken⟩
  · have := balanced.places
    rw [balanced.added, this, Frontier.waiting, List.length_append]
    rfl
  · simp only [Frontier.stats]
    omega
  · simp only [Frontier.stats, balanced.added]
    omega

def sampleRun : Run := { id := "r", path := [⟨"main:0", .var "x" .bool, true⟩] }

theorem books_balance_retry :
    (SearchOrder.depthFirst.select 0).InRange ∧
    ∃ l, Later (SearchOrder.depthFirst.select 0) (.new 1) l ∧ l.returned.length = 1 ∧
      l.answers.countP (·.2.isOpen) = 1 ∧
      ((l.frontier.pending ++ l.frontier.deferred ++ l.outstanding).map key).Nodup ∧
      l.added = l.frontier.stats.pending + l.frontier.stats.deferred + l.outstanding.length +
        l.frontier.stats.sat + l.frontier.stats.unsat + l.frontier.stats.abandoned +
        l.frontier.stats.skipped ∧
      l.frontier.stats.unknown ≤ l.frontier.stats.abandoned + 1 * l.added := by
  have range := SearchOrder.depthFirst.inRange_select 0
  set first := (new 1).expand sampleRun
  have some : (((first.frontier.next (SearchOrder.depthFirst.select 0)).toOption.bind
    (·.1)).isSome) = true := by decide +kernel
  obtain ⟨found, g, hn, -⟩ := Frontier.next_total range first.frontier
  rw [hn] at some
  obtain ⟨p, rfl⟩ : ∃ p, found = Option.some p := Option.isSome_iff_exists.mp some
  have history : Later (SearchOrder.depthFirst.select 0) (.new 1)
      ((first.give p g).resolve p .unknown) :=
    ((Relation.ReflTransGen.single (.expand _ sampleRun)).tail (.next hn)).tail
      (.resolve .unknown (by simp [give]))
  obtain ⟨-, distinct, -, -, -, -, -, places, -, -, -, -, unknown⟩ := books_balance range history
  exact ⟨range, _, history, rfl, rfl, distinct, places, unknown⟩

end Ledger

end Concolic
