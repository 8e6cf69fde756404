import Mathlib
import Concolic.Proofs.Exploration.Progress

namespace Concolic

abbrev Direction := String × Bool

namespace Direction

def flip (d : Direction) : Direction := (d.1, !d.2)

theorem flip_ne (d : Direction) : d.flip ≠ d := by
  intro h
  have := congrArg Prod.snd h
  simp [flip] at this

variable {ds es : List Direction} {d : Direction} {n m : Nat}

theorem getElem?_of_prefix (h : ds ++ [d] <+: es) : es[ds.length]? = some d := by
  obtain ⟨rest, rfl⟩ := h
  simp

def turn (ds : List Direction) (n : Nat) : List Direction :=
  ds.take n ++ (ds[n]?.map flip).toList

theorem turn_eq (h : ds[n]? = some d) : turn ds n = ds.take n ++ [d.flip] := by
  simp [turn, h]

theorem turn_ne_nil (h : ds[n]? = some d) : turn ds n ≠ [] := by
  simp [turn_eq h]

theorem length_turn (h : ds[n]? = some d) : (turn ds n).length = n + 1 := by
  have hn : n < ds.length := (List.getElem?_eq_some_iff.mp h).1
  simp [turn_eq h, hn.le]

theorem getElem?_turn_self (h : ds[n]? = some d) : (turn ds n)[n]? = some d.flip := by
  have hn : n < ds.length := (List.getElem?_eq_some_iff.mp h).1
  simp [turn_eq h, hn.le]

theorem getElem?_turn_of_lt (h : ds[m]? = some d) (hn : n < m) : (turn ds m)[n]? = ds[n]? := by
  have hm : m < ds.length := (List.getElem?_eq_some_iff.mp h).1
  rw [turn_eq h, List.getElem?_append_left (by simp; omega), List.getElem?_take, if_pos hn]

theorem getElem?_of_prefix_of_some {ds es : List Direction} (h : ds <+: es) (hd : ds[n]? = some d) :
    es[n]? = some d := by
  obtain ⟨rest, rfl⟩ := h
  rw [List.getElem?_append_left (List.getElem?_eq_some_iff.mp hd).1, hd]

theorem turn_not_prefix (h : ds[n]? = some d) (hes : es[n]? = some d) : ¬turn ds n <+: es := by
  intro hp
  have := getElem?_of_prefix_of_some hp (getElem?_turn_self h)
  rw [hes] at this
  exact flip_ne d (Option.some.inj this).symm

theorem prefix_of_prefix_turn (h : es <+: turn ds n) (hne : es ≠ turn ds n) : es <+: ds := by
  cases hd : ds[n]? with
  | none =>
    rw [turn, hd, Option.map_none, Option.toList_none, List.append_nil] at h
    exact h.trans (ds.take_prefix n)
  | some d =>
    rw [turn_eq hd] at h hne
    rcases List.prefix_concat_iff.mp h with rfl | h
    · exact absurd rfl hne
    · exact h.trans (ds.take_prefix n)

end Direction

def keyOf (ds : List Direction) : UInt64 :=
  Text.hashBytes ⟨(ds.flatMap fun d => Branch.directionBytes d.1 d.2).toArray⟩

def Branch.direction (b : Branch) : Direction := (b.pos, b.taken)

@[simp] theorem Branch.direction_flip (b : Branch) : b.flip.direction = b.direction.flip := rfl

theorem directionKey_eq (before : List Branch) (pos : String) (taken : Bool) :
    directionKey before pos taken = keyOf (before.map Branch.direction ++ [(pos, taken)]) := by
  simp [directionKey, directionBytes, keyOf, List.flatMap_map, Branch.direction]

namespace Run

variable {r : Run} {ds : List Direction}

def directions (r : Run) : List Direction := r.path.map Branch.direction

theorem getElem?_directions (r : Run) (n : Nat) :
    r.directions[n]? = r.path[n]?.map Branch.direction := by
  simp [directions]

theorem prefix_directions {before : List Branch} (h : before <+: r.path) :
    before.map Branch.direction <+: r.directions :=
  h.map Branch.direction

theorem take_directions (r : Run) (n : Nat) :
    r.directions.take n = (r.path.take n).map Branch.direction := by
  simp [directions]

theorem mem_takenKeys {k : UInt64} :
    k ∈ r.takenKeys ↔ ∃ ds, ds ≠ [] ∧ ds <+: r.directions ∧ keyOf ds = k := by
  simp only [takenKeys, List.mem_map, Prod.exists, List.mem_zipIdx_iff_getElem?, directionKey_eq]
  constructor
  · rintro ⟨b, n, hb, rfl⟩
    refine ⟨_, by simp, ?_, rfl⟩
    have := r.directions.take_prefix (n + 1)
    rwa [List.take_add_one, getElem?_directions, hb, take_directions] at this
  · rintro ⟨ds, hne, hds, rfl⟩
    obtain ⟨es, d, rfl⟩ := (List.eq_nil_or_concat' ds).resolve_left hne
    have hd := Direction.getElem?_of_prefix hds
    rw [getElem?_directions] at hd
    obtain ⟨b, hb, rfl⟩ := Option.map_eq_some_iff.mp hd
    have hes := List.prefix_iff_eq_take.mp ((List.prefix_append es _).trans hds)
    refine ⟨b, es.length, hb, ?_⟩
    rw [← take_directions, ← hes]
    rfl

end Run

namespace BranchPoint

/-- The directions that runs on derived inputs take first. -/
def target (p : BranchPoint) : List Direction := Direction.turn p.run.directions p.index

end BranchPoint

namespace Run

variable {r s : Run} {p : BranchPoint}

theorem directionKey_turn {n : Nat} {b : Branch} (hb : r.path[n]? = some b) :
    directionKey (r.path.take n) b.pos (!b.taken) = keyOf (Direction.turn r.directions n) := by
  rw [directionKey_eq, Direction.turn, take_directions, getElem?_directions, hb]
  rfl

theorem mem_points :
    p ∈ r.points ↔ p.run = r ∧ p.key = keyOf p.target ∧
      ∃ b, r.path[p.index]? = some b ∧ b.isConcrete = false := by
  obtain ⟨run, n, key⟩ := p
  simp only [points, List.mem_filterMap, Prod.exists, List.mem_zipIdx_iff_getElem?,
    Option.ite_none_left_eq_some, Bool.not_eq_true, Option.some.injEq, BranchPoint.mk.injEq]
  constructor
  · rintro ⟨b, m, hb, hs, rfl, rfl, rfl⟩
    exact ⟨rfl, directionKey_turn hb, b, hb, hs⟩
  · rintro ⟨rfl, hk, b, hb, hs⟩
    exact ⟨b, n, hb, hs, rfl, rfl, (directionKey_turn hb).trans hk.symm⟩

theorem getElem?_of_mem_points (hp : p ∈ r.points) : ∃ d, p.run.directions[p.index]? = some d := by
  obtain ⟨rfl, -, b, hb, -⟩ := mem_points.mp hp
  exact ⟨b.direction, by rw [getElem?_directions, hb, Option.map_some]⟩

theorem Forked.point (h : r.Forked s) : ∃ p ∈ r.points, p.target <+: s.directions := by
  obtain ⟨before, b, hb, ⟨rest, hr⟩, hs⟩ := h
  have found : r.path[before.length]? = some b := by simp [← hr]
  have turn : Direction.turn r.directions before.length =
      (before ++ [b.flip]).map Branch.direction := by
    simp [Direction.turn, directions, ← hr]
  have target := prefix_directions hs
  rw [← turn] at target
  refine ⟨⟨r, before.length, keyOf (Direction.turn r.directions before.length)⟩, ?_, target⟩
  rw [mem_points]
  exact ⟨rfl, rfl, b, found, hb⟩

end Run

namespace Explorer

variable {e : Explorer} {i j : Input} {r s : Run} {p : BranchPoint}

theorem Yields.branches_of_target (he : e.IsFloatFree) (hi : i.Masked) (hj : j.Masked)
    (hr : e.Yields i r) (hs : e.Yields j s) (hp : p ∈ r.points) (h : p.target <+: s.directions) :
    ∃ b, r.path[p.index]? = some b ∧ r.path.take p.index ++ [b.flip] <+: s.path := by
  obtain ⟨rfl, -, b, hb, -⟩ := Run.mem_points.mp hp
  have hd : p.run.directions[p.index]? = some b.direction := by
    rw [Run.getElem?_directions, hb, Option.map_some]
  refine ⟨b, hb, ?_⟩
  rcases hr.alike_or_forked he hi hj hs with alike | ⟨before, c, -, ⟨rest, hc⟩, hc'⟩
  · refine absurd h (Direction.turn_not_prefix hd ?_)
    rw [Run.getElem?_directions, ← alike.path, hb, Option.map_some]
  rcases lt_trichotomy before.length p.index with hlt | heq | hgt
  · -- The runs do not part before the target does.
    exfalso
    have old : p.target[before.length]? = some c.direction := by
      rw [BranchPoint.target, Direction.getElem?_turn_of_lt hd hlt, Run.getElem?_directions, ← hc]
      simp
    have new : s.directions[before.length]? = some c.direction.flip := by
      obtain ⟨rest', hc'⟩ := hc'
      simp [Run.getElem?_directions, ← hc']
    rw [Direction.getElem?_of_prefix_of_some h old] at new
    exact Direction.flip_ne _ (Option.some.inj new).symm
  · rw [← hc, ← heq] at hb
    obtain rfl : c = b := by simpa using hb
    simpa [← hc, ← heq] using hc'
  · -- Nor after it, since they would have its branch in common.
    exfalso
    rw [← hc, List.append_assoc, List.getElem?_append_left hgt] at hb
    refine Direction.turn_not_prefix hd ?_ h
    obtain ⟨rest', hc'⟩ := hc'
    rw [Run.getElem?_directions, ← hc', List.append_assoc, List.getElem?_append_left hgt, hb,
      Option.map_some]

end Explorer

end Concolic
