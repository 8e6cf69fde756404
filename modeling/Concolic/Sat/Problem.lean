namespace Concolic

/-- A literal: twice the number of a node, plus one if it is negated. -/
@[ext] structure Lit where
  code : Nat
  deriving DecidableEq, Hashable

namespace Lit

def ofNode (n : Nat) : Lit := ⟨2 * n⟩

def node (l : Lit) : Nat := l.code / 2

def isNegated (l : Lit) : Bool := l.code % 2 == 1

def not (l : Lit) : Lit := ⟨if l.code % 2 = 0 then l.code + 1 else l.code - 1⟩

def value (nodes : Nat → Bool) (l : Lit) : Bool := nodes l.node != l.isNegated

@[simp] theorem not_not (l : Lit) : l.not.not = l := by
  ext; simp only [not]; split <;> split <;> omega

@[simp] theorem node_not (l : Lit) : l.not.node = l.node := by
  simp only [node, not]; split <;> omega

@[simp] theorem isNegated_not (l : Lit) : l.not.isNegated = !l.isNegated := by
  rcases Nat.mod_two_eq_zero_or_one l.code with h | h
  · have : (l.code + 1) % 2 = 1 := by omega
    simp [isNegated, not, h, this]
  · have : (l.code - 1) % 2 = 0 := by omega
    simp [isNegated, not, h, this]

@[simp] theorem value_not (nodes : Nat → Bool) (l : Lit) :
    l.not.value nodes = !l.value nodes := by
  simp only [value, node_not, isNegated_not]
  cases nodes l.node <;> cases l.isNegated <;> rfl

end Lit

namespace Sat

abbrev Clause := List Lit

def Clause.holds (nodes : Nat → Bool) (c : Clause) : Bool := c.any (·.value nodes)

structure Problem where
  size : Nat
  clauses : List Clause

def Problem.Solved (p : Problem) (nodes : Nat → Bool) : Prop :=
  ∀ c ∈ p.clauses, Clause.holds nodes c = true

def Problem.assuming (p : Problem) (roots : List Lit) : Problem :=
  { p with clauses := roots.map (fun l => [l]) ++ p.clauses }

inductive Verdict
  | sat (nodes : Nat → Bool)
  | unsat
  | gaveUp

/-- A procedure that decides problems. Of the solutions it may look for one that makes the preferred
literals true, earlier ones first. -/
abbrev Engine := (p : Problem) → (preferred : List Lit) → Verdict

structure Engine.Decides (e : Engine) : Prop where
  solved : ∀ p preferred nodes, e p preferred = .sat nodes → p.Solved nodes
  refuted : ∀ p preferred, e p preferred = .unsat → ∀ nodes, ¬ p.Solved nodes
  answered : ∀ p preferred, e p preferred ≠ .gaveUp

end Sat

end Concolic
