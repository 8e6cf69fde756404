import Concolic.Term.Build

namespace Concolic

structure Branch where
  pos : String
  cond : Term
  taken : Bool
  deriving DecidableEq

namespace Branch

/-- The condition depends on no input, so the branch has no other direction. -/
def isConcrete (b : Branch) : Bool := b.cond.isConstant

def constraint (b : Branch) : Term := if b.taken then b.cond else b.cond.mkNot

def negated (b : Branch) : Term := if b.taken then b.cond.mkNot else b.cond

def flip (b : Branch) : Branch := { b with taken := !b.taken }

def text (b : Branch) : String :=
  b.pos ++ " " ++ (if b.taken then "true" else "false") ++ " " ++ b.cond.text

@[simp] theorem constraint_flip (b : Branch) : b.flip.constraint = b.negated := by
  cases h : b.taken <;> simp [flip, constraint, negated, h]

@[simp] theorem flip_flip (b : Branch) : b.flip.flip = b := by simp [flip]

end Branch

def pathCondition (path : List Branch) : List Term :=
  (path.filter fun b => !b.isConcrete).map Branch.constraint

end Concolic
