import Concolic.Sat.Problem

namespace Concolic

/-- A library of boolean circuits. A circuit grows by an input or a gate at a time, and is given to
an engine as a problem. -/
structure Builder where
  Circuit : Type
  empty : Circuit
  top : Lit
  bottom : Lit
  input : StateM Circuit Lit
  and : Lit → Lit → StateM Circuit Lit
  or : Lit → Lit → StateM Circuit Lit
  all : List Lit → StateM Circuit Lit
  problem : Circuit → Sat.Problem

namespace Builder

abbrev Gates (B : Builder) := StateM B.Circuit

variable (B : Builder)

def ofBool (b : Bool) : Lit := if b then B.top else B.bottom

def xor (a b : Lit) : B.Gates Lit := do
  let x ← B.and a b.not
  let y ← B.and a.not b
  B.or x y

def choose (cond a b : Lit) : B.Gates Lit := do
  let x ← B.and cond a
  let y ← B.and cond.not b
  B.or x y

end Builder

end Concolic
