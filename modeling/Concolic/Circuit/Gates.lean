import Std.Data.HashMap
import Concolic.Circuit.Basic

namespace Concolic

namespace Lit

def top : Lit := ⟨0⟩

def bottom : Lit := ⟨1⟩

end Lit

inductive Node
  | top
  | input
  | and (a b : Lit)
  deriving DecidableEq

structure Circuit where
  nodes : Array Node := #[.top]
  gates : Std.HashMap (Lit × Lit) Nat := {}

namespace Circuit

def nextValue (inputs : Nat → Bool) (values : Array Bool) (n : Node) : Bool :=
  match n with
  | .top => true
  | .input => inputs values.size
  | .and a b =>
    a.value (fun i => values.getD i false) && b.value (fun i => values.getD i false)

def values (c : Circuit) (inputs : Nat → Bool) : Array Bool :=
  c.nodes.foldl (fun vs n => vs.push (nextValue inputs vs n)) #[]

def value (c : Circuit) (inputs : Nat → Bool) (l : Lit) : Bool :=
  l.value fun n => (c.values inputs).getD n false

end Circuit

namespace Gates

def input : StateM Circuit Lit := fun c =>
  (Lit.ofNode c.nodes.size, { c with nodes := c.nodes.push .input })

def gate (a b : Lit) : StateM Circuit Lit := fun c =>
  match c.gates[(a, b)]? with
  | some n => (Lit.ofNode n, c)
  | none =>
    let n := c.nodes.size
    (Lit.ofNode n, { nodes := c.nodes.push (.and a b), gates := c.gates.insert (a, b) n })

/-- A conjunction. Constants and equal or opposite operands need no gate. -/
def and (a b : Lit) : StateM Circuit Lit :=
  if a = b then return a
  else if a = b.not then return Lit.bottom
  else
    let low := if a.code ≤ b.code then a else b
    let high := if a.code ≤ b.code then b else a
    if low = Lit.bottom then return Lit.bottom
    else if low = Lit.top then return high
    else gate low high

def or (a b : Lit) : StateM Circuit Lit := do return (← and a.not b.not).not

def all (acc : Lit) : List Lit → StateM Circuit Lit
  | [] => return acc
  | l :: rest => do all (← and acc l) rest

def nodeClauses (number : Nat) (n : Node) : List Sat.Clause :=
  let out := Lit.ofNode number
  match n with
  | .top => [[out]]
  | .input => []
  | .and a b => [[out.not, a], [out.not, b], [out, a.not, b.not]]

def problem (c : Circuit) : Sat.Problem where
  size := c.nodes.size
  clauses := c.nodes.toList.zipIdx.flatMap fun (n, number) => nodeClauses number n

abbrev builder : Builder where
  Circuit := Circuit
  empty := {}
  top := Lit.top
  bottom := Lit.bottom
  input := input
  and := and
  or := or
  all := all Lit.top
  problem := problem

theorem nodeClauses_and (nodes : Nat → Bool) (number : Nat) (a b : Lit) :
    (∀ c ∈ nodeClauses number (.and a b), Sat.Clause.holds nodes c = true) ↔
      nodes number = (a.value nodes && b.value nodes) := by
  have h : (Lit.ofNode number).value nodes = nodes number := by
    simp [Lit.value, Lit.ofNode, Lit.node, Lit.isNegated]
  simp only [nodeClauses, Sat.Clause.holds, List.forall_mem_cons, List.not_mem_nil, List.any_cons,
    List.any_nil, Lit.value_not, h, Bool.or_false]
  cases nodes number <;> cases a.value nodes <;> cases b.value nodes <;> simp

end Gates

end Concolic
