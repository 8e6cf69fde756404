import Concolic.Frontier.BranchPoint
import Concolic.Text.Character

namespace Concolic

abbrev Strategy := (turn : Nat) → (points : List BranchPoint) → Except Defect Int

/-- A source of numbers that look random. They depend on a seed only. -/
class Generator where
  below : (seed : Int64) → (turn bound : Nat) → Nat
  word : (seed : Int64) → UInt64
  below_lt : ∀ seed turn {bound}, 0 < bound → below seed turn bound < bound

namespace Generator

def scramble (seed : Int64) (turn : Nat) : UInt64 :=
  let x := seed.toUInt64 + UInt64.ofNat turn * 0x9e3779b97f4a7c15
  let x := (x ^^^ (x >>> 30)) * 0xbf58476d1ce4e5b9
  let x := (x ^^^ (x >>> 27)) * 0x94d049bb133111eb
  x ^^^ (x >>> 31)

instance standard : Generator where
  below seed turn bound := (scramble seed turn).toNat % bound
  word seed := scramble seed 0
  below_lt _ _ _ h := Nat.mod_lt _ h

end Generator

inductive SearchOrder
  | depthFirst
  | breadthFirst
  | random
  deriving DecidableEq

namespace SearchOrder

def ofName? : String → Option SearchOrder
  | "dfs" => some depthFirst
  | "bfs" => some breadthFirst
  | "random" => some random
  | _ => none

def select [g : Generator] (seed : Int64) : SearchOrder → Strategy
  | depthFirst, _, points => return (points.length : Int) - 1
  | breadthFirst, _, _ => return 0
  | random, turn, points =>
    if points.isEmpty then .error .emptyChoice
    else return (g.below seed turn points.length : Nat)

end SearchOrder

structure SearchPlan where
  first : SearchOrder
  rest : List SearchOrder := []
  deriving DecidableEq

namespace SearchPlan

def depthFirst : SearchPlan := { first := .depthFirst }

def isMixed (p : SearchPlan) : Bool := !p.rest.isEmpty

def select [g : Generator] (p : SearchPlan) (seed : Int64) : Strategy := fun turn points =>
  let orders := p.first :: p.rest
  (orders.getD (turn % orders.length) p.first).select seed (turn / orders.length) points

/-- Reads a comma-separated list of names. No name at all stands for the depth-first order; a name of
no order is given back. -/
def parse (s : String) : Except String SearchPlan := do
  let orders ← (Text.listItems s).mapM fun name =>
    match SearchOrder.ofName? name with
    | some o => .ok o
    | none => .error name
  match orders with
  | [] => return depthFirst
  | first :: rest => return { first, rest }

def unknownMessage (name : String) : String := "diver: unknown strategy: " ++ Text.quote name

end SearchPlan

end Concolic
