import Concolic.Term.Basic

namespace Concolic

def Literal.compare (a b : Literal) : Ordering :=
  (Ord.compare a.width b.width).then (Ord.compare a.value b.value)

def FloatLiteral.compare (a b : FloatLiteral) : Ordering :=
  (Ord.compare a.width b.width).then (Ord.compare a.pattern b.pattern)

namespace Term

def rank : Term → Nat
  | hole => 0
  | const _ => 1
  | fconst _ => 2
  | var _ _ => 3
  | extract _ _ _ => 4
  | not _ => 5
  | cast _ _ _ => 6
  | convert _ _ _ => 7
  | binary _ _ _ => 8
  | float _ _ _ => 9
  | ite _ _ _ => 10

/-- Kinds and conversions are ordered by their codes read as unsigned words, the other operators by
their signed codes; a signed extension stands before an unsigned one. -/
def compare : Term → Term → Ordering
  | hole, hole => .eq
  | const a, const b => a.compare b
  | fconst a, fconst b => a.compare b
  | var n k, var n' k' =>
    (Ord.compare n n').then (Ord.compare k.code.toUInt64 k'.code.toUInt64)
  | extract s o w, extract s' o' w' =>
    ((Ord.compare o o').then (Ord.compare w w')).then (compare s s')
  | not s, not s' => compare s s'
  | cast s w g, cast s' w' g' =>
    ((Ord.compare g' g).then (Ord.compare w w')).then (compare s s')
  | convert op s w, convert op' s' w' =>
    ((Ord.compare op.code.toUInt64 op'.code.toUInt64).then (Ord.compare w w')).then (compare s s')
  | binary op l r, binary op' l' r' =>
    ((Ord.compare op.code op'.code).then (compare l l')).then (compare r r')
  | float op l r, float op' l' r' =>
    ((Ord.compare op.code op'.code).then (compare l l')).then (compare r r')
  | ite c y n, ite c' y' n' => ((compare c c').then (compare y y')).then (compare n n')
  | a, b => Ord.compare a.rank b.rank

def same (a b : Term) : Bool := compare a b == .eq

end Term

end Concolic
