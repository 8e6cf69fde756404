import Concolic.Input

namespace Concolic

inductive EvalError
  | unbound (name : String)
  | kindMismatch (name : String) (bound wanted : Kind)
  | notATerm
  | notBoolean (t : Term)
  deriving DecidableEq

namespace EvalError

def message : EvalError → String
  | unbound n => "variable not bound: " ++ n
  | kindMismatch n b w => "variable kind mismatch: " ++ n ++ ": " ++ b.name ++ " != " ++ w.name
  | notATerm => "invalid expression type: <nil>"
  | notBoolean t => "expression is not boolean: " ++ t.text

end EvalError

namespace Term

/-- Evaluates the operands first and combines them by the constructor of the node; of an `ite` only
the chosen branch is looked at. -/
def eval (i : Input) : Term → Except (Failure EvalError) Term
  | hole => throw (.error .notATerm)
  | const c => return const c
  | fconst c => return fconst c
  | var name kind =>
    match i.get? name with
    | none => throw (.error (.unbound name))
    | some v =>
      if v.kind = kind then v.literal else throw (.error (.kindMismatch name v.kind kind))
  | binary op l r => do
    let l ← eval i l
    let r ← eval i r
    mkBinary op l r
  | float op l r => do
    let l ← eval i l
    let r ← if r.isHole then pure hole else eval i r
    mkFloat op l r
  | cast src w signed => do mkCast (← eval i src) w signed
  | convert op src w => do mkConvert op (← eval i src) w
  | extract src offset w => do mkExtract (← eval i src) offset w
  | not src => do return mkNot (← eval i src)
  | ite c y n => do
    let c ← eval i c
    if c.isTrue then eval i y else eval i n

def evalBool (i : Input) (t : Term) : Except (Failure EvalError) Bool := do
  match ← eval i t with
  | const c => if c.width = 1 then return c.isTrue else throw (.error (.notBoolean t))
  | _ => throw (.error (.notBoolean t))

end Term

end Concolic
