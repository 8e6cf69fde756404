import Concolic.Library.Basic

namespace Concolic.Library

def onWords (name : String) (count : Nat) (args : List Value)
    (body : Kind → Except Defect ModelResult) : Except Defect ModelResult :=
  if args.length ≠ count then
    return .unsupported
      (name ++ ": expected " ++ toString count ++ " arguments, got " ++ toString args.length)
  else
    let kind := (args.head?.map Value.kind).getD .invalid
    if args.all fun v => v.kind == kind && kind.isWord then body kind
    else return .unsupported (name ++ "(" ++ kind.name ++ ") is not modelled")

def choose (cond a b : Value) : Except Defect Value :=
  let chosen := if cond.toBool then a else b
  if cond.isConcrete then .ok chosen
  else if a.isConcrete && b.isConcrete && a.bits == b.bits then .ok chosen
  else do
    let t ← Term.mkIte (← cond.term) (← a.term) (← b.term)
    return chosen.concrete.withTerm (some t)

def applying (name : String) (op : Operation) (args : List Value)
    (next : Value → Except Defect ModelResult) : Except Defect ModelResult :=
  match op.apply args with
  | .ok v => next v
  | .error (.error e) => return .faulted (name ++ ": " ++ e.message)
  | .error (.defect d) => throw d

/-- The absolute value; the least value is its own. -/
def abs (args : List Value) : Except Defect ModelResult :=
  onWords "Math.abs" 1 args fun kind => do
    let x := args.headD .unset
    let zero ← Value.zero kind
    applying "Math.abs" .lt [x, zero] fun negative =>
      applying "Math.abs" .neg [x] fun minus => return .ok (← choose negative minus x)

def select (name : String) (op : Operation) (args : List Value) : Except Defect ModelResult :=
  onWords name 2 args fun _ =>
    applying name op args fun cond =>
      return .ok (← choose cond (args.getD 0 .unset) (args.getD 1 .unset))

def signum (args : List Value) : Except Defect ModelResult :=
  onWords "signum" 1 args fun kind => do
    let zero ← Value.zero kind
    applying "signum" .cmp [args.headD .unset, zero] fun v => return .ok v

def matcherFind (_ : List Value) : Except Defect ModelResult :=
  return .unsupported "Matcher.find() is unimplemented"

def standard : Library :=
  ((((((empty.register "Math.abs" (.ofFunction abs)).register
    "Math.max" (.ofFunction (select "Math.max" .gt))).register
    "Math.min" (.ofFunction (select "Math.min" .lt))).register
    "Integer.signum" (.ofFunction signum)).register
    "Long.signum" (.ofFunction signum)).register
    "Matcher.find" (.ofFunction matcherFind))

end Concolic.Library
