import Concolic.Circuit.Encoding
import Concolic.Circuit.Gates
import Concolic.Sat.Search
import Concolic.Solver.Basic
import Concolic.Term.Walk

/-!
A solver for bit-vector constraints: it encodes them as a circuit and asks a satisfiability
engine. Of the solutions it prefers the one that gives the variables, in the order of their names,
the smallest patterns.
-/

namespace Concolic.BitVector

inductive Encoding (B : Builder)
  | contradiction
  | literals (encoder : Encoder B) (roots : List Lit)

variable {B : Builder}

def encodeFrom (enc : Encoder B) (roots : List Lit) :
    List Term → Except (Failure CircuitError) (Encoding B)
  | [] => .ok (.literals enc roots.reverse)
  | t :: rest => do
    let (l, enc) ← (do Encoder.single t (← Encoder.encode t) : EncodeM B Lit).run enc
    if l = B.bottom then .ok .contradiction
    else if l = B.top then encodeFrom enc roots rest
    else encodeFrom enc (l :: roots) rest

def variableBits (enc : Encoder B) (constraints : List Term) :
    Except Defect (List (String × Kind × Bits)) := do
  let vars ← Term.vars constraints
  return vars.map fun (name, kind) => (name, kind, (enc.bound.lookup name).getD [])

/-- The literals of small patterns: the highest bit of the first variable is to be false, and so
on. -/
def smallest (vars : List (String × Kind × Bits)) : List Lit :=
  vars.flatMap fun (_, _, bits) => bits.reverse.map Lit.not

def bindings (nodes : Nat → Bool) (vars : List (String × Kind × Bits)) : Except Defect Input :=
  vars.foldlM (fun i (name, kind, bits) => do
    return i.insert name (← Value.ofBits kind (bits.toNat fun l => l.value nodes))) ∅

def solveBy (B : Builder) (engine : Sat.Engine) (hash : Term → UInt64) (constraints : List Term) :
    Except Defect Solution :=
  match encodeFrom ({ hash } : Encoder B) [] constraints with
  | .error (.defect d) => .error d
  | .error (.error e) => .ok (.unknown e.message)
  | .ok .contradiction => .ok .unsat
  | .ok (.literals enc roots) => do
    let vars ← variableBits enc constraints
    match engine ((B.problem enc.circuit).assuming roots) (smallest vars) with
    | .unsat => return .unsat
    | .gaveUp => return .unknown "diver: solver timeout"
    | .sat nodes => return .sat (← bindings nodes vars)

def effort : Option Nat → Nat
  | none => twoPow 60
  | some nanoseconds => nanoseconds / 50000

def digest : Term → UInt64
  | .hole => 1
  | .const c => mixHash (hash c.value) (hash c.width)
  | .fconst c => mixHash 3 (mixHash (hash c.pattern) (hash c.width))
  | .var name _ => mixHash 5 (hash name)
  | .extract src offset width => mixHash 7 (mixHash (digest src) (mixHash (hash offset) (hash width)))
  | .not src => mixHash 11 (digest src)
  | .cast src width signed => mixHash (hash signed) (mixHash (digest src) (hash width))
  | .convert _ src width => mixHash 13 (mixHash (digest src) (hash width))
  | .binary op l r => mixHash (hash op.name) (mixHash (digest l) (digest r))
  | .float op l r => mixHash (hash op.name) (mixHash (digest l) (digest r))
  | .ite c y n => mixHash (digest c) (mixHash (digest y) (digest n))

def solverBy (B : Builder) (engine : Option Nat → Sat.Engine) (hash : Term → UInt64) : Solver Unit :=
  fun allowance constraints s =>
    match allowance.refusal? with
    | some reason => (.ok (.unknown reason), s)
    | none =>
      match solveBy B (engine allowance.timeout) hash constraints with
      | .ok solution => (.ok solution, s)
      | .error d => (.error (.defect d), s)

def solver : Solver Unit :=
  solverBy Gates.builder (fun timeout => Sat.search (effort timeout)) digest

end Concolic.BitVector
