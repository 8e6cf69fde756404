import Std.Data.HashMap
import Concolic.Circuit.Arithmetic
import Concolic.Term.Build

namespace Concolic

inductive CircuitError
  | floatingPoint
  | notATerm
  | operator (op : BinaryOp)
  | notBoolean (t : Term)
  deriving DecidableEq

namespace CircuitError

def message : CircuitError → String
  | floatingPoint => "floating-point constraints are not supported"
  | notATerm => "invalid expression type: <nil>"
  | operator op => "invalid binary operation: " ++ op.name
  | notBoolean t => "constraint is not boolean: " ++ t.text

end CircuitError

structure Encoder (B : Builder) where
  hash : Term → UInt64
  circuit : B.Circuit := B.empty
  bound : List (String × Bits) := []
  known : Std.HashMap UInt64 (List (Term × Bits)) := {}

abbrev EncodeM (B : Builder) := StateT (Encoder B) (Except (Failure CircuitError))

namespace Encoder

variable {B : Builder}

def gates {α : Type} (g : B.Gates α) : EncodeM B α := fun t =>
  match t with
  | ⟨hash, circuit, bound, known⟩ =>
    match g circuit with
    | (a, circuit) => .ok (a, ⟨hash, circuit, bound, known⟩)

def fail {α : Type} (e : CircuitError) : EncodeM B α := throw (.error e)

def matching (x y : Bits) : EncodeM B Unit :=
  if x.length ≤ y.length then return () else throw (.defect .indexOutOfRange)

def nonempty (x : Bits) : EncodeM B Unit :=
  if x.isEmpty then throw (.defect .indexOutOfRange) else return ()

def inputs : Nat → B.Gates Bits
  | 0 => return []
  | n + 1 => do
    let l ← B.input
    let rest ← inputs n
    return l :: rest

def bitsOf (name : String) (kind : Kind) : EncodeM B Bits := do
  if kind.isFloat then fail .floatingPoint
  else
    match (← get).bound.lookup name with
    | some bits => return bits
    | none => do
      let bits ← gates (inputs (← (kind.width : Except Defect Nat)))
      modify fun t => { t with bound := (name, bits) :: t.bound }
      return bits

def binary (op : BinaryOp) (x y : Bits) : EncodeM B Bits :=
  match op with
  | .add => do matching x y; gates (B.add B.bottom x y)
  | .sub => do matching x y; gates (B.sub x y)
  | .mul => do matching x y; gates (B.mul x y)
  | .udiv => do return (← gates (B.udivrem x y)).1
  | .urem => do return (← gates (B.udivrem x y)).2
  | .sdiv => do nonempty x; nonempty y; return (← gates (B.sdivrem x y)).1
  | .srem => do nonempty x; nonempty y; return (← gates (B.sdivrem x y)).2
  | .and => do matching x y; gates (B.bitwise B.and x y)
  | .or => do matching x y; gates (B.bitwise B.or x y)
  | .xor => do matching x y; gates (B.bitwise B.xor x y)
  | .shl => gates (B.shift .left x y)
  | .lshr => gates (B.shift .logical x y)
  | .ashr => do nonempty x; gates (B.shift .arithmetic x y)
  | .eq => do matching x y; return [← gates (B.eq x y)]
  | .ne => do matching x y; return [Lit.not (← gates (B.eq x y))]
  | .ult => do matching x y; return [← gates (B.ult x y)]
  | .ule => do matching y x; return [Lit.not (← gates (B.ult y x))]
  | .ugt => do matching y x; return [← gates (B.ult y x)]
  | .uge => do matching x y; return [Lit.not (← gates (B.ult x y))]
  | .slt => do nonempty x; matching x y; return [← gates (B.slt x y)]
  | .sle => do nonempty y; matching y x; return [Lit.not (← gates (B.slt y x))]
  | .sgt => do nonempty y; matching y x; return [← gates (B.slt y x)]
  | .sge => do nonempty x; matching x y; return [Lit.not (← gates (B.slt x y))]
  | .unknown _ _ => fail (.operator op)

def single (t : Term) (x : Bits) : EncodeM B Lit :=
  match x with
  | [l] => return l
  | _ => fail (.notBoolean t)

def extract (x : Bits) (offset width : Nat) : EncodeM B Bits :=
  let high := offsetSum offset width
  if offset ≤ high ∧ high ≤ x.length then return (x.drop offset).take (high - offset)
  else throw (.defect .indexOutOfRange)

def cast (x : Bits) (width : Nat) (signed : Bool) : EncodeM B Bits := do
  if signed then
    nonempty x
    return Bits.resize x width (B.sign x)
  else return Bits.resize x width B.bottom

def find (t : Term) (enc : Encoder B) : Option Bits :=
  (enc.known.getD (enc.hash t) []).lookup t

def remember (t : Term) (x : Bits) (enc : Encoder B) : Encoder B :=
  let h := enc.hash t
  { enc with known := enc.known.insert h (enc.known.getD h [] ++ [(t, x)]) }

def memo (t : Term) (make : EncodeM B Bits) : EncodeM B Bits := do
  match (← get).find t with
  | some x => return x
  | none => do
    let x ← make
    modify (remember t x)
    return x

def encode (t : Term) : EncodeM B Bits :=
  memo t <| match t with
    | .const c => return B.ofNat c.value c.width
    | .var name kind => bitsOf name kind
    | .not src => do return (← encode src).not
    | .extract src offset width => do extract (← encode src) offset width
    | .cast src width signed => do cast (← encode src) width signed
    | .ite c y n => do
      let l ← single c (← encode c)
      let y ← encode y
      let n ← encode n
      matching y n
      gates (B.mux l y n)
    | .binary op l r => do
      let l ← encode l
      let r ← encode r
      binary op l r
    | .fconst _ | .float _ _ _ | .convert _ _ _ => fail .floatingPoint
    | .hole => fail .notATerm

end Encoder

end Concolic
