import Concolic.Operation
import Concolic.Term.Basic

/-!
Violated preconditions. An operation that meets one stops with it; none of them depends on the
program that is explored.
-/

namespace Concolic

inductive Defect
  | unreachable
  | unknownKind (kind : Kind)
  | operandWidths (op : BinaryOp) (lhs rhs : Term)
  | floatOperandWidths (op : FloatOp) (lhs rhs : Term)
  | literalWidths (op : BinaryOp) (lhs rhs : Nat)
  | emptyExtract
  | extractBounds (width offset bound : Nat)
  | floatWidth (width : Nat)
  | unaryOperand (op : FloatOp)
  | conditionWidth (cond : Term)
  | integerWidth (width : Nat)
  | unfolded (op : Operation) (result : Term) (kind : Kind)
  | emptyChoice
  | raised (message : String)
  | divisionByZero
  | indexOutOfRange
  | missingReference
  | sizeOutOfRange
  | shiftAmount
  | collectionKey
  deriving DecidableEq

namespace Defect

def isMachineFault : Defect → Bool
  | divisionByZero | indexOutOfRange | missingReference | sizeOutOfRange | shiftAmount
  | collectionKey => true
  | _ => false

def message : Defect → String
  | unreachable => "unreachable"
  | unknownKind k => "diver: invalid kind: " ++ toString k.code.toInt
  | operandWidths op l r =>
    "assert: binary expr width mismatch: op=" ++ op.name ++ " " ++ l.text ++ " != " ++ r.text
  | floatOperandWidths op l r =>
    "assert: float expr width mismatch: op=" ++ op.name ++ " " ++ l.text ++ " != " ++ r.text
  | literalWidths op a b =>
    "assert: " ++ op.name ++ ": width mismatch: " ++ toString a ++ " != " ++ toString b
  | emptyExtract => "assert: extract width cannot be zero"
  | extractBounds width offset bound =>
    "assert: extract out of bounds: " ++ toString width ++ "+" ++ toString offset ++ " > "
      ++ toString bound
  | floatWidth w => "assert: invalid float width: " ++ toString w
  | unaryOperand op => "assert: unary float op with rhs: " ++ op.name
  | conditionWidth c => "assert: ite condition must be boolean: " ++ c.text
  | integerWidth w => "fptosi: non-standard width: " ++ toString w
  | unfolded op t k =>
    "assert: " ++ op.name ++ ": constant operands did not fold: " ++ t.text ++ " is not a " ++ k.name
  | emptyChoice => "invalid argument to Intn"
  | raised m => m
  | divisionByZero => "runtime error: integer divide by zero"
  | indexOutOfRange => "runtime error: index out of range"
  | missingReference => "runtime error: invalid memory address or nil pointer dereference"
  | sizeOutOfRange => "runtime error: makeslice: len out of range"
  | shiftAmount => "runtime error: shift amount is no bit vector"
  | collectionKey => "runtime error: hash of unhashable type"

end Defect

/-- How a computation ends early: by an error of its own domain or by a defect. -/
inductive Failure (ε : Type)
  | error (e : ε)
  | defect (d : Defect)
  deriving DecidableEq

def Failure.message {ε : Type} (text : ε → String) : Failure ε → String
  | error e => text e
  | defect d => d.message

instance {ε : Type} : MonadLift (Except Defect) (Except (Failure ε)) where
  monadLift
    | .ok a => .ok a
    | .error d => .error (.defect d)

instance {ε : Type} : MonadLift (Except ε) (Except (Failure ε)) where
  monadLift
    | .ok a => .ok a
    | .error e => .error (.error e)

end Concolic
