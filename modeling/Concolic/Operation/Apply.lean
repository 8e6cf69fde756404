import Concolic.Operation
import Concolic.Value.Text

/-!
Machine operations on values. The concrete and the symbolic part of a result are built by the same
constructors, once over the literals of the operands and once over their terms.
-/

namespace Concolic

inductive OperandFault
  | count (expected got : Nat)
  | invalid
  | source (kind : Kind)
  | mismatched
  | orderingOnBool
  | wordOperands
  | floatOperands
  | shiftedValue
  | shiftAmount
  | logicOperands
  | numberOperands
  | unknownOperation
  deriving DecidableEq

namespace OperandFault

def message : OperandFault → String
  | count e g => "expected " ++ toString e ++ " operands, got " ++ toString g
  | invalid => "invalid operand"
  | source k => "expected " ++ k.name ++ " operand"
  | mismatched => "mismatched operand kinds"
  | orderingOnBool => "ordering on bool"
  | wordOperands => "expected int or long operands"
  | floatOperands => "expected float or double operands"
  | shiftedValue => "expected int or long value"
  | shiftAmount => "expected int shift amount"
  | logicOperands => "expected int, long or bool operands"
  | numberOperands => "expected int, long, float or double operands"
  | unknownOperation => "unknown operation"

end OperandFault

inductive OperationError
  | operands (op : Operation) (kinds : List Kind) (fault : OperandFault)
  | zeroDivisor (op : Operation)
  deriving DecidableEq

namespace OperationError

def message : OperationError → String
  | operands op kinds fault =>
    "diver: " ++ op.name ++ "(" ++ String.intercalate ", " (kinds.map Kind.name) ++ "): "
      ++ fault.message
  | zeroDivisor _ => "arithmetic fault: / by zero"

end OperationError

namespace Operation

def resultOf (op : Operation) (k k' : Kind) : Except OperandFault Kind :=
  if k = .invalid then .error .invalid
  else
    match op.conversion? with
    | some (source, target) => if k = source then .ok target else .error (.source source)
    | none =>
      match op with
      | eq | ne => if k' = k then .ok .bool else .error .mismatched
      | lt | le | gt | ge =>
        if k' ≠ k then .error .mismatched
        else if k = .bool then .error .orderingOnBool
        else .ok .bool
      | cmp => if k' = k ∧ k.isWord then .ok .int else .error .wordOperands
      | cmpl | cmpg => if k' = k ∧ k.isFloat then .ok .int else .error .floatOperands
      | shl | shr | ushr =>
        if !k.isWord then .error .shiftedValue
        else if k' ≠ .int then .error .shiftAmount
        else .ok k
      | and | or | xor =>
        if k' = k ∧ (k.isWord ∨ k = .bool) then .ok k else .error .logicOperands
      | neg => if k.isWord ∨ k.isFloat then .ok k else .error .numberOperands
      | add | sub | mul | div | rem =>
        if !(k.isWord || k.isFloat) then .error .numberOperands
        else if k' ≠ k then .error .mismatched
        else .ok k
      | _ => .error .unknownOperation

def resultKind (op : Operation) (kinds : List Kind) : Except OperationError Kind :=
  let result :=
    if kinds.length ≠ op.arity then .error (.count op.arity kinds.length)
    else
      match kinds with
      | [k] => op.resultOf k k
      | k :: k' :: _ => op.resultOf k k'
      | [] => .error .invalid
  match result with
  | .ok k => .ok k
  | .error fault => .error (.operands op kinds fault)

open Term in
def buildCompare (op : Operation) (k : Kind) (l r : Term) : Except Defect Term :=
  if k.isFloat then
    match op with
    | eq => mkFloat .eq l r
    | ne => do return mkNot (← mkFloat .eq l r)
    | lt => mkFloat .lt l r
    | le => mkFloat .le l r
    | gt => mkFloat .lt r l
    | _ => mkFloat .le r l
  else
    let pick (s u : BinaryOp) : BinaryOp := if k.isSigned then s else u
    match op with
    | eq => mkBinary .eq l r
    | ne => mkBinary .ne l r
    | lt => mkBinary (pick .slt .ult) l r
    | le => mkBinary (pick .sle .ule) l r
    | gt => mkBinary (pick .sgt .ugt) l r
    | _ => mkBinary (pick .sge .uge) l r

open Term in
/-- Minus one, zero or one. Where neither operand is below the other nor equal to it, `cmpl` gives
minus one and `cmpg` one. -/
def buildThreeWay (op : Operation) (l r : Term) : Except Defect Term := do
  let below := const (.ofNat 0xFFFFFFFF 32)
  let equal := const (.ofNat 0 32)
  let above := const (.ofNat 1 32)
  match op with
  | cmp => do
    let lt ← mkBinary .slt l r
    let eq ← mkBinary .eq l r
    mkIte lt below (← mkIte eq equal above)
  | cmpl => do
    let lt ← mkFloat .lt l r
    let eq ← mkFloat .eq l r
    let gt ← mkFloat .lt r l
    mkIte lt below (← mkIte eq equal (← mkIte gt above below))
  | _ => do
    let gt ← mkFloat .lt r l
    let eq ← mkFloat .eq l r
    let lt ← mkFloat .lt l r
    mkIte gt above (← mkIte eq equal (← mkIte lt below above))

open Term in
def buildConvert (op : Operation) (t : Term) : Except Defect Term :=
  match op with
  | i2l => mkCast t 64 true
  | i2f | l2f => mkConvert .ofSigned t 32
  | i2d | l2d => mkConvert .ofSigned t 64
  | l2i => mkExtract t 0 32
  | f2i | d2i => mkConvert .toSigned t 32
  | f2l | d2l => mkConvert .toSigned t 64
  | f2d => mkConvert .resize t 64
  | d2f => mkConvert .resize t 32
  | i2b => mkExtract t 0 8
  | i2c | i2s => mkExtract t 0 16
  | b2i | s2i => mkCast t 32 true
  | c2i | z2i => mkCast t 32 false
  | _ => .error .unreachable

open Term in
def buildFloat (op : Operation) (l r : Term) : Except Defect Term :=
  match op with
  | add => mkFloat .add l r
  | sub => mkFloat .sub l r
  | mul => mkFloat .mul l r
  | div => mkFloat .div l r
  | rem => mkFloat .rem l r
  | neg => mkFloat .neg l hole
  | _ => .error .unreachable

open Term in
/-- A shift takes the low five or six bits of its amount. -/
def buildShift (op : BinaryOp) (w : Nat) (l r : Term) : Except Defect Term := do
  let amount ← mkBinary .and (← mkCast r w false) (const (.ofNat (w - 1) w))
  mkBinary op l amount

open Term in
def buildInteger (op : Operation) (k : Kind) (l r : Term) : Except Defect Term := do
  let w ← k.width
  match op with
  | add => mkBinary .add l r
  | sub => mkBinary .sub l r
  | mul => mkBinary .mul l r
  | div => mkBinary .sdiv l r
  | rem => mkBinary .srem l r
  | neg => mkBinary .sub (const (.ofNat 0 w)) l
  | and => mkBinary .and l r
  | or => mkBinary .or l r
  | xor => mkBinary .xor l r
  | shl => buildShift .shl w l r
  | shr => buildShift .ashr w l r
  | ushr => buildShift .lshr w l r
  | _ => throw .unreachable

def build (op : Operation) (k : Kind) (l r : Term) : Except Defect Term :=
  if op.isCompare then buildCompare op k l r
  else if op.isThreeWay then buildThreeWay op l r
  else if op.isConvert then buildConvert op l
  else if k.isFloat then buildFloat op l r
  else buildInteger op k l r

def fold (op : Operation) (kind k : Kind) (l r : Term) : Except Defect Value := do
  let t ← op.build k l r
  match Value.ofTerm kind t with
  | .ok v => return v
  | .error (.defect d) => throw d
  | .error (.error _) => throw (.unfolded op t kind)

def secondTerm (f : Value → Except Defect Term) : List Value → Except Defect Term
  | _ :: v :: _ => f v
  | _ => return .hole

def apply (op : Operation) (args : List Value) : Except (Failure OperationError) Value := do
  let kind ← op.resultKind (args.map (·.kind))
  match args with
  | [] => throw (.defect .unreachable)
  | a :: rest =>
    if op.isDivision && rest.any (fun b => !b.kind.isFloat && b.bits = 0) then
      throw (.error (.zeroDivisor op))
    let result ← op.fold kind a.kind (← a.literal) (← secondTerm Value.literal args)
    if args.all Value.isConcrete then return result
    let t ← op.build a.kind (← a.term) (← secondTerm Value.term args)
    return result.withTerm (some t)

end Operation

end Concolic
