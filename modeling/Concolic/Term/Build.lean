import Concolic.Defect
import Concolic.Term.FloatLiteral
import Concolic.Term.Order

namespace Concolic

def Kind.width (k : Kind) : Except Defect Nat :=
  match k.width? with
  | some w => .ok w
  | none => .error (.unknownKind k)

namespace Term

def width : Term → Except Defect Nat
  | hole => .error .unreachable
  | const c => .ok c.width
  | fconst c => .ok c.width
  | var _ kind => kind.width
  | extract _ _ w => .ok w
  | not src => src.width
  | cast _ w _ => .ok w
  | convert _ _ w => .ok w
  | binary op lhs _ => if op.isCompare then .ok 1 else lhs.width
  | float op lhs _ => if op.isCompare then .ok 1 else lhs.width
  | ite _ yes _ => yes.width

def commonWidth (op : BinaryOp) (l r : Term) : Except Defect Nat := do
  let a ← l.width
  let b ← r.width
  if a = b then return a else throw (.operandWidths op l r)

def mkXor (l r : Term) : Term :=
  let (l, r) := if !l.isConstant && r.isConstant then (r, l) else (l, r)
  match l, r with
  | const a, const b => if a.value = 0 then r else const (a.xor b)
  | const a, _ => if a.value = 0 then r else binary .xor l r
  | _, _ => binary .xor l r

def mkAnd (l r : Term) : Term :=
  match l, r with
  | const a, const b => const (a.and b)
  | _, _ =>
    let (l, r) := if l.isConstant && !r.isConstant then (r, l) else (l, r)
    match r with
    | const b => if b.isAllOnes then l else if b.value = 0 then r else binary .and l r
    | _ => binary .and l r

def mkOr (l r : Term) : Term :=
  match l, r with
  | const a, const b => const (a.or b)
  | _, _ =>
    let (l, r) := if l.isConstant && !r.isConstant then (r, l) else (l, r)
    match r with
    | const b => if b.isAllOnes then r else if b.value = 0 then l else binary .or l r
    | _ => binary .or l r

def plusMixed (e c : Literal) (negative : Bool) (t : Term) : Term :=
  let inner := binary (if negative then .sub else .add) (const c) t
  if e.value = 0 then inner
  else
    let sum := e.add c
    if !negative && sum.value = 0 then t
    else binary (if negative then .sub else .add) (const sum) t

def regroupMixed (c : Literal) (negative : Bool) (t : Term) (minus : Bool) (z : Term) :
    Except Defect Term := do
  let inner := binary (if negative then .sub else .add) (const c) t
  let w ← commonWidth (if minus then .sub else .add) inner z
  match z with
  | const d =>
    return plusMixed (if minus then (Literal.ofNat 0 w).sub d else d) c negative t
  | fconst _ => return if minus then binary .sub inner z else binary .add z inner
  | _ =>
    if minus then return if inner.same z then const (.ofNat 0 w) else binary .sub inner z
    else return binary .add inner z

mutual

/-- `c + t`. A literal at the head of a sum or difference is merged with `c`. -/
def plus (c : Literal) : Term → Except Defect Term
  | t@(const d) =>
    if c.width = 1 then return mkXor (const c) t
    else if c.value = 0 then return t
    else return const (c.add d)
  | t@(binary .add (const k) z) =>
    if c.width = 1 then return mkXor (const c) t
    else if c.value = 0 then return t
    else do
      let _ ← commonWidth .add (const (c.add k)) z
      plus (c.add k) z
  | t@(binary .sub (const k) z) =>
    if c.width = 1 then return mkXor (const c) t
    else if c.value = 0 then return t
    else do
      let _ ← commonWidth .sub (const (c.add k)) z
      minus (c.add k) z
  | t@(binary .add (fconst k) z) =>
    if c.value = 0 then return t else regroupMixed c false (fconst k) false z
  | t@(binary .sub (fconst k) z) =>
    if c.value = 0 then return t else regroupMixed c false (fconst k) true z
  | t =>
    if c.width = 1 then return mkXor (const c) t
    else if c.value = 0 then return t
    else return binary .add (const c) t

def minus (c : Literal) : Term → Except Defect Term
  | const d => return const (c.sub d)
  | t@(binary .add (const k) z) =>
    if c.width = 1 then return mkXor (const c) t
    else do
      let _ ← commonWidth .sub (const (c.sub k)) z
      minus (c.sub k) z
  | t@(binary .sub (const k) z) =>
    if c.width = 1 then return mkXor (const c) t
    else do
      let _ ← commonWidth .add (const (c.sub k)) z
      plus (c.sub k) z
  | binary .add (fconst k) z => regroupMixed c true (fconst k) true z
  | binary .sub (fconst k) z => regroupMixed c true (fconst k) false z
  | t =>
    if c.width = 1 then return mkXor (const c) t else return binary .sub (const c) t

end

def mkAdd (w : Nat) (l r : Term) : Except Defect Term :=
  let (l, r) := if !l.isConstant && r.isConstant then (r, l) else (l, r)
  if w = 1 then return mkXor l r
  else
    match l with
    | const c => plus c r
    | _ => return binary .add l r

def mkSub (w : Nat) (l r : Term) : Except Defect Term :=
  if l.same r then return const (.ofNat 0 w)
  else
    match l, r with
    | const c, _ => minus c r
    | _, const d => if w = 1 then return mkXor l r else plus ((Literal.ofNat 0 w).sub d) l
    | _, _ => if w = 1 then return mkXor l r else return binary .sub l r

def mkMul (w : Nat) (l r : Term) : Term :=
  let (l, r) := if r.isConstant && !l.isConstant then (r, l) else (l, r)
  match l, r with
  | const a, const b => const (a.mul b)
  | _, _ =>
    if w = 1 then mkAnd l r
    else
      match l with
      | const a => if a.value = 1 then r else if a.value = 0 then l else binary .mul l r
      | _ => binary .mul l r

def mkDiv (op : BinaryOp) (fold : Literal → Literal → Except Defect Literal) (l r : Term) :
    Except Defect Term :=
  match l, r with
  | const a, const b => const <$> fold a b
  | _, const b => return if b.value = 1 then l else binary op l r
  | _, _ => return binary op l r

def mkRem (op : BinaryOp) (fold : Literal → Literal → Except Defect Literal) (l r : Term) :
    Except Defect Term :=
  match l, r with
  | const a, const b => const <$> fold a b
  | _, const b => return if b.value = 1 then const (.ofNat 0 b.width) else binary op l r
  | _, _ => return binary op l r

def mkShift (op : BinaryOp) (fold : Literal → Literal → Literal) (l r : Term) :
    Except Defect Term :=
  match l, r with
  | const a, const b => return const (fold a b)
  | _, const b => return if b.value = 0 then l else binary op l r
  | _, fconst _ => throw .shiftAmount
  | _, _ => return binary op l r

/-- `c = t`. A sum that starts with a literal and an extension are solved for their operand. -/
def mkEqLiteral (c : Literal) : Term → Except Defect Term
  | const d => return const (c.eq d)
  | t@(binary .eq a b) =>
    if c.width = 1 then
      if c.isTrue then return t
      else if a.isFalse then return b
      else return binary .eq (const c) t
    else return binary .eq (const c) t
  | binary .add (const k) z => do
    let _ ← commonWidth .eq (const (c.sub k)) z
    mkEqLiteral (c.sub k) z
  | binary .add (fconst k) z => do
    let inner := binary .sub (const c) (fconst k)
    let _ ← commonWidth .eq inner z
    if z.isConstant then return binary .eq z inner
    else if inner.same z then return .ofBool true
    else return binary .eq inner z
  | cast src _ signed => do
    let narrow := c.extract 0 (← src.width)
    let back := if signed then narrow.sext c.width else narrow.zext c.width
    if c = back then mkEqLiteral narrow src else return .ofBool false
  | t => return binary .eq (const c) t

def mkEq (l r : Term) : Except Defect Term :=
  let (l, r) := if !l.isConstant && r.isConstant then (r, l) else (l, r)
  match l with
  | const c => mkEqLiteral c r
  | _ => return if l.same r then .ofBool true else binary .eq l r

def mkIsZero (t : Term) : Except Defect Term := do
  mkEq t (const (.ofNat 0 (← t.width)))

def checkedAnd (l r : Term) : Except Defect Term := do
  let _ ← commonWidth .and l r
  return mkAnd l r

def checkedOr (l r : Term) : Except Defect Term := do
  let _ ← commonWidth .or l r
  return mkOr l r

def mkUlt (w : Nat) (l r : Term) : Except Defect Term :=
  match l, r with
  | const a, const b => return const (a.ult b)
  | _, _ => if w = 1 then do checkedAnd (← mkIsZero l) r else return binary .ult l r

def mkUle (w : Nat) (l r : Term) : Except Defect Term :=
  match l, r with
  | const a, const b => return const (a.ule b)
  | _, _ => if w = 1 then do checkedOr (← mkIsZero l) r else return binary .ule l r

def mkSlt (w : Nat) (l r : Term) : Except Defect Term :=
  match l, r with
  | const a, const b => return const (a.slt b)
  | _, _ => if w = 1 then do checkedAnd l (← mkIsZero r) else return binary .slt l r

def mkSle (w : Nat) (l r : Term) : Except Defect Term :=
  match l, r with
  | const a, const b => return const (a.sle b)
  | _, _ => if w = 1 then do checkedOr l (← mkIsZero r) else return binary .sle l r

def mkBinary (op : BinaryOp) (l r : Term) : Except Defect Term :=
  match op with
  | .shl => mkShift .shl Literal.shl l r
  | .lshr => mkShift .lshr Literal.lshr l r
  | .ashr => mkShift .ashr Literal.ashr l r
  | _ => do
    let w ← commonWidth op l r
    match op with
    | .add => mkAdd w l r
    | .sub => mkSub w l r
    | .mul => return mkMul w l r
    | .udiv => mkDiv .udiv (fun a b => .ok (a.udiv b)) l r
    | .sdiv => mkDiv .sdiv Literal.sdiv l r
    | .urem => mkRem .urem (fun a b => .ok (a.urem b)) l r
    | .srem => mkRem .srem Literal.srem l r
    | .and => return mkAnd l r
    | .or => return mkOr l r
    | .xor => return mkXor l r
    | .eq => mkEq l r
    | .ne => do
      let e ← mkEq l r
      let no := const (.ofNat 0 1)
      let _ ← commonWidth .eq no e
      mkEq no e
    | .ult => mkUlt w l r
    | .ugt => mkUlt w r l
    | .ule => mkUle w l r
    | .uge => mkUle w r l
    | .slt => mkSlt w l r
    | .sgt => mkSlt w r l
    | .sle => mkSle w l r
    | .sge => mkSle w r l
    | _ => throw .unreachable

def mkExtract : Term → Nat → Nat → Except Defect Term
  | t, offset, width => do
    let bound ← t.width
    if width = 0 then throw .emptyExtract
    if bound < offsetSum offset width then throw (.extractBounds width offset bound)
    if width = bound then return t
    match t with
    | const c => return const (c.extract offset width)
    | extract src inner _ => mkExtract src (offsetSum inner offset) width
    | cast src _ _ =>
      if offset = 0 then do
        let w ← src.width
        if width = w then return src
        else if width < w then mkExtract src 0 width
        else return extract t offset width
      else return extract t offset width
    | _ => return extract t offset width

def mkNot : Term → Term
  | const c => const c.not
  | not src => src
  | t => not t

def mkCast (t : Term) (width : Nat) (signed : Bool) : Except Defect Term := do
  let w ← t.width
  if width = w then return t
  else if width < w then mkExtract t 0 width
  else
    match t with
    | const c => return const (if signed then c.sext width else c.zext width)
    | _ => return cast t width signed

def mkFloat (op : FloatOp) (l r : Term) : Except Defect Term :=
  if op.isUnary then
    if !r.isHole then throw (.unaryOperand op)
    else
      match l with
      | fconst a => return fconst a.neg
      | float .neg src _ => return src
      | _ => return float op l hole
  else do
    let a ← l.width
    let b ← r.width
    if a ≠ b then throw (.floatOperandWidths op l r)
    match l, r with
    | fconst a, fconst b => FloatLiteral.apply op a b
    | _, _ => return float op l r

def mkConvert (op : ConvertOp) (t : Term) (width : Nat) : Except Defect Term :=
  match op with
  | .ofSigned =>
    match t with
    | const c => fconst <$> FloatLiteral.ofSigned c width
    | _ => return convert op t width
  | .toSigned =>
    match t with
    | fconst c => const <$> c.toSigned width
    | _ => return convert op t width
  | .resize => do
    if (← t.width) = width then return t
    match t with
    | fconst c => fconst <$> FloatLiteral.ofDouble c.pattern width
    | _ => return convert op t width
  | .unknown _ _ => throw .unreachable

def mkIte (cond yes no : Term) : Except Defect Term := do
  if (← cond.width) ≠ 1 then throw (.conditionWidth cond)
  match cond with
  | const c => return if c.isTrue then yes else no
  | _ =>
    if yes.same no then return yes
    else if yes.isTrue && no.isFalse then return cond
    else return ite cond yes no

end Term

end Concolic
