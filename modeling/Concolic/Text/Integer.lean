import Concolic.Bits

namespace Concolic.Text

def digitValue? (c : Char) : Option Nat :=
  if '0' ≤ c ∧ c ≤ '9' then some (c.toNat - '0'.toNat)
  else if 'a' ≤ c ∧ c ≤ 'z' then some (c.toNat - 'a'.toNat + 10)
  else if 'A' ≤ c ∧ c ≤ 'Z' then some (c.toNat - 'A'.toNat + 10)
  else none

def isDecimal (c : Char) : Bool := '0' ≤ c && c ≤ '9'

def isHex (c : Char) : Bool := (digitValue? c).any (· < 16)

inductive Before
  | start | digit | underscore | other
  deriving DecidableEq

/-- Every underscore stands between two digits; a base mark counts as one. -/
def separated (hex : Bool) : Before → List Char → Bool
  | last, [] => last != .underscore
  | last, c :: cs =>
    if isDecimal c || (hex && isHex c) then separated hex .digit cs
    else if c = '_' then last == .digit && separated hex .underscore cs
    else last != .underscore && separated hex .other cs

def underscoresOk (s : List Char) : Bool :=
  let s := match s with
    | '-' :: r | '+' :: r => r
    | s => s
  match s with
  | '0' :: b :: r =>
    if b.toLower = 'x' then separated true .digit r
    else if b.toLower = 'b' ∨ b.toLower = 'o' then separated false .digit r
    else separated false .start s
  | _ => separated false .start s

def digits? (base : Nat) (acc : Nat) : List Char → Option Nat
  | [] => some acc
  | c :: cs =>
    if c = '_' then digits? base acc cs
    else
      match digitValue? c with
      | some d => if d < base then digits? base (acc * base + d) cs else none
      | none => none

def splitBase : List Char → Nat × List Char
  | '0' :: b :: c :: r =>
    if b.toLower = 'x' then (16, c :: r)
    else if b.toLower = 'o' then (8, c :: r)
    else if b.toLower = 'b' then (2, c :: r)
    else (8, b :: c :: r)
  | '0' :: r => (8, r)
  | s => (10, s)

def natural? (s : List Char) : Option Nat :=
  if s.isEmpty then none
  else
    let (base, ds) := splitBase s
    match digits? base 0 ds with
    | some n => if s.contains '_' && !underscoresOk s then none else some n
    | none => none

def integer? : List Char → Option Int
  | '-' :: s => (natural? s).map fun n => -(n : Int)
  | '+' :: s => (natural? s).map (fun n => (n : Int))
  | s => (natural? s).map (fun n => (n : Int))

def decimal? (s : String) : Option Int :=
  let (negative, ds) := match s.toList with
    | '-' :: r => (true, r)
    | '+' :: r => (false, r)
    | r => (false, r)
  if ds.isEmpty || !ds.all isDecimal then none
  else
    (digits? 10 0 ds).bind fun n =>
      let i : Int := if negative then -(n : Int) else n
      if -(twoPow 63 : Int) ≤ i ∧ i < twoPow 63 then some i else none

end Concolic.Text
