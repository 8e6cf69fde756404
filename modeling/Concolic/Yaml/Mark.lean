import Concolic.Text.Integer

namespace Concolic.Yaml

structure Mark where
  index : Nat := 0
  line : Nat := 0
  column : Nat := 0
  deriving DecidableEq, Repr

namespace Mark

def next (m : Mark) : Mark :=
  { index := m.index + 1, line := m.line, column := m.column + 1 }

def nextLine (width : Nat) (m : Mark) : Mark :=
  { index := m.index + width, line := m.line + 1, column := 0 }

end Mark

structure Problem where
  line : Option Nat := none
  text : String
  deriving DecidableEq, Repr

namespace Problem

def message (p : Problem) : String :=
  "yaml: " ++ (p.line.elim "" fun n => "line " ++ toString n ++ ": ") ++ p.text

/-- The line of the construct that is being read or, if that is the first one, of the problem
itself. -/
def lineOf? (context place : Mark) : Option Nat :=
  if context.line ≠ 0 then some context.line
  else if place.line ≠ 0 then some place.line
  else none

def ofText (context place : Mark) (text : String) : Problem :=
  { line := (lineOf? context place).map (· + 1), text }

def ofTokens (context place : Mark) (text : String) : Problem :=
  { line := lineOf? context place, text }

def forbidden : Problem := { text := "control characters are not allowed" }

end Problem

def isBreak (c : Char) : Bool :=
  c = '\n' || c = '\r' || c = '\u0085' || c = '\u2028' || c = '\u2029'

def isSpaceOrTab (c : Char) : Bool := c = ' ' || c = '\t'

def isGap (c : Char) : Bool := isSpaceOrTab c || isBreak c

def isWordChar (c : Char) : Bool := c.isAlphanum || c = '_' || c = '-'

def hexCode? : (n : Nat) → (acc : Nat) → List Char → Option Nat
  | 0, acc, _ => some acc
  | _ + 1, _, [] => none
  | n + 1, acc, c :: cs =>
    match Text.digitValue? c with
    | some d => if d < 16 then hexCode? n (16 * acc + d) cs else none
    | none => none

def isAllowed (c : Char) : Bool :=
  let n := c.toNat
  n = 9 || n = 10 || n = 13 || (0x20 ≤ n && n ≤ 0x7e) || n = 0x85 || (0xa0 ≤ n && n ≤ 0xfffd)
    || 0x10000 ≤ n

end Concolic.Yaml
