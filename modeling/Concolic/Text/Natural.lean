import Concolic.Text.Character

namespace Concolic.Text.Natural

def number (n : Int64) : List Char → Int64 × Nat
  | [] => (n, 0)
  | c :: cs =>
    if isDigit c then
      let (n, k) := number (n * 10 + Int64.ofInt ((c.toNat : Int) - '0'.toNat)) cs
      (n, k + 1)
    else (n, 0)

/-- Compares the rest of two texts from the first difference on. The characters before it are given
in reverse. A zero there counts only behind another digit that is not zero. -/
def lessAt (before : List Char) (a b : Char) (as bs : List Char) : Bool :=
  if isLetter a && isLetter b then a < b
  else if isLetter a || isLetter b then
    if before.head?.any isDigit then isLetter a else isLetter b
  else
    let inside := (before.takeWhile isDigit).any (· ≠ '0')
    let start : Int64 := if (a = '0' || b = '0') && inside then 1 else 0
    let (n, k) := number start (a :: as)
    let (m, l) := number start (b :: bs)
    if n ≠ m then n < m
    else if k ≠ l then k < l
    else a < b

def lessFrom (before : List Char) : List Char → List Char → Bool
  | a :: as, b :: bs => if a = b then lessFrom (a :: before) as bs else lessAt before a b as bs
  | [], _ :: _ => true
  | _, [] => false

def less (s t : String) : Bool := lessFrom [] s.toList t.toList

def sort {α : Type} (entries : List (String × α)) : List (String × α) :=
  entries.mergeSort fun a b => !less b.1 a.1

end Concolic.Text.Natural
