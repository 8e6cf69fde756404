import Concolic.Text.Printable

namespace Concolic

/-- A machine type. A code that names none of the eight is kept as `unknown`; code 0 is the kind of
a value that was never set. -/
inductive Kind
  | bool | byte | char | short | int | long | float | double
  | unknown (code : Int64) (outside : code < 1 ∨ 8 < code)
  deriving DecidableEq

namespace Kind

def invalid : Kind := .unknown 0 (by decide)

instance : Inhabited Kind := ⟨invalid⟩

def all : List Kind := [bool, byte, char, short, int, long, float, double]

def code : Kind → Int64
  | bool => 1 | byte => 2 | char => 3 | short => 4
  | int => 5 | long => 6 | float => 7 | double => 8
  | unknown c _ => c

def ofCode (c : Int64) : Kind :=
  if h : c < 1 ∨ 8 < c then .unknown c h
  else all.getD (c.toInt.toNat - 1) double

def name : Kind → String
  | bool => "bool" | byte => "byte" | char => "char" | short => "short"
  | int => "int" | long => "long" | float => "float" | double => "double"
  | unknown c _ => if c = 0 then "invalid" else "Kind<" ++ toString c.toInt ++ ">"

def width? : Kind → Option Nat
  | bool => some 1
  | byte => some 8
  | char | short => some 16
  | int | float => some 32
  | long | double => some 64
  | unknown _ _ => none

def isFloat : Kind → Bool
  | float | double => true
  | _ => false

def isIntegral : Kind → Bool
  | byte | char | short | int | long => true
  | _ => false

def isSigned (k : Kind) : Bool := k.isIntegral && k != char

def isWord : Kind → Bool
  | int | long => true
  | _ => false

/-- One letter with its case dropped. The long s and the Kelvin sign are the only characters beyond
ASCII whose case pairs with an ASCII letter. -/
def foldCase (c : Char) : Char :=
  if c = 'ſ' then 's' else if c = 'K' then 'k' else c.toLower

def ofName? (s : String) : Option Kind :=
  all.find? fun k => s.toList.map foldCase == k.name.toList

def unknownMessage (s : String) : String := "diver: unknown kind: " ++ Text.quote s

@[simp] theorem ofCode_code (k : Kind) : ofCode k.code = k := by
  cases k with
  | unknown c h => simp [ofCode, code, h]
  | _ => rfl

end Kind

end Concolic
