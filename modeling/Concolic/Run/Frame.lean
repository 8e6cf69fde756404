import Concolic.Entries
import Concolic.Value.Text

namespace Concolic

structure Slots where
  entries : List (Nat × Value) := []
  deriving DecidableEq

namespace Slots

def get? (s : Slots) (slot : Nat) : Option Value := s.entries.lookup slot

def set (s : Slots) (slot : Nat) (v : Value) : Slots := ⟨Entries.place slot v s.entries⟩

def count (s : Slots) : Nat := (s.entries.getLast?.map fun e => e.1 + 1).getD 0

@[simp] theorem get?_set (s : Slots) (slot other : Nat) (v : Value) :
    (s.set slot v).get? other = if slot = other then some v else s.get? other :=
  Entries.lookup_place slot other v s.entries

end Slots

/-- A call frame. The stack has its top first; a limit that is not positive leaves the slots
unbounded. -/
structure Frame where
  name : String
  limit : Int
  stack : List Value := []
  slots : Slots := {}
  deriving DecidableEq

namespace Frame

def lines (f : Frame) : List String :=
  f.slots.entries.map (fun e => "local[" ++ toString e.1 ++ "] " ++ e.2.text)
    ++ f.stack.zipIdx.map fun (v, i) =>
      "stack[" ++ toString (f.stack.length - 1 - i) ++ "] " ++ v.text

def text (f : Frame) : String :=
  String.join ((("fn=" ++ f.name) :: f.lines).map (· ++ "\n"))

end Frame

end Concolic
