import Concolic.Entries
import Concolic.Value.Text

namespace Concolic

/-- Bindings in ascending order of names, each name once. -/
structure Input where
  entries : List (String × Value) := []
  deriving DecidableEq

namespace Input

instance : EmptyCollection Input := ⟨⟨[]⟩⟩

instance : Inhabited Input := ⟨∅⟩

def get? (i : Input) (name : String) : Option Value := i.entries.lookup name

def insert (i : Input) (name : String) (v : Value) : Input := ⟨Entries.place name v i.entries⟩

def ofList (bindings : List (String × Value)) : Input :=
  bindings.foldl (fun i b => i.insert b.1 b.2) ∅

def merge (i j : Input) : Input := j.entries.foldl (fun i b => i.insert b.1 b.2) i

def orZero (i : Input) (name : String) (kind : Kind) : Except Defect Value :=
  match i.get? name with
  | some v => .ok v
  | none => Value.zero kind

def names (i : Input) : List String := i.entries.map (·.1)

def strings (i : Input) : List (String × String) := i.entries.map fun b => (b.1, b.2.format)

def text (i : Input) : String :=
  "\x7b" ++ String.intercalate " " (i.entries.map fun b => b.1 ++ "=" ++ b.2.format) ++ "\x7d"

@[simp] theorem get?_empty (name : String) : (∅ : Input).get? name = none := rfl

@[simp] theorem get?_insert (i : Input) (name other : String) (v : Value) :
    (i.insert name v).get? other = if name = other then some v else i.get? other :=
  Entries.lookup_place name other v i.entries

end Input

end Concolic
