import Concolic.Entries
import Concolic.Ieee.Decimal
import Concolic.Text.Duration

namespace Concolic.Bus

/-- The value of a field. A float is given by its pattern as a double, a duration in nanoseconds. -/
inductive Datum
  | null
  | bool (b : Bool)
  | int (i : Int)
  | float (pattern : Nat)
  | text (s : String)
  | list (items : List Datum)
  | map (entries : List (String × Datum))
  | duration (nanoseconds : Int)

namespace Datum

instance : Inhabited Datum := ⟨null⟩

mutual

def render : Datum → String
  | null => "<nil>"
  | bool b => if b then "true" else "false"
  | int i => toString i
  | float p => Ieee.double.text p
  | text s => s
  | list items => "[" ++ String.intercalate " " (renderItems items) ++ "]"
  | map entries => "map[" ++ String.intercalate " " (renderEntries entries) ++ "]"
  | duration ns => Duration.text ns

def renderItems : List Datum → List String
  | [] => []
  | d :: rest => d.render :: renderItems rest

def renderEntries : List (String × Datum) → List String
  | [] => []
  | (n, d) :: rest => (n ++ ":" ++ d.render) :: renderEntries rest

end

end Datum

structure Record where
  fields : List (String × Datum) := []

namespace Record

def set (r : Record) (name : String) (d : Datum) : Record := ⟨Entries.place name d r.fields⟩

def ofList (fields : List (String × Datum)) : Record :=
  fields.foldl (fun r f => r.set f.1 f.2) {}

def get? (r : Record) (name : String) : Option Datum := r.fields.lookup name

def without (r : Record) (names : List String) : Record :=
  ⟨r.fields.filter fun f => !names.contains f.1⟩

def text (r : Record) : String :=
  String.intercalate " " (r.fields.map fun f => f.1 ++ "=" ++ f.2.render)

end Record

def runTopic : String := "run"
def faultTopic : String := "fault"
def frontierTopic : String := "frontier"
def solveTopic : String := "solve"
def reportTopic : String := "report"
def stopTopic : String := "stop"

def topics : List String :=
  [runTopic, faultTopic, frontierTopic, solveTopic, reportTopic, stopTopic]

end Concolic.Bus
