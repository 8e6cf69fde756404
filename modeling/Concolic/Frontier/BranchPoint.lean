import Concolic.Run.Basic
import Concolic.Text.Hash

namespace Concolic

def Branch.directionBytes (pos : String) (taken : Bool) : List UInt8 :=
  pos.toUTF8.toList ++ [0, if taken then 1 else 0]

/-- What identifies a direction at a position: the positions and directions before it come first. -/
def directionBytes (before : List Branch) (pos : String) (taken : Bool) : List UInt8 :=
  before.flatMap (fun b => Branch.directionBytes b.pos b.taken) ++ Branch.directionBytes pos taken

def directionKey (before : List Branch) (pos : String) (taken : Bool) : UInt64 :=
  Text.hashBytes ⟨(directionBytes before pos taken).toArray⟩

def branchKey (path : List Branch) (index : Nat) (taken : Bool) : Except Defect UInt64 :=
  match path[index]? with
  | some b => .ok (directionKey (path.take index) b.pos taken)
  | none => .error .indexOutOfRange

structure BranchPoint where
  run : Run
  index : Nat
  key : UInt64 := 0
  deriving DecidableEq

namespace BranchPoint

def branch? (p : BranchPoint) : Option Branch := p.run.path[p.index]?

def pos (p : BranchPoint) : String := (p.branch?.map (·.pos)).getD ""

def constraints (p : BranchPoint) : Except Defect (List Term) :=
  match p.branch? with
  | some b => .ok (pathCondition (p.run.path.take p.index) ++ [b.negated])
  | none => .error .indexOutOfRange

def text (p : BranchPoint) : String := p.run.id ++ "#" ++ toString p.index ++ "@" ++ p.pos

end BranchPoint

namespace Run

def points (r : Run) : List BranchPoint :=
  r.path.zipIdx.filterMap fun (b, i) =>
    if b.isConcrete then none
    else some { run := r, index := i, key := directionKey (r.path.take i) b.pos !b.taken }

def takenKeys (r : Run) : List UInt64 :=
  r.path.zipIdx.map fun (b, i) => directionKey (r.path.take i) b.pos b.taken

end Run

end Concolic
