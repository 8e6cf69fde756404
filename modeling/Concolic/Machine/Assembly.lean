import Concolic.Machine.Instruction
import Concolic.Text.Character
import Concolic.Text.Integer

/-!
The text form of programs: a function per block from `func` to `end`, an instruction or a label per
line. A comment starts with a word that begins with `;` or `#`.
-/

namespace Concolic.Machine

inductive AssemblyFault
  | missingEnd (function : String)
  | noFunctions
  | undefinedFunction (name : String)
  | undefinedLabel (name : String)
  | outside (word : String)
  | duplicateLabel (name : String)
  | nested
  | nameRequired
  | duplicateFunction (name : String)
  | attributeValue (text : String)
  | attributeName (name : String)
  | endOutside
  | operands (name : String) (expected got : Nat)
  | kind (instruction text : String)
  | literal (e : ValueError)
  | slot (instruction text : String)
  | argumentCount (text : String)
  | unknownInstruction (name : String)
  deriving DecidableEq

namespace AssemblyFault

def message : AssemblyFault → String
  | missingEnd f => "missing end for func " ++ f
  | noFunctions => "no functions"
  | undefinedFunction n => "undefined function: " ++ n
  | undefinedLabel n => "undefined label: " ++ n
  | outside w => "instruction outside of func: " ++ w
  | duplicateLabel n => "duplicate label: " ++ n
  | nested => "nested func"
  | nameRequired => "func name required"
  | duplicateFunction n => "duplicate func: " ++ n
  | attributeValue t => "invalid func attribute: " ++ t
  | attributeName n => "unknown func attribute: " ++ n
  | endOutside => "end outside of func"
  | operands n e g =>
    n ++ ": expected " ++ toString e ++ " arguments, got " ++ toString g
  | kind i t => i ++ ": " ++ Kind.unknownMessage t
  | literal e => "const: " ++ e.message
  | slot i t => i ++ ": invalid slot: " ++ t
  | argumentCount t => "invoke: invalid argument count: " ++ t
  | unknownInstruction n => "unknown instruction: " ++ n

end AssemblyFault

inductive AssemblyError
  | fault (line : Nat) (fault : AssemblyFault)
  | lineTooLong
  deriving DecidableEq

namespace AssemblyError

def message : AssemblyError → String
  | fault line f => "vm: line " ++ toString line ++ ": " ++ f.message
  | lineTooLong => "bufio.Scanner: token too long"

end AssemblyError

def maxLineBytes : Nat := 65536

def lineWords (line : String) : List String :=
  (Text.words line).takeWhile fun w => !(w.startsWith ";" || w.startsWith "#")

/-- Splits off lines, given the line read so far in reverse. What follows the last line end is a line
only if it is not empty. -/
def linesFrom (line : List Char) : List Char → List String
  | [] => if line.isEmpty then [] else [String.ofList line.reverse]
  | c :: cs =>
    if c = '\n' then String.ofList line.reverse :: linesFrom [] cs else linesFrom (c :: line) cs

def sourceLines (s : String) : List String := linesFrom [] s.toList

/-- A number that fits a machine word and is not negative. It may have a sign, as in `+5` or `-0`. -/
def count? (s : String) : Option Nat :=
  (Text.decimal? s).bind fun i => if 0 ≤ i then some i.toNat else none

namespace Instruction

def expecting (name : String) (n : Nat) (args : List String) (i : Except AssemblyFault Instruction) :
    Except AssemblyFault Instruction :=
  if args.length = n then i else .error (.operands name n args.length)

def readConst (kindText literalText : String) : Except AssemblyFault Instruction :=
  match Kind.ofName? kindText with
  | none => .error (.kind "const" kindText)
  | some kind =>
    match Value.read kind literalText with
    | .ok value => .ok { opcode := .const, value }
    | .error e => .error (.literal e)

def readInput (name kindText : String) : Except AssemblyFault Instruction :=
  match Kind.ofName? kindText with
  | none => .error (.kind "input" kindText)
  | some kind => .ok { opcode := .input, name, kind }

def readSlot (opcode : Opcode) (text : String) : Except AssemblyFault Instruction :=
  match count? text with
  | some count => .ok { opcode, count }
  | none => .error (.slot opcode.name text)

def readInvoke (name text : String) : Except AssemblyFault Instruction :=
  match count? text with
  | some count => .ok { opcode := .invoke, name, count }
  | none => .error (.argumentCount text)

def read (name : String) (args : List String) : Except AssemblyFault Instruction :=
  let first := args.getD 0 ""
  let second := args.getD 1 ""
  match name with
  | "nop" => expecting name 0 args (.ok { opcode := .nop })
  | "dup" => expecting name 0 args (.ok { opcode := .dup })
  | "pop" => expecting name 0 args (.ok { opcode := .pop })
  | "swap" => expecting name 0 args (.ok { opcode := .swap })
  | "return" => expecting name 0 args (.ok { opcode := .ret })
  | "const" => expecting name 2 args (readConst first second)
  | "input" => expecting name 2 args (readInput first second)
  | "load" => expecting name 1 args (readSlot .load first)
  | "store" => expecting name 1 args (readSlot .store first)
  | "jump" => expecting name 1 args (.ok { opcode := .jump, name := first })
  | "jumpif" => expecting name 1 args (.ok { opcode := .jumpif, name := first })
  | "call" => expecting name 1 args (.ok { opcode := .call, name := first })
  | "invoke" => expecting name 2 args (readInvoke first second)
  | "fault" => .ok { opcode := .fault, name := String.intercalate " " args }
  | "halt" => .ok { opcode := .halt, name := String.intercalate " " args }
  | _ =>
    match Operation.ofName? name with
    | some operation => expecting name 0 args (.ok { opcode := .apply, operation })
    | none => .error (.unknownInstruction name)

def isJump (i : Instruction) : Bool := i.opcode == .jump || i.opcode == .jumpif

end Instruction

namespace Function

def splitAttribute (s : String) : Option (String × String) :=
  match s.toList.span (· != '=') with
  | (key, _ :: value) => some (String.ofList key, String.ofList value)
  | (_, []) => none

def withAttribute (f : Function) (attr : String) : Except AssemblyFault Function :=
  match splitAttribute attr with
  | none => .error (.attributeValue attr)
  | some (key, value) =>
    match count? value with
    | none => .error (.attributeValue attr)
    | some n =>
      if key = "params" then .ok { f with params := n }
      else if key = "locals" then .ok { f with locals := n }
      else .error (.attributeName key)

def resolve (f : Function) : Except AssemblyError Function := do
  let code ← f.code.mapM fun i =>
    if i.isJump then
      match f.label? i.name with
      | some target => .ok { i with target }
      | none => .error (.fault i.line (.undefinedLabel i.name))
    else .ok i
  return { f with code }

end Function

structure Assembly where
  finished : List Function := []
  current : Option Function := none
  deriving DecidableEq

namespace Assembly

def beginFunction (a : Assembly) (args : List String) : Except AssemblyFault Assembly :=
  if a.current.isSome then .error .nested
  else
    match args with
    | [] => .error .nameRequired
    | name :: attributes =>
      if a.finished.any (·.name == name) then .error (.duplicateFunction name)
      else do
        let f ← attributes.foldlM Function.withAttribute ({ name } : Function)
        return { a with current := some f }

def endFunction (a : Assembly) (line : Nat) : Except AssemblyError Assembly :=
  match a.current with
  | none => .error (.fault line .endOutside)
  | some f => do return { finished := (← f.resolve) :: a.finished, current := none }

def extend (f : Function) (line : Nat) (word : String) (args : List String) :
    Except AssemblyFault Function :=
  if word.endsWith ":" && args.isEmpty then
    let label := String.ofList word.toList.dropLast
    if (f.label? label).isSome then .error (.duplicateLabel label)
    else .ok { f with labels := f.labels ++ [(label, f.code.size)] }
  else do
    let i ← Instruction.read word args
    return { f with code := f.code.push { i with line } }

def addLine (a : Assembly) (line : Nat) (words : List String) : Except AssemblyError Assembly :=
  match words with
  | [] => .ok a
  | "func" :: args => (a.beginFunction args).mapError (.fault line)
  | "end" :: _ => a.endFunction line
  | word :: args =>
    match a.current with
    | none => .error (.fault line (.outside word))
    | some f => do
      let f ← (extend f line word args).mapError (.fault line)
      return { a with current := some f }

def addLines (a : Assembly) (line : Nat) : List String → Except AssemblyError (Assembly × Nat)
  | [] => .ok (a, line - 1)
  | s :: rest =>
    if maxLineBytes ≤ s.utf8ByteSize then .error .lineTooLong
    else do addLines (← a.addLine line (lineWords s)) (line + 1) rest

def undefinedCall? (functions : List Function) : Option Instruction :=
  (functions.flatMap fun f => f.code.toList).find? fun i =>
    i.opcode == .call && !functions.any (·.name == i.name)

def finish (a : Assembly) (line : Nat) : Except AssemblyError Program :=
  match a.current, a.finished.reverse with
  | some f, _ => .error (.fault line (.missingEnd f.name))
  | none, [] => .error (.fault line .noFunctions)
  | none, first :: rest =>
    let functions := first :: rest
    match undefinedCall? functions with
    | some i => .error (.fault i.line (.undefinedFunction i.name))
    | none =>
      .ok { functions, entry := if functions.any (·.name == "main") then "main" else first.name }

end Assembly

def Program.parse (s : String) : Except AssemblyError Program := do
  let (a, line) ← ({} : Assembly).addLines 1 (sourceLines s)
  a.finish line

end Concolic.Machine
