import Concolic.Config.Basic
import Concolic.Text.Base64
import Concolic.Yaml.Node

/-!
Configurations in YAML documents. A document is a mapping from the names of settings to scalars;
all that is wrong with the entries is reported together.
-/

namespace Concolic.Config

open Yaml

inductive DocumentError
  | unreadable (p : Problem)
  | unfit (complaints : List String)
  deriving DecidableEq

def DocumentError.message : DocumentError → String
  | unreadable p => "decode config: " ++ p.message
  | unfit complaints =>
    "decode config: yaml: unmarshal errors:\n  " ++ "\n  ".intercalate complaints

structure Decoding where
  complaints : Array String := #[]
  visited : Nat := 0
  aliased : Nat := 0
  depth : Nat := 0

abbrev DecodeM := StateT Decoding (Except (Failure Problem))

namespace Decoding

/-- How many of `n` nodes may be visited by way of an alias, in parts of 360 million: 99 percent in
small documents, and ever less, down to 10 percent, in large ones. -/
def allowance (n : Nat) : Nat := 356400000 - 89 * (min n 4000000 - 400000)

def isExcessive (d : Decoding) : Bool :=
  100 < d.aliased && 1000 < d.visited
    && allowance d.visited * d.visited < d.aliased * 360000000

end Decoding

def refuse {α : Type} (text : String) : DecodeM α := throw (.error { text })

def complain (line : Nat) (text : String) : DecodeM Unit :=
  modify fun d =>
    { d with complaints := d.complaints.push ("line " ++ toString line ++ ": " ++ text) }

def visit : DecodeM Unit := do
  modify fun d =>
    { d with visited := d.visited + 1, aliased := if d.depth = 0 then d.aliased else d.aliased + 1 }
  if (← get).isExcessive then refuse "document contains excessive aliasing"

def resolve {α : Type} (n : Yaml.Node) (read : Yaml.Node → DecodeM α) : DecodeM α := do
  let follow (n : Yaml.Node) : DecodeM α := do
    modify fun d => { d with depth := d.depth + 1 }
    visit
    let a ← read n
    modify fun d => { d with depth := d.depth - 1 }
    return a
  visit
  match n with
  | .reference _ _ target => follow target
  | .enclosing .. => follow n
  | n => read n

def takeBytes : (n : Nat) → List Char → List Char
  | _, [] => []
  | n, c :: cs =>
    if c.utf8Size ≤ n then c :: takeBytes (n - c.utf8Size) cs else List.replicate n '\ufffd'

def excerpt (s : String) : String :=
  if s.utf8ByteSize ≤ 10 then s else String.ofList (takeBytes 7 s.toList) ++ "..."

def mismatch (line : Nat) (tag text type : String) : DecodeM Unit :=
  let shown := if tag = "!!seq" || tag = "!!map" then "" else " `" ++ excerpt text ++ "`"
  complain line ("cannot unmarshal " ++ tag ++ shown ++ " into " ++ type)

def keyText : Yaml.Node → Nat × String
  | .scalar _ _ text => (0, text)
  | .sequence .. => (1, "")
  | .mapping .. => (2, "")
  | .reference _ name _ | .enclosing _ name _ => (3, name)

def checkKeys : List (Yaml.Node × Yaml.Node) → DecodeM Bool
  | [] => pure true
  | (key, _) :: rest => do
    let again := rest.filter fun e => keyText e.1 = keyText key
    for (other, _) in again do
      complain other.line ("mapping key " ++ Text.quote (keyText key).2
        ++ " already defined at line " ++ toString key.line)
    let ok ← checkKeys rest
    return again.isEmpty && ok

def noScalar (type : String → String) : Yaml.Node → DecodeM Unit
  | .sequence line tag _ => mismatch line tag "" (type tag)
  | .mapping line tag entries => do
    if ← checkKeys entries then mismatch line tag "" (type tag)
  | .enclosing _ _ c => mismatch c.line c.tag "" (type c.tag)
  | _ => pure ()

def binaryText (s : String) : DecodeM String :=
  match Text.ofBase64? s with
  | some text => pure text
  | none => refuse "!!binary value contains invalid base64 data"

def meaning (tag text : String) : DecodeM Meaning := do
  if tag = "!!binary" then
    let _ ← binaryText text
  match Meaning.ofTagged tag text with
  | .ok m => return m
  | .error p => throw (.error p)

def readText (n : Yaml.Node) : DecodeM (Option String) :=
  resolve n fun
    | .scalar _ tag text => do
      if tag = "!!binary" then return some (← binaryText text)
      return if (← meaning tag text) = .null then none else some text
    | n => do
      noScalar (fun _ => "string") n
      return none

def cutOff (m : Meaning) : Option Int :=
  match m with
  | .int n => if n < twoPow 63 then some n else none
  | .float pattern =>
    match Ieee.double.decode pattern with
    | .nan .. | .infinite false => none
    | .infinite true => some (-(twoPow 63 : Int))
    | d =>
      (d.truncate?).bind fun n =>
        if (twoPow 63 : Int) < n then none
        else if n = twoPow 63 || n < -(twoPow 63 : Int) then some (-(twoPow 63 : Int))
        else some n
  | _ => none

/-- A number: `none` if the node is none, and `some none` if it means nothing. Where a number may be
missing, a collection that is tagged as meaning nothing is held against that. -/
def readNumber (type : String) (optional : Bool) (n : Yaml.Node) :
    DecodeM (Option (Option Int)) :=
  resolve n fun
    | .scalar line tag text => do
      let m ← meaning tag text
      if m = .null then return some none
      if let some n := cutOff m then return some (some n)
      mismatch line tag text type
      return none
    | n => do
      noScalar (fun tag => if optional && tag = "!!null" then "*" ++ type else type) n
      return none

def readEntry (n : Yaml.Node) : Entry → DecodeM Entry
  | .text s => return .text ((← readText n).getD s)
  | .number k => return .number (((← readNumber "int" false n).getD none).getD k)
  | .long k => return .long (((← readNumber "int64" false n).getD none).getD k)
  | .optional k => return .optional ((← readNumber "int" true n).getD k)

def isMerge : Yaml.Node → Bool
  | .scalar _ tag text => text = "<<" && (tag = "!!merge" || tag = "!")
  | _ => false

def textKey (n : Yaml.Node) : DecodeM (Option String) :=
  resolve n fun
    | .scalar _ tag text => do
      if tag = "!!binary" then return some (← binaryText text)
      return if (← meaning tag text) = .text then some text else none
    | .mapping _ _ entries => do
      if ← checkKeys entries then throw (.defect .collectionKey) else return none
    | .sequence .. => throw (.defect .collectionKey)
    | .enclosing _ name _ => refuse ("anchor '" ++ name ++ "' value contains itself")
    | .reference .. => return none

/-- Sets what the entries say, in their order. The names in `done` were set by the same mapping, and
those in `seen` by mappings that this one is merged into. -/
def setEntries (c : Config) (seen : Option (List String)) (done : List String) :
    List (Yaml.Node × Yaml.Node) → DecodeM (Config × Option (List String))
  | [] => pure (c, seen)
  | (key, value) :: rest => do
    if isMerge key then setEntries c seen done rest
    else
      match ← readText key with
      | none => setEntries c seen done rest
      | some name =>
        if seen.any (·.contains name) then setEntries c seen done rest
        else
          let seen := seen.map (name :: ·)
          match c.entries.lookup name with
          | none =>
            complain key.line ("field " ++ name ++ " not found in type config.Config")
            setEntries c seen done rest
          | some old =>
            if done.contains name then
              complain key.line ("field " ++ name ++ " already set in type config.Config")
              setEntries c seen done rest
            else
              setEntries (c.set name (← readEntry value old)) seen (name :: done) rest

def isMapping : Yaml.Node → Bool
  | .mapping .. | .reference _ _ (.mapping ..) => true
  | .enclosing _ _ c => c.isMapping
  | _ => false

def mergedNodes : Yaml.Node → List Yaml.Node
  | .sequence _ _ items => items
  | n => [n]

mutual

def setMapping (c : Config) (seen : Option (List String)) (n : Yaml.Node) :
    (fuel : Nat) → DecodeM (Config × Option (List String))
  | 0 => throw (.error .exhausted)
  | fuel + 1 => resolve n fun
    | .mapping _ _ entries => do
      if !(← checkKeys entries) then return (c, seen)
      let (c, seen) ← setEntries c seen [] entries
      match (entries.filter fun e => isMerge e.1).getLast? with
      | none => return (c, seen)
      | some (_, value) =>
        let keys ← match seen with
          | some keys => pure keys
          | none => entries.filterMapM fun e => textKey e.1
        setMerged c (some keys) (mergedNodes value) fuel
    | .scalar line tag text => do
      if (← meaning tag text) ≠ .null then mismatch line tag text "config.Config"
      return (c, seen)
    | .sequence line tag _ => do
      mismatch line tag "" "config.Config"
      return (c, seen)
    | .enclosing _ name _ => refuse ("anchor '" ++ name ++ "' value contains itself")
    | .reference .. => return (c, seen)

def setMerged (c : Config) (seen : Option (List String)) :
    List Yaml.Node → (fuel : Nat) → DecodeM (Config × Option (List String))
  | _, 0 => throw (.error .exhausted)
  | [], _ + 1 => return (c, seen)
  | n :: rest, fuel + 1 => do
    if !isMapping n then refuse "map merge requires map or sequence of maps as the value"
    let (c, seen) ← setMapping c seen n fuel
    setMerged c seen rest fuel

end

def parse (text : String) : Except (Failure DocumentError) Config := do
  match Yaml.Node.parse text with
  | .error p => throw (.error (.unreadable p))
  | .ok none => return {}
  | .ok (some root) =>
    let decode := do
      visit
      setMapping {} none root (text.length + 4)
    match decode.run {} with
    | .error (.error p) => throw (.error (.unreadable p))
    | .error (.defect d) => throw (.defect d)
    | .ok ((c, _), d) =>
      if d.complaints.isEmpty then return c else throw (.error (.unfit d.complaints.toList))

end Concolic.Config
