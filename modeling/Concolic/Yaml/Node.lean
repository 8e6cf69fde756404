import Concolic.Yaml.Meaning
import Concolic.Yaml.TokenQueue

namespace Concolic.Yaml

structure Collection where
  line : Nat
  tag : String
  isMapping : Bool
  deriving DecidableEq

/-- A node with the line it starts at, from one on, and its tag. An alias holds the node it names
or, if it stands inside that node, only its head. -/
inductive Node
  | scalar (line : Nat) (tag text : String)
  | sequence (line : Nat) (tag : String) (items : List Node)
  | mapping (line : Nat) (tag : String) (entries : List (Node × Node))
  | reference (line : Nat) (name : String) (target : Node)
  | enclosing (line : Nat) (name : String) (target : Collection)

namespace Node

def line : Node → Nat
  | scalar l _ _ | sequence l _ _ | mapping l _ _ | reference l _ _ | enclosing l _ _ => l

end Node

inductive Named
  | node (n : Node)
  | opened (c : Collection)

def shortTag (tag : String) : String :=
  let long := "tag:yaml.org,2002:"
  if tag.startsWith long then "!!" ++ String.ofList (tag.toList.drop long.length) else tag

structure Reading where
  tokens : TokenQueue
  handles : List (String × String) := []
  anchors : List (String × Named) := []

abbrev ReadM := StateT Reading (Except Problem)

structure Properties where
  mark : Mark
  anchor : Option String := none
  tag : String := ""

def Problem.exhausted : Problem := { text := "did not find expected node content" }

namespace ReadM

def peek : ReadM Placed := fun s => do
  let (token, tokens) ← s.tokens.peek
  return (token, { s with tokens })

def skip : ReadM Unit := modify fun s => { s with tokens := s.tokens.tail }

def next : ReadM Placed := do
  skip
  peek

/-- Reports a forbidden character that a search for comments met. Every node and every bound of a
collection or document ends with this, unless another problem comes first. -/
def check : ReadM Unit := do
  if (← get).tokens.cursor.met then throw .forbidden

def setAnchor (name : Option String) (meaning : Named) : ReadM Unit :=
  match name with
  | some name => modify fun s => { s with anchors := (name, meaning) :: s.anchors }
  | none => pure ()

def named (name : Option String) (node : Node) : ReadM Node := do
  setAnchor name (.node node)
  return node

def emptyScalar (mark : Mark) : ReadM Node := do
  check
  return .scalar (mark.line + 1) "!!null" ""

def expandTag (start mark : Mark) (handle suffix : String) : ReadM String := do
  if handle = "" then return suffix
  let full := ((← get).handles.lookup handle).elim "" (· ++ suffix)
  if full = "" then throw (.ofTokens start mark "found undefined tag handle")
  return full

def properties : ReadM Properties := do
  let first ← peek
  match first.token with
  | .anchor name =>
    let second ← next
    match second.token with
    | .tag handle suffix =>
      let _ ← next
      return { mark := first.mark, anchor := some name,
               tag := ← expandTag first.mark second.mark handle suffix }
    | _ => return { mark := first.mark, anchor := some name }
  | .tag handle suffix =>
    let second ← next
    match second.token with
    | .anchor name =>
      let _ ← next
      return { mark := first.mark, anchor := some name,
               tag := ← expandTag first.mark first.mark handle suffix }
    | _ =>
      return { mark := first.mark, tag := ← expandTag first.mark first.mark handle suffix }
  | _ => return { mark := first.mark }

def scalarNode (p : Properties) (text : String) (plain : Bool) : Node :=
  let tag :=
    if p.tag ≠ "" && p.tag ≠ "!" then shortTag p.tag
    else if !plain then "!!str"
    else if text = "<<" then "!!merge"
    else (Meaning.ofPlain true text).tag
  .scalar (p.mark.line + 1) tag text

def openCollection (p : Properties) (isMapping : Bool) : ReadM Collection := do
  check
  let tag :=
    if p.tag ≠ "" && p.tag ≠ "!" then shortTag p.tag
    else if isMapping then "!!map"
    else "!!seq"
  let c : Collection := { line := p.mark.line + 1, tag, isMapping }
  setAnchor p.anchor (.opened c)
  return c

mutual

/-- Reads a node. Block collections are read only if `block` is set, and a sequence at the column of
the mapping around it only if `unindented` is. -/
def node (block unindented : Bool) : (fuel : Nat) → ReadM Node
  | 0 => throw .exhausted
  | fuel + 1 => do
    let first ← peek
    if let .reference name := first.token then
      skip
      check
      match (← get).anchors.lookup name with
      | some (.node n) => return .reference (first.mark.line + 1) name n
      | some (.opened c) => return .enclosing (first.mark.line + 1) name c
      | none => throw { text := "unknown anchor '" ++ name ++ "' referenced" }
    let p ← properties
    let here ← peek
    match here.token with
    | .scalar text plain =>
      skip
      check
      named p.anchor (scalarNode p text plain)
    | .flowSequence =>
      let c ← openCollection p false
      skip
      let items ← flowItems here.mark true fuel
      named p.anchor (.sequence c.line c.tag items)
    | .flowMapping =>
      let c ← openCollection p true
      skip
      let entries ← flowEntries here.mark true fuel
      named p.anchor (.mapping c.line c.tag entries)
    | token =>
      if unindented && token = .blockEntry then
        let c ← openCollection p false
        let items ← unindentedItems fuel
        named p.anchor (.sequence c.line c.tag items)
      else if block && token = .blockSequence then
        let c ← openCollection p false
        skip
        let items ← blockItems here.mark fuel
        named p.anchor (.sequence c.line c.tag items)
      else if block && token = .blockMapping then
        let c ← openCollection p true
        skip
        let entries ← blockEntries here.mark fuel
        named p.anchor (.mapping c.line c.tag entries)
      else if p.anchor.isSome || p.tag ≠ "" then
        check
        named p.anchor (scalarNode p "" true)
      else throw (.ofTokens p.mark here.mark "did not find expected node content")

def blockItems (start : Mark) : (fuel : Nat) → ReadM (List Node)
  | 0 => throw .exhausted
  | fuel + 1 => do
    let here ← peek
    match here.token with
    | .blockEntry =>
      let after ← next
      let item ←
        if after.token = .blockEntry || after.token = .blockEnd then emptyScalar here.mark
        else node true false fuel
      return item :: (← blockItems start fuel)
    | .blockEnd =>
      skip
      check
      return []
    | _ => throw (.ofTokens start here.mark "did not find expected '-' indicator")

def unindentedItems : (fuel : Nat) → ReadM (List Node)
  | 0 => throw .exhausted
  | fuel + 1 => do
    let here ← peek
    if here.token = .blockEntry then
      let after ← next
      let item ←
        if [.blockEntry, .key, .value, .blockEnd].contains after.token then emptyScalar here.mark
        else node true false fuel
      return item :: (← unindentedItems fuel)
    else
      check
      return []

def blockPart (mark : Mark) : (fuel : Nat) → ReadM Node
  | 0 => throw .exhausted
  | fuel + 1 => do
    let after ← next
    if [.key, .value, .blockEnd].contains after.token then emptyScalar mark
    else node true true fuel

def blockEntries (start : Mark) : (fuel : Nat) → ReadM (List (Node × Node))
  | 0 => throw .exhausted
  | fuel + 1 => do
    let here ← peek
    match here.token with
    | .key =>
      let key ← blockPart here.mark fuel
      let colon ← peek
      let value ←
        if colon.token = .value then blockPart colon.mark fuel else emptyScalar colon.mark
      return (key, value) :: (← blockEntries start fuel)
    | .blockEnd =>
      skip
      check
      return []
    | _ => throw (.ofTokens start here.mark "did not find expected key")

def flowValue (stop : Token) : (fuel : Nat) → ReadM Node
  | 0 => throw .exhausted
  | fuel + 1 => do
    let colon ← peek
    if colon.token = .value then
      let after ← next
      if after.token = .flowEntry || after.token = stop then emptyScalar after.mark
      else node false false fuel
    else emptyScalar colon.mark

def flowPair (mark : Mark) : (fuel : Nat) → ReadM Node
  | 0 => throw .exhausted
  | fuel + 1 => do
    skip
    check
    let after ← peek
    let key ←
      if [.value, .flowEntry, .flowSequenceEnd].contains after.token then do
        skip
        emptyScalar after.mark
      else node false false fuel
    let value ← flowValue .flowSequenceEnd fuel
    let _ ← peek
    check
    return .mapping (mark.line + 1) "!!map" [(key, value)]

def flowItems (start : Mark) (first : Bool) : (fuel : Nat) → ReadM (List Node)
  | 0 => throw .exhausted
  | fuel + 1 => do
    let here ← peek
    if !first && here.token ≠ .flowSequenceEnd && here.token ≠ .flowEntry then
      throw (.ofTokens start here.mark "did not find expected ',' or ']'")
    let here ← if first || here.token = .flowSequenceEnd then pure here else next
    match here.token with
    | .flowSequenceEnd =>
      skip
      check
      return []
    | .key =>
      let item ← flowPair here.mark fuel
      return item :: (← flowItems start false fuel)
    | _ =>
      let item ← node false false fuel
      return item :: (← flowItems start false fuel)

def flowEntries (start : Mark) (first : Bool) : (fuel : Nat) → ReadM (List (Node × Node))
  | 0 => throw .exhausted
  | fuel + 1 => do
    let here ← peek
    if !first && here.token ≠ .flowMappingEnd && here.token ≠ .flowEntry then
      throw (.ofTokens start here.mark "did not find expected ',' or '\x7d'")
    let here ← if first || here.token = .flowMappingEnd then pure here else next
    match here.token with
    | .flowMappingEnd =>
      skip
      check
      return []
    | .key =>
      let after ← next
      let key ←
        if [.value, .flowEntry, .flowMappingEnd].contains after.token then emptyScalar after.mark
        else node false false fuel
      let value ← flowValue .flowMappingEnd fuel
      return (key, value) :: (← flowEntries start false fuel)
    | _ =>
      let key ← node false false fuel
      let value ← emptyScalar (← peek).mark
      return (key, value) :: (← flowEntries start false fuel)

end

def directives (version : Bool) : (fuel : Nat) → ReadM Unit
  | 0 => pure ()
  | fuel + 1 => do
    let here ← peek
    match here.token with
    | .version major minor =>
      if version then throw (.ofTokens {} here.mark "found duplicate %YAML directive")
      if major ≠ 1 || minor ≠ 1 then throw (.ofTokens {} here.mark "found incompatible YAML document")
      skip
      directives true fuel
    | .tagHandle handle expansion =>
      let handles := (← get).handles
      if (handles.lookup handle).isSome then
        throw (.ofTokens {} here.mark "found duplicate %TAG directive")
      set { ← get with handles := (handle, expansion) :: handles }
      skip
      directives version fuel
    | _ => pure ()

def standardHandles : List (String × String) := [("!", "!"), ("!!", "tag:yaml.org,2002:")]

def documentEnd : ReadM Unit := do
  if (← peek).token = .documentEnd then skip
  check

def document (fuel : Nat) : ReadM (Option Node) := do
  let _ ← peek
  skip
  check
  let first ← peek
  match first.token with
  | .streamEnd =>
    check
    return none
  | .version .. | .tagHandle .. | .documentStart =>
    directives false fuel
    modify fun s => { s with handles := s.handles ++ standardHandles }
    let start ← peek
    if start.token ≠ .documentStart then
      throw (.ofTokens {} start.mark "did not find expected <document start>")
    skip
    check
    let here ← peek
    let root ←
      match here.token with
      | .version .. | .tagHandle .. | .documentStart | .documentEnd | .streamEnd =>
        emptyScalar here.mark
      | _ => node true false fuel
    documentEnd
    return some root
  | _ =>
    check
    modify fun s => { s with handles := standardHandles }
    let root ← node true false fuel
    documentEnd
    return some root

end ReadM

def Node.parse (text : String) : Except Problem (Option Node) := do
  let (root, _) ← (ReadM.document (8 * text.length + 16)).run { tokens := .ofText text }
  return root

end Concolic.Yaml
