import Concolic.Yaml.Scalar
import Concolic.Yaml.Token

/-!
The tokens of a document in the order in which a reader takes them. Whether a token starts a
mapping shows only when the `:` after it is met, so tokens wait in a queue until then.
-/

namespace Concolic.Yaml

/-- A token that may turn out to be a key, `number` being its place in the whole document, and
`depth` the number of flow collections around it. A required one stands where its block expects a
key. -/
structure KeyCandidate where
  number : Nat
  depth : Nat
  mark : Mark
  required : Bool

structure TokenQueue where
  cursor : Cursor
  tokens : Array Placed := #[{ token := .streamStart, mark := {} }]
  taken : Nat := 0
  indent : Int := -1
  outer : List Int := []
  keyAllowed : Bool := true
  depth : Nat := 0
  candidates : List KeyCandidate := []
  blockKeyMark : Mark := {}

namespace TokenQueue

def inFlow (q : TokenQueue) : Bool := q.depth ≠ 0

def push (q : TokenQueue) (token : Token) (mark : Mark) : TokenQueue :=
  { q with tokens := q.tokens.push { token, mark } }

def insert (q : TokenQueue) (number : Nat) (token : Token) (mark : Mark) : TokenQueue :=
  { q with tokens := q.tokens.insertIdxIfInBounds number { token, mark } }

def candidate (q : TokenQueue) : Option KeyCandidate :=
  q.candidates.head?.filter (·.depth = q.depth)

def removeCandidate (q : TokenQueue) : TokenQueue :=
  { q with candidates := q.candidates.dropWhile (·.depth = q.depth) }

def missingValue (q : TokenQueue) (k : KeyCandidate) : Problem :=
  .ofText k.mark q.cursor.mark "could not find expected ':'"

/-- Whether a candidate can still be a key: a key and its `:` stand on one line and at most 1024
characters apart. -/
def admits (q : TokenQueue) (k : KeyCandidate) : Except Problem Bool :=
  if k.mark.line < q.cursor.mark.line || k.mark.index + 1024 < q.cursor.mark.index then
    if k.required then .error (q.missingValue k) else .ok false
  else .ok true

def dropCandidate (q : TokenQueue) : Except Problem TokenQueue :=
  match q.candidate with
  | some k => if k.required then .error (q.missingValue k) else .ok q.removeCandidate
  | none => .ok q

def saveCandidate (q : TokenQueue) : Except Problem TokenQueue :=
  if q.keyAllowed then do
    let q ← q.dropCandidate
    let k : KeyCandidate :=
      { number := q.tokens.size
        depth := q.depth
        mark := q.cursor.mark
        required := !q.inFlow && q.indent = q.cursor.mark.column }
    return { q with
      candidates := k :: q.candidates
      blockKeyMark := if q.inFlow then q.blockKeyMark else k.mark }
  else .ok q

def maxDepth : Nat := 10000

def tooDeep (context place : Mark) : Problem :=
  .ofText context place ("exceeded max depth of " ++ toString maxDepth)

def openBlock (q : TokenQueue) (column number : Nat) (token : Token) (mark : Mark) :
    Except Problem TokenQueue :=
  if !q.inFlow && q.indent < column then
    if q.outer.length < maxDepth then
      .ok { q.insert number token mark with indent := column, outer := q.indent :: q.outer }
    else .error (tooDeep q.blockKeyMark q.cursor.mark)
  else .ok q

def closeBlocksFrom (mark : Mark) (column : Int) : List Int → TokenQueue → TokenQueue
  | [], q => if column < q.indent then { q.push .blockEnd mark with indent := -1 } else q
  | i :: outer, q =>
    if column < q.indent then
      closeBlocksFrom mark column outer { q.push .blockEnd mark with indent := i, outer := outer }
    else q

def closeBlocks (q : TokenQueue) (column : Int) (mark : Mark) : TokenQueue :=
  if q.inFlow then q else closeBlocksFrom mark column q.outer q

def skipToToken : (fuel : Nat) → TokenQueue → Except Problem TokenQueue
  | 0, q => .ok q
  | fuel + 1, q => do
    let c := q.cursor
    c.need 1
    let c := if c.mark.column = 0 && c.sees '\ufeff' then c.skip else c
    let tabs := q.inFlow || !q.keyAllowed
    let c ← c.skipWhile fun ch => ch = ' ' || (tabs && ch = '\t')
    let c ← if c.sees '#' then Cursor.skipComments (c.size + 1) c else pure c
    if c.rest.head?.any isBreak then
      skipToToken fuel { q with cursor := ← c.skipBreak, keyAllowed := q.keyAllowed || !q.inFlow }
    else return { q with cursor := c }

def pushIndicator (q : TokenQueue) (token : Token) (width : Nat) : TokenQueue :=
  { q.push token q.cursor.mark with cursor := q.cursor.skips width }

def fetchEnd (q : TokenQueue) : Except Problem TokenQueue := do
  let m := q.cursor.mark
  let m := if m.column = 0 then m else m.nextLine 0
  let q := { q with cursor := { q.cursor with mark := m } }
  let q ← (q.closeBlocks (-1) m).dropCandidate
  return { q.push .streamEnd m with keyAllowed := false }

def endDocument (q : TokenQueue) : Except Problem TokenQueue := do
  let q ← (q.closeBlocks (-1) q.cursor.mark).dropCandidate
  return { q with keyAllowed := false }

def fetchFlowStart (q : TokenQueue) (token : Token) : Except Problem TokenQueue := do
  let q ← q.saveCandidate
  if maxDepth ≤ q.depth then throw (tooDeep q.cursor.mark q.cursor.mark)
  return { q.pushIndicator token 1 with depth := q.depth + 1, keyAllowed := true }

def fetchFlowEnd (q : TokenQueue) (token : Token) : Except Problem TokenQueue := do
  let q ← q.dropCandidate
  return { q.pushIndicator token 1 with depth := q.depth - 1, keyAllowed := false }

def fetchFlowEntry (q : TokenQueue) : Except Problem TokenQueue := do
  let q ← q.dropCandidate
  return { q.pushIndicator .flowEntry 1 with keyAllowed := true }

def fetchBlockStart (q : TokenQueue) (start token : Token) (refusal : String) :
    Except Problem TokenQueue := do
  let m := q.cursor.mark
  if !q.inFlow && !q.keyAllowed then throw (.ofText m m refusal)
  let q ← (← q.openBlock m.column q.tokens.size start m).dropCandidate
  return q.pushIndicator token 1

def fetchBlockEntry (q : TokenQueue) : Except Problem TokenQueue := do
  let q ← q.fetchBlockStart .blockSequence .blockEntry
    "block sequence entries are not allowed in this context"
  return { q with keyAllowed := true }

def fetchKey (q : TokenQueue) : Except Problem TokenQueue := do
  let q ← q.fetchBlockStart .blockMapping .key "mapping keys are not allowed in this context"
  return { q with keyAllowed := !q.inFlow }

def fetchValue (q : TokenQueue) : Except Problem TokenQueue := do
  let valid ← match q.candidate with
    | some k => do pure (if ← q.admits k then some k else none)
    | none => pure none
  match valid with
  | some k =>
    let q ← (q.insert k.number .key k.mark).openBlock k.mark.column k.number .blockMapping k.mark
    return { q.removeCandidate.pushIndicator .value 1 with keyAllowed := false }
  | none =>
    let q := q.removeCandidate
    let m := q.cursor.mark
    if !q.inFlow && !q.keyAllowed then
      throw (.ofText m m "mapping values are not allowed in this context")
    let q ← q.openBlock m.column q.tokens.size .blockMapping m
    return { q.pushIndicator .value 1 with keyAllowed := !q.inFlow }

def fetchNode (q : TokenQueue) (read : Cursor → Except Problem (Token × Cursor)) :
    Except Problem TokenQueue := do
  let q ← q.saveCandidate
  let (token, c) ← read q.cursor
  return { q.push token q.cursor.mark with cursor := c, keyAllowed := false }

def fetchQuoted (q : TokenQueue) (single : Bool) : Except Problem TokenQueue :=
  q.fetchNode fun c => do
    let s ← quotedScalar single c
    return (.scalar s.text false, s.rest)

def fetchPlain (q : TokenQueue) : Except Problem TokenQueue := do
  let q ← q.saveCandidate
  let s ← plainScalar q.inFlow (q.indent + 1).toNat q.cursor
  return { q.push (.scalar s.text true) q.cursor.mark with
    cursor := s.rest, keyAllowed := s.passedBreak }

def fetchBlockScalar (q : TokenQueue) (literal : Bool) : Except Problem TokenQueue := do
  let q ← q.dropCandidate
  let s ← blockScalar literal q.indent q.cursor
  return { q.push (.scalar s.text false) q.cursor.mark with
    cursor := s.rest, keyAllowed := true }

def startsPlain (q : TokenQueue) (ch : Char) : Bool :=
  !(isGap ch || "-?:,[]\x7b\x7d#&*!|>'\"%@`".toList.contains ch)
    || (ch = '-' && !q.cursor.rest[1]?.any isSpaceOrTab)
    || (!q.inFlow && (ch = '?' || ch = ':') && !q.cursor.endsAt 1)

def fetchContent (q : TokenQueue) (ch : Char) : Except Problem TokenQueue :=
  let c := q.cursor
  let spaced := q.inFlow || c.endsAt 1
  match ch with
  | '[' => q.fetchFlowStart .flowSequence
  | '\x7b' => q.fetchFlowStart .flowMapping
  | ']' => q.fetchFlowEnd .flowSequenceEnd
  | '\x7d' => q.fetchFlowEnd .flowMappingEnd
  | ',' => q.fetchFlowEntry
  | '*' => q.fetchNode fun c => do
      let (name, c) ← readName c
      return (.reference name, c)
  | '&' => q.fetchNode fun c => do
      let (name, c) ← readName c
      return (.anchor name, c)
  | '!' => q.fetchNode fun c => do
      let (handle, suffix, c) ← readTag c
      return (.tag handle suffix, c)
  | '\'' => q.fetchQuoted true
  | '"' => q.fetchQuoted false
  | _ =>
    if ch = '-' && c.endsAt 1 then q.fetchBlockEntry
    else if ch = '?' && spaced then q.fetchKey
    else if ch = ':' && spaced then q.fetchValue
    else if (ch = '|' || ch = '>') && !q.inFlow then q.fetchBlockScalar (ch = '|')
    else if q.startsPlain ch then q.fetchPlain
    else .error (.ofText c.mark c.mark "found character that cannot start any token")

/-- Whether a comment in the same line belongs to the last token. One after `-` belongs to what
follows, and a scalar that lets a key follow has ended with its line. -/
def takesComment (q : TokenQueue) : Bool :=
  match q.tokens.back? with
  | some { token := .blockEntry, .. } => false
  | some { token := .scalar .., .. } => !q.keyAllowed
  | _ => true

def skipComment (q : TokenQueue) : Except Problem TokenQueue := do
  if q.takesComment then return { q with cursor := ← q.cursor.skipComment } else return q

def fetch (q : TokenQueue) : Except Problem TokenQueue := do
  let before := q.cursor.mark
  let q ← skipToToken (q.cursor.size + 1) q
  let c := q.cursor
  let q := q.closeBlocks c.mark.column before
  c.need 4
  match c.rest with
  | [] => q.fetchEnd
  | ch :: _ =>
    if c.mark.column = 0 && ch = '%' then
      let q ← q.endDocument
      let (token, after) ← readDirective c
      return { q.push token c.mark with cursor := after }
    else if c.atBound '-' then return (← q.endDocument).pushIndicator .documentStart 3
    else if c.atBound '.' then return (← q.endDocument).pushIndicator .documentEnd 3
    else (← q.fetchContent ch).skipComment

/-- Whether the first token waits: two more have to follow it, and it may not be a key that is still
open. -/
def waits (q : TokenQueue) : Except Problem Bool :=
  if q.tokens.size < q.taken + 3 then .ok true
  else
    match q.candidates.find? (·.number ≤ q.taken) with
    | some k => if k.number = q.taken then q.admits k else .ok false
    | none => .ok false

def settle : (fuel : Nat) → TokenQueue → Except Problem TokenQueue
  | 0, q => .ok q
  | fuel + 1, q => do
    if ← q.waits then settle fuel (← q.fetch) else return q

def ofText (text : String) : TokenQueue := { cursor := .ofText text }

def peek (q : TokenQueue) : Except Problem (Placed × TokenQueue) := do
  let q ← settle (q.cursor.size + 8) q
  return (q.tokens[q.taken]?.getD { token := .streamEnd, mark := q.cursor.mark }, q)

def tail (q : TokenQueue) : TokenQueue :=
  { q with taken := q.taken + 1 }

end TokenQueue

end Concolic.Yaml
