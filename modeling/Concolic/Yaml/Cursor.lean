import Concolic.Yaml.Mark

/-!
A cursor keeps its place while it moves over the characters of a document. The characters are taken
up in pieces, and a piece with a forbidden character is refused as a whole, so such a character is a
problem only if some character of its piece, or one after it, is asked for.
-/

namespace Concolic.Yaml

def pieceSize : Nat := 512

/-- Where the piece starts that holds the first forbidden character. The piece that is being filled
starts at `start`, and has `bytes` bytes in front of the character at `index`. -/
def forbiddenPiece? (start index bytes : Nat) : List Char → Option Nat
  | [] => none
  | ch :: r =>
    let full := pieceSize < bytes + ch.utf8Size
    let start := if full then index else start
    let bytes := if full then 0 else bytes
    if isAllowed ch then forbiddenPiece? start (index + 1) (bytes + ch.utf8Size) r else some start

structure Cursor where
  rest : List Char
  mark : Mark := {}
  size : Nat
  /-- If a forbidden character follows: the place from which on no character can be had. -/
  limit : Option Nat := none
  met : Bool := false

namespace Cursor

def ofText (text : String) : Cursor :=
  let (chars, bytes) := match text.toList with
    | '\ufeff' :: r => (r, 3)
    | r => (r, 0)
  let rest := chars.takeWhile isAllowed
  { rest, size := rest.length, limit := forbiddenPiece? 0 0 bytes chars }

def reaches (n : Nat) (c : Cursor) : Bool := c.limit.all (c.mark.index + n ≤ ·)

def need (n : Nat) (c : Cursor) : Except Problem Unit :=
  if c.reaches n then .ok () else .error .forbidden

/-- Passes over the problem for now. What precedes the forbidden character in its piece can be had
from here on. -/
def meet (c : Cursor) : Cursor :=
  { c with limit := some (c.mark.index + c.rest.length), met := true }

def isAtEnd (c : Cursor) : Bool := c.rest.isEmpty

def sees (c : Cursor) (ch : Char) : Bool := c.rest.head? = some ch

def endsAt (c : Cursor) (k : Nat) : Bool := c.rest[k]?.all isGap

def atLineEnd (c : Cursor) : Bool := c.rest.head?.all isBreak

def atBound (c : Cursor) (ch : Char) : Bool :=
  c.mark.column = 0 && c.rest.take 3 = [ch, ch, ch] && c.endsAt 3

def skip (c : Cursor) : Cursor :=
  match c.rest with
  | [] => c
  | _ :: r => { c with rest := r, mark := c.mark.next }

def skips : Nat → Cursor → Cursor
  | 0, c => c
  | n + 1, c => skips n c.skip

def skipWhileFrom (p : Char → Bool) : List Char → Mark → List Char × Mark
  | [], m => ([], m)
  | ch :: r, m => if p ch then skipWhileFrom p r m.next else (ch :: r, m)

def skipWhile (p : Char → Bool) (c : Cursor) : Except Problem Cursor := do
  let (rest, mark) := skipWhileFrom p c.rest c.mark
  let c := { c with rest, mark }
  c.need 1
  return c

def takeWhile (p : Char → Bool) (c : Cursor) : Except Problem (String × Cursor) := do
  return (String.ofList (c.rest.takeWhile p), ← c.skipWhile p)

def breakText (c : Cursor) : String :=
  match c.rest with
  | ch :: _ =>
    if ch = '\u2028' || ch = '\u2029' then ch.toString else if isBreak ch then "\n" else ""
  | [] => ""

def passBreak (c : Cursor) : Cursor :=
  match c.rest with
  | '\r' :: '\n' :: r => { c with rest := r, mark := c.mark.nextLine 2 }
  | ch :: r => if isBreak ch then { c with rest := r, mark := c.mark.nextLine 1 } else c
  | [] => c

def skipBreak (c : Cursor) : Except Problem Cursor := do
  c.need 2
  return c.passBreak

def skipLine (c : Cursor) : Except Problem Cursor := c.skipWhile fun ch => !isBreak ch

def passGaps : (fuel : Nat) → Cursor → Cursor
  | 0, c => c
  | fuel + 1, c =>
    match c.rest with
    | ch :: _ =>
      if isSpaceOrTab ch then passGaps fuel c.skip
      else if isBreak ch then passGaps fuel c.passBreak
      else c
    | [] => c

def sight : Nat := 512

/-- How many characters ahead a comment stands, if one does: in this line or, with `below`, in one
below it. Only line feeds and carriage returns separate such lines. -/
def comment? (below : Bool) (c : Cursor) : Option Nat × Cursor :=
  let ahead := c.rest.take sight
  let isBlank (ch : Char) : Bool := isSpaceOrTab ch || (below && (ch = '\n' || ch = '\r'))
  let k := (ahead.takeWhile isBlank).length
  let next := ahead[k]?
  let seen := if below && next.any isBreak then k + 2 else k + 1
  if !c.reaches (min seen sight) then (none, c.meet)
  else if next = some '#' then (some k, c)
  else (none, c)

def skipComment (c : Cursor) : Except Problem Cursor :=
  match c.comment? false with
  | (some k, c) => (c.skips k).skipLine
  | (none, c) => .ok c

def skipComments : (fuel : Nat) → Cursor → Except Problem Cursor
  | 0, c => .ok c
  | fuel + 1, c => do
    let stop ← c.skipLine
    match stop.comment? true with
    | (some k, stop) => skipComments fuel (stop.passGaps (k + 1))
    | (none, stop) => return stop

end Cursor

end Concolic.Yaml
