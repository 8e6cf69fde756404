import Concolic.Text.Utf8
import Concolic.Yaml.Cursor

namespace Concolic.Yaml

inductive Token
  | streamStart | streamEnd
  | version (major minor : Nat)
  | tagHandle (handle expansion : String)
  | documentStart | documentEnd
  | blockSequence | blockMapping | blockEnd
  | flowSequence | flowSequenceEnd | flowMapping | flowMappingEnd
  | blockEntry | flowEntry | key | value
  | reference (name : String)
  | anchor (name : String)
  | tag (handle suffix : String)
  | scalar (text : String) (plain : Bool)
  deriving DecidableEq, Repr

structure Placed where
  token : Token
  mark : Mark

def readName (c : Cursor) : Except Problem (String × Cursor) := do
  let (name, after) ← c.skip.takeWhile isWordChar
  if name.isEmpty || !(after.endsAt 0 || after.rest.head?.any "?:,]\x7d%@`".toList.contains) then
    throw (.ofText c.mark after.mark "did not find expected alphabetic or numeric character")
  return (name, after)

def octetCount? (n : Nat) : Option Nat :=
  if n < 0x80 then some 1
  else if n / 32 = 6 then some 2
  else if n / 16 = 14 then some 3
  else if n / 8 = 30 then some 4
  else none

def readOctet (start : Mark) (c : Cursor) : Except Problem (Nat × Cursor) := do
  c.need 3
  match c.rest with
  | '%' :: r =>
    match hexCode? 2 0 r with
    | some octet => return (octet, c.skips 3)
    | none => throw (.ofText start c.mark "did not find URI escaped octet")
  | _ => throw (.ofText start c.mark "did not find URI escaped octet")

def readOctets (start : Mark) : (n : Nat) → Cursor → Except Problem (List Nat × Cursor)
  | 0, c => .ok ([], c)
  | n + 1, c => do
    let (octet, after) ← readOctet start c
    if octet / 64 ≠ 2 then
      throw (.ofText start c.mark "found an incorrect trailing UTF-8 octet")
    let (octets, after) ← readOctets start n after
    return (octet :: octets, after)

def readEncoded (start : Mark) (c : Cursor) : Except Problem (String × Cursor) := do
  let (first, after) ← readOctet start c
  match octetCount? first with
  | none => throw (.ofText start c.mark "found an incorrect leading UTF-8 octet")
  | some n =>
    let (octets, after) ← readOctets start (n - 1) after
    return (Text.ofOctets (first :: octets), after)

def isTagChar (c : Char) : Bool := isWordChar c || ";/?:@&=+$,.!~*'()[]".toList.contains c

def readTagText (start : Mark) : (fuel : Nat) → String → Cursor → Except Problem (String × Cursor)
  | 0, text, c => .ok (text, c)
  | fuel + 1, text, c => do
    c.need 1
    match c.rest with
    | '%' :: _ =>
      let (character, c) ← readEncoded start c
      readTagText start fuel (text ++ character) c
    | ch :: _ =>
      if isTagChar ch then readTagText start fuel (text.push ch) c.skip else return (text, c)
    | [] => return (text, c)

def readTagUri (start : Mark) (head : String) (c : Cursor) : Except Problem (String × Cursor) := do
  let (text, after) ← readTagText start (c.size + 1) "" c
  if head = "" && after.mark.index = c.mark.index then
    throw (.ofText start after.mark "did not find expected tag URI")
  return (String.ofList (head.toList.drop 1) ++ text, after)

def readHandle (start : Mark) (c : Cursor) : Except Problem (String × Cursor) := do
  c.need 1
  if !c.sees '!' then throw (.ofText start c.mark "did not find expected '!'")
  let (name, c) ← c.skip.takeWhile isWordChar
  let handle := "!" ++ name
  if c.sees '!' then return (handle ++ "!", c.skip) else return (handle, c)

/-- A tag as handle and suffix; both `!<...>` and a lone `!` have no handle. -/
def readTag (c : Cursor) : Except Problem (String × String × Cursor) := do
  let start := c.mark
  c.need 2
  let (handle, suffix, c) ←
    if c.rest[1]? = some '<' then do
      let (suffix, c) ← readTagUri start "" (c.skips 2)
      if !c.sees '>' then throw (.ofText start c.mark "did not find the expected '>'")
      pure ("", suffix, c.skip)
    else do
      let (handle, c) ← readHandle start c
      if handle ≠ "!" && handle.endsWith "!" then
        let (suffix, c) ← readTagUri start "" c
        pure (handle, suffix, c)
      else
        let (suffix, c) ← readTagUri start handle c
        if suffix = "" then pure ("", "!", c) else pure ("!", suffix, c)
  c.need 1
  if !c.endsAt 0 then
    throw (.ofText start c.mark "did not find expected whitespace or line break")
  return (handle, suffix, c)

def readVersionNumber (start : Mark) (c : Cursor) : Except Problem (Nat × Cursor) := do
  let digits := (c.rest.take 3).takeWhile Char.isDigit
  c.need (min 3 (digits.length + 1))
  if 2 < digits.length then
    throw (.ofText start (c.skips 2).mark "found extremely long version number")
  if digits.isEmpty then throw (.ofText start c.mark "did not find expected version number")
  return (digits.foldl (fun n d => 10 * n + (d.toNat - '0'.toNat)) 0, c.skips digits.length)

def readVersion (start : Mark) (c : Cursor) : Except Problem (Token × Cursor) := do
  let (major, c) ← readVersionNumber start (← c.skipWhile isSpaceOrTab)
  if !c.sees '.' then
    throw (.ofText start c.mark "did not find expected digit or '.' character")
  let (minor, c) ← readVersionNumber start c.skip
  return (.version major minor, c)

def readTagHandle (start : Mark) (c : Cursor) : Except Problem (Token × Cursor) := do
  let (handle, c) ← readHandle start (← c.skipWhile isSpaceOrTab)
  if handle ≠ "!" && !handle.endsWith "!" then
    throw (.ofText start c.mark "did not find expected '!'")
  c.need 1
  if !c.rest.head?.any isSpaceOrTab then
    throw (.ofText start c.mark "did not find expected whitespace")
  let (expansion, c) ← readTagUri start "" (← c.skipWhile isSpaceOrTab)
  if !c.endsAt 0 then
    throw (.ofText start c.mark "did not find expected whitespace or line break")
  return (.tagHandle handle expansion, c)

def readDirective (c : Cursor) : Except Problem (Token × Cursor) := do
  let start := c.mark
  let (name, c) ← c.skip.takeWhile isWordChar
  if name.isEmpty then throw (.ofText start c.mark "could not find expected directive name")
  if !c.endsAt 0 then throw (.ofText start c.mark "found unexpected non-alphabetical character")
  let (token, c) ←
    match name with
    | "YAML" => readVersion start c
    | "TAG" => readTagHandle start c
    | _ => throw (.ofText start c.mark "found unknown directive name")
  let c ← c.skipWhile isSpaceOrTab
  let c ← if c.sees '#' then c.skipLine else pure c
  if !c.atLineEnd then
    throw (.ofText start c.mark "did not find expected comment or line break")
  return (token, ← c.skipBreak)

end Concolic.Yaml
