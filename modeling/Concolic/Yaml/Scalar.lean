import Concolic.Yaml.Cursor

namespace Concolic.Yaml

structure Gap where
  blanks : String := ""
  broken : Bool := false
  first : String := ""
  more : String := ""

namespace Gap

/-- What a gap stands for. Blanks stand for themselves. A line feed stands for a space, or for the
breaks that follow it if there are any. -/
def text (g : Gap) : String :=
  if !g.broken then g.blanks
  else if g.first = "\n" then
    if g.more.isEmpty then " " else g.more
  else g.first ++ g.more

/-- Reads on through separators. Tabs may not take the place of the first `indent` columns of a
line. The fuel bounds the length. -/
def read (indent : Nat) (start : Mark) : (fuel : Nat) → Gap → Cursor → Except Problem (Gap × Cursor)
  | 0, g, c => .ok (g, c)
  | fuel + 1, g, c => do
    c.need 1
    match c.rest with
    | [] => return (g, c)
    | ch :: _ =>
      if isSpaceOrTab ch then
        if !g.broken then read indent start fuel { g with blanks := g.blanks.push ch } c.skip
        else if ch = '\t' && c.mark.column < indent then
          throw (.ofText start c.mark "found a tab character that violates indentation")
        else read indent start fuel g c.skip
      else if isBreak ch then
        let after ← c.skipBreak
        if g.broken then read indent start fuel { g with more := g.more ++ c.breakText } after
        else read indent start fuel { g with broken := true, first := c.breakText } after
      else return (g, c)

end Gap

def endsPlain (flow : Bool) (ch : Char) (r : List Char) : Bool :=
  isGap ch || (ch = ':' && r.head?.all isGap)
    || (flow && (ch = ',' || ch = '?' || ch = '[' || ch = ']' || ch = '\x7b' || ch = '\x7d'))

def plainLength (flow : Bool) (n : Nat) : List Char → Nat
  | [] => n
  | ch :: r => if endsPlain flow ch r then n else plainLength flow (n + 1) r

structure Scanned where
  text : String
  passedBreak : Bool := false
  rest : Cursor

def plainFrom (flow : Bool) (indent : Nat) (start : Mark) :
    (fuel : Nat) → String → Gap → Cursor → Except Problem Scanned
  | 0, text, g, c => .ok { text, passedBreak := g.broken, rest := c }
  | fuel + 1, text, g, c => do
    c.need 4
    if c.atBound '-' || c.atBound '.' || c.sees '#' then
      return { text, passedBreak := g.broken, rest := c }
    let n := plainLength flow 0 c.rest
    let after := c.skips n
    if n ≠ 0 then after.need 2
    let (text, g) :=
      if n = 0 then (text, g) else (text ++ g.text ++ String.ofList (c.rest.take n), {})
    if after.isAtEnd || !after.endsAt 0 then
      return { text, passedBreak := g.broken, rest := after }
    let (g, c) ← g.read indent start fuel after
    if !flow && c.mark.column < indent then return { text, passedBreak := g.broken, rest := c }
    plainFrom flow indent start fuel text g c

def plainScalar (flow : Bool) (indent : Nat) (c : Cursor) : Except Problem Scanned :=
  plainFrom flow indent c.mark (c.size + 2) "" {} c

def escapeOf? : Char → Option Char
  | '0' => some '\x00' | 'a' => some '\x07' | 'b' => some '\x08' | 't' | '\t' => some '\t'
  | 'n' => some '\n' | 'v' => some '\x0b' | 'f' => some '\x0c' | 'r' => some '\r'
  | 'e' => some '\x1b' | ' ' => some ' ' | '"' => some '"' | '\'' => some '\''
  | '\\' => some '\\' | 'N' => some '\u0085' | '_' => some '\u00a0' | 'L' => some '\u2028'
  | 'P' => some '\u2029' | _ => none

def codeLength? : Char → Option Nat
  | 'x' => some 2 | 'u' => some 4 | 'U' => some 8 | _ => none

def readEscape (start : Mark) (c : Cursor) : Except Problem (Char × Cursor) := do
  let fail (text : String) : Except Problem (Char × Cursor) := .error (.ofText start c.mark text)
  match c.rest[1]? with
  | none => fail "found unknown escape character"
  | some ch =>
    let after := c.skips 2
    match escapeOf? ch, codeLength? ch with
    | some e, _ => return (e, after)
    | none, none => fail "found unknown escape character"
    | none, some n =>
      after.need n
      match hexCode? n 0 after.rest with
      | none => fail "did not find expected hexdecimal number"
      | some code =>
        if code.isValidChar then return (Char.ofNat code, after.skips n)
        else fail "found invalid Unicode character escape code"

def quotedWord (single : Bool) (start : Mark) :
    (fuel : Nat) → String → Cursor → Except Problem (String × Gap × Cursor)
  | 0, text, c => .ok (text, {}, c)
  | fuel + 1, text, c => do
    match c.rest with
    | [] => return (text, {}, c)
    | ch :: r =>
      if isGap ch then return (text, {}, c)
      let doubled := single && ch = '\'' && r.head? = some '\''
      if !doubled && ch = (if single then '\'' else '"') then return (text, {}, c)
      if !single && ch = '\\' && r.head?.any isBreak then
        c.need 3
        return (text, { broken := true }, c.skip.passBreak)
      let (e, c) ←
        if !single && ch = '\\' then readEscape start c
        else pure (ch, c.skips (if doubled then 2 else 1))
      c.need 2
      quotedWord single start fuel (text.push e) c

def quotedFrom (single : Bool) (start : Mark) :
    (fuel : Nat) → String → Cursor → Except Problem Scanned
  | 0, text, c => .ok { text, rest := c }
  | fuel + 1, text, c => do
    c.need 4
    if c.atBound '-' || c.atBound '.' then
      throw (.ofText start c.mark "found unexpected document indicator")
    if c.isAtEnd then throw (.ofText start c.mark "found unexpected end of stream")
    let (text, g, c) ← quotedWord single start fuel text c
    c.need 1
    if c.sees (if single then '\'' else '"') then return { text, rest := c.skip }
    let (g, c) ← g.read 0 start fuel c
    quotedFrom single start fuel (text ++ g.text) c

def quotedScalar (single : Bool) (c : Cursor) : Except Problem Scanned :=
  quotedFrom single c.mark (c.size + 2) "" c.skip

inductive Chomping
  | strip | clip | keep
  deriving DecidableEq

def Chomping.ofChar? : Char → Option Chomping
  | '+' => some .keep
  | '-' => some .strip
  | _ => none

def blockHead (start : Mark) (c : Cursor) : Except Problem (Chomping × Nat × Cursor) := do
  let digit (c : Cursor) : Except Problem (Nat × Cursor) := do
    c.need 1
    match c.rest with
    | '0' :: _ => throw (.ofText start c.mark "found an indentation indicator equal to 0")
    | ch :: _ => return (if ch.isDigit then (ch.toNat - '0'.toNat, c.skip) else (0, c))
    | [] => return (0, c)
  c.need 1
  match c.rest.head?.bind Chomping.ofChar? with
  | some chomping =>
    let (n, c) ← digit c.skip
    return (chomping, n, c)
  | none =>
    let (n, c) ← digit c
    c.need 1
    match (if n = 0 then none else c.rest.head?.bind Chomping.ofChar?) with
    | some chomping => return (chomping, n, c.skip)
    | none => return (.clip, n, c)

def blockBreaks (indent : Nat) (start : Mark) :
    (fuel : Nat) → String → Nat → Cursor → Except Problem (String × Nat × Cursor)
  | 0, breaks, deepest, c => .ok (breaks, deepest, c)
  | fuel + 1, breaks, deepest, c => do
    c.need 1
    let inside := indent = 0 || c.mark.column < indent
    if inside && c.sees ' ' then
      blockBreaks indent start fuel breaks (max deepest (c.mark.column + 1)) c.skip
    else if inside && c.sees '\t' then
      throw (.ofText start c.mark "found a tab character where an indentation space is expected")
    else if c.rest.head?.any isBreak then
      blockBreaks indent start fuel (breaks ++ c.breakText) deepest (← c.skipBreak)
    else return (breaks, deepest, c)

structure BlockLines where
  text : String := ""
  ending : String := ""
  empty : String := ""
  blank : Bool := false

def blockLines (literal : Bool) (indent : Nat) (start : Mark) :
    (fuel : Nat) → BlockLines → Cursor → Except Problem (BlockLines × Cursor)
  | 0, b, c => .ok (b, c)
  | fuel + 1, b, c => do
    if c.mark.column ≠ indent || c.isAtEnd then return (b, c)
    let blank := c.rest.head?.any isSpaceOrTab
    let joint :=
      if !literal && !b.blank && !blank && b.ending = "\n" then
        if b.empty.isEmpty then " " else ""
      else b.ending
    let (line, c) ← c.takeWhile fun ch => !isBreak ch
    let ending := c.breakText
    let (empty, _, c) ← blockBreaks indent start fuel "" 0 (← c.skipBreak)
    blockLines literal indent start fuel
      { text := b.text ++ joint ++ b.empty ++ line, ending, empty, blank } c

/-- A literal or folded scalar from its indicator on, inside a block at column `parent`, which is
-1 at the top. -/
def blockScalar (literal : Bool) (parent : Int) (c : Cursor) : Except Problem Scanned := do
  let start := c.mark
  let fuel := c.size + 2
  let (chomping, increment, c) ← blockHead start c.skip
  let c ← c.skipWhile isSpaceOrTab
  let c ← if c.sees '#' then c.skipLine else pure c
  if !c.atLineEnd then
    throw (.ofText start c.mark "did not find expected comment or line break")
  let c ← c.skipBreak
  let given := if increment = 0 then 0 else (max parent 0).toNat + increment
  let (empty, deepest, c) ← blockBreaks given start fuel "" 0 c
  let indent := if given = 0 then max deepest (max 1 (parent + 1).toNat) else given
  let (b, c) ← blockLines literal indent start fuel { empty } c
  let tail := match chomping with
    | .strip => ""
    | .clip => b.ending
    | .keep => b.ending ++ b.empty
  return { text := b.text ++ tail, passedBreak := true, rest := c }

end Concolic.Yaml
