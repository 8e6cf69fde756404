import Concolic.Yaml.Meaning

namespace Concolic.Yaml

def isShown (c : Char) : Bool :=
  let n := c.toNat
  n = 10 || (0x20 ≤ n && n ≤ 0x7e) || (0xa0 ≤ n && n ≤ 0xfffd && n ≠ 0xfeff)

def isIndicator (before : Option Char) (c : Char) (after : List Char) : Bool :=
  let spaced := after.head?.all isSpaceOrTab
  match before with
  | none =>
    "#,[]\x7b\x7d&*!|>'\"%@`".toList.contains c || ((c = '?' || c = ':' || c = '-') && spaced)
  | some b => (c = ':' && spaced) || (c = '#' && isGap b)

def hasIndicator (before : Option Char) : List Char → Bool
  | [] => false
  | c :: cs => isIndicator before c cs || hasIndicator (some c) cs

def plainAllowed (s : List Char) : Bool :=
  !(s.take 3 = ['-', '-', '-'] || s.take 3 = ['.', '.', '.']) && !hasIndicator none s
    && s.head? ≠ some ' ' && s.getLast? ≠ some ' ' && !s.any isBreak && s.all isShown

def singleAllowed (s : List Char) : Bool := s.all fun c => isShown c && !isBreak c

def isOldBool (s : String) : Bool :=
  ["y", "Y", "yes", "Yes", "YES", "on", "On", "ON", "n", "N", "no", "No", "NO", "off", "Off",
    "OFF"].contains s

def isSixtieth (s : List Char) : Bool :=
  match s with
  | [a] => a.isDigit
  | [a, b] => '0' ≤ a && a ≤ '5' && b.isDigit
  | _ => false

/-- Numbers in base sixty, such as `12:30`, which only some readers take for text. -/
def isSexagesimal (s : String) : Bool :=
  let s := match s.toList with
    | '-' :: r | '+' :: r => r
    | r => r
  let body := s.takeWhile (· ≠ '.')
  let fraction := (s.dropWhile (· ≠ '.')).drop 1
  let inNumber (c : Char) : Bool := c.isDigit || c = '_'
  match (String.ofList body).splitOn ":" with
  | first :: second :: rest =>
    first.toList.head?.any Char.isDigit && first.toList.all inNumber
      && (second :: rest).all (fun p => isSixtieth p.toList) && fraction.all inNumber
  | _ => false

def readsAsText (s : String) : Bool :=
  Meaning.ofPlain true s = .text && !isSexagesimal s && !isOldBool s

def upperHex (places n : Nat) : String :=
  let ds := (Nat.toDigits 16 n).map Char.toUpper
  String.ofList (List.replicate (places - ds.length) '0' ++ ds)

def escaped (c : Char) : String :=
  match c with
  | '"' => "\\\"" | '\\' => "\\\\" | '\x00' => "\\0" | '\x07' => "\\a" | '\x08' => "\\b"
  | '\t' => "\\t" | '\n' => "\\n" | '\x0b' => "\\v" | '\x0c' => "\\f" | '\r' => "\\r"
  | '\x1b' => "\\e" | '\u0085' => "\\N" | '\u2028' => "\\L" | '\u2029' => "\\P"
  | c =>
    let n := c.toNat
    if isShown c then String.singleton c
    else if n ≤ 0xff then "\\x" ++ upperHex 2 n
    else if n ≤ 0xffff then "\\u" ++ upperHex 4 n
    else "\\U" ++ upperHex 8 n

def doubleQuoted (s : String) : String := "\"" ++ String.join (s.toList.map escaped) ++ "\""

def singleQuoted (s : String) : String :=
  "'" ++ String.join (s.toList.map fun c => if c = '\'' then "''" else String.singleton c) ++ "'"

def scalarText (s : String) : String :=
  if !readsAsText s then doubleQuoted s
  else if plainAllowed s.toList then s
  else if singleAllowed s.toList then singleQuoted s
  else doubleQuoted s

inductive Block
  | number (n : Int)
  | text (s : String)
  | mapping (entries : List (String × Block))
  | sequence (items : List Block)

namespace Block

def indentation (n : Nat) : String := String.ofList (List.replicate n ' ')

/-- A key and what separates it from its value. Keys of more than 128 bytes are marked as such and
leave the value to a line of its own. -/
def keyText (indent : Nat) (key : String) : String :=
  let k := scalarText key
  if key.utf8ByteSize ≤ 128 then k ++ ":" else "? " ++ k ++ "\n" ++ indentation indent ++ ":"

mutual

def value (indent : Nat) : Block → String
  | number n => " " ++ toString n ++ "\n"
  | text s => " " ++ scalarText s ++ "\n"
  | mapping [] => " \x7b\x7d\n"
  | sequence [] => " []\n"
  | mapping (e :: es) => "\n" ++ entryLines (indent + 2) true (e :: es)
  | sequence (b :: bs) => "\n" ++ itemLines (indent + 2) (b :: bs)

def entryLines (indent : Nat) (first : Bool) : List (String × Block) → String
  | [] => ""
  | (key, b) :: rest =>
    (if first then indentation indent else "") ++ keyText indent key ++ value indent b
      ++ entryLines indent true rest

def itemLines (indent : Nat) : List Block → String
  | [] => ""
  | mapping (e :: es) :: rest =>
    indentation indent ++ "- " ++ entryLines (indent + 2) false (e :: es) ++ itemLines indent rest
  | b :: rest => indentation indent ++ "-" ++ value indent b ++ itemLines indent rest

end

def document : Block → String
  | mapping (e :: es) => entryLines 0 true (e :: es)
  | sequence (b :: bs) => itemLines 0 (b :: bs)
  | b => String.ofList ((value 0 b).toList.drop 1)

end Block

end Concolic.Yaml
