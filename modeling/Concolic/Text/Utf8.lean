/-!
Texts that are given by octets. Octets that are no UTF-8 are kept, each as one character of a private
area, so that any octets make up a text.
-/

namespace Concolic.Text

def strayBase : Nat := 0x10a500

def stray (octet : Nat) : Char := Char.ofNat (strayBase + octet)

def strayOctet? (c : Char) : Option Nat :=
  let n := c.toNat
  if strayBase + 0x80 ≤ n ∧ n < strayBase + 0x100 then some (n - strayBase) else none

def shown (s : String) : String :=
  s.map fun c => if (strayOctet? c).isSome then '\ufffd' else c

def leadingOctet? (octet : Nat) : Option (Nat × Nat) :=
  if octet < 0x80 then some (0, octet)
  else if octet / 32 = 6 then some (1, octet % 32)
  else if octet / 16 = 14 then some (2, octet % 16)
  else if octet / 8 = 30 then some (3, octet % 8)
  else none

def continued? : (n bits : Nat) → List Nat → Option Nat
  | 0, bits, _ => some bits
  | _ + 1, _, [] => none
  | n + 1, bits, octet :: r =>
    if octet / 64 = 2 then continued? n (64 * bits + octet % 64) r else none

/-- The character that some octets start with, and how many octets follow its first one. The shortest
form of a character is the only one. -/
def character? : List Nat → Option (Char × Nat)
  | [] => none
  | octet :: r => do
    let (n, bits) ← leadingOctet? octet
    let code ← continued? n bits r
    let c := Char.ofNat code
    if code.isValidChar ∧ c.utf8Size = n + 1 then some (c, n) else none

def charactersFrom : (skipped : Nat) → List Nat → List Char
  | _, [] => []
  | n + 1, _ :: r => charactersFrom n r
  | 0, octet :: r =>
    match character? (octet :: r) with
    | some (c, n) => c :: charactersFrom n r
    | none => stray octet :: charactersFrom 0 r

def ofOctets (octets : List Nat) : String := String.ofList (charactersFrom 0 octets)

end Concolic.Text
