import Concolic.Text.Utf8

namespace Concolic.Text

def sextet? (c : Char) : Option Nat :=
  if 'A' ≤ c ∧ c ≤ 'Z' then some (c.toNat - 'A'.toNat)
  else if 'a' ≤ c ∧ c ≤ 'z' then some (c.toNat - 'a'.toNat + 26)
  else if '0' ≤ c ∧ c ≤ '9' then some (c.toNat - '0'.toNat + 52)
  else if c = '+' then some 62
  else if c = '/' then some 63
  else none

/-- The octets of groups of four characters. Only the last group may be padded. -/
def base64Groups? : List Char → Option (List Nat)
  | [] => some []
  | [a, b, '=', '='] => do
    let a ← sextet? a
    let b ← sextet? b
    return [4 * a + b / 16]
  | [a, b, c, '='] => do
    let a ← sextet? a
    let b ← sextet? b
    let c ← sextet? c
    return [4 * a + b / 16, b % 16 * 16 + c / 4]
  | a :: b :: c :: d :: rest => do
    let a ← sextet? a
    let b ← sextet? b
    let c ← sextet? c
    let d ← sextet? d
    return [4 * a + b / 16, b % 16 * 16 + c / 4, c % 4 * 64 + d] ++ (← base64Groups? rest)
  | _ => none

def ofBase64? (s : String) : Option String := do
  return ofOctets (← base64Groups? (s.toList.filter fun c => c ≠ '\n' && c ≠ '\r'))

end Concolic.Text
