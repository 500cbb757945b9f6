import RobotGolf.Text.Glyph
/-!
# Octets written in base 64

Three octets are written with four characters, each of which stands for six bits. A group of fewer
octets at the end is filled up with equals signs. Line ends in between do not count.
-/

namespace RobotGolf.Base64

/-- The six bits that a character stands for. -/
def sextet? (c : Char) : Option Nat :=
  if 'A' ≤ c ∧ c ≤ 'Z' then some (c.toNat - 65)
  else if 'a' ≤ c ∧ c ≤ 'z' then some (c.toNat - 71)
  else if c.isDigit then some (c.toNat + 4)
  else if c = '+' then some 62
  else if c = '/' then some 63
  else none

/-- The first `n` of the three octets that four groups of six bits make up. -/
def octets (n : Nat) (a b c d : Nat) : Bytes :=
  let word := ((a * 64 + b) * 64 + c) * 64 + d
  ([word / 65536, word / 256, word].map fun m => UInt8.ofNat (m % 256)).take n

/-- The octets for some characters, four of them at a time. -/
def decodeGroups : List Char → Option Bytes
  | [] => some []
  | [a, b, '=', '='] => do return octets 1 (← sextet? a) (← sextet? b) 0 0
  | [a, b, c, '='] => do return octets 2 (← sextet? a) (← sextet? b) (← sextet? c) 0
  | a :: b :: c :: d :: rest => do
    let first := octets 3 (← sextet? a) (← sextet? b) (← sextet? c) (← sextet? d)
    return first ++ (← decodeGroups rest)
  | _ => none

/-- The octets for a text, if it is one in base 64. -/
def decode? (text : String) : Option Bytes :=
  decodeGroups (text.toList.filter fun c => c != '\n' && c != '\r')

end RobotGolf.Base64
