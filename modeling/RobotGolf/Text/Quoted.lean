import RobotGolf.Text.Glyph
import RobotGolf.Text.Printable
/-!
# Quoted texts

Messages show foreign text between double quotes. Printable characters stand for themselves, a
quote and a backslash follow a backslash, seven controls have a letter of their own, and all else is
written by its number: two hexadecimal digits for controls and stray octets, four or eight for other
characters.
-/

namespace RobotGolf.Quoted

/-- The hexadecimal digits of a number, padded with zeros on the left. -/
def hex (places n : Nat) : String :=
  let digits := Nat.toDigits 16 n
  String.ofList (List.replicate (places - digits.length) '0' ++ digits)

/-- The letter that names a control character after a backslash. -/
def controlLetter? (c : Char) : Option Char :=
  match c.toNat with
  | 7 => some 'a'
  | 8 => some 'b'
  | 9 => some 't'
  | 10 => some 'n'
  | 11 => some 'v'
  | 12 => some 'f'
  | 13 => some 'r'
  | _ => none

/-- A character between quotes. -/
def escape (c : Char) : String :=
  if c == '"' || c == '\\' then String.ofList ['\\', c]
  else if isPrintable c then String.singleton c
  else
    match controlLetter? c with
    | some letter => String.ofList ['\\', letter]
    | none =>
      if c.toNat < 0x20 || c.toNat == 0x7F then "\\x" ++ hex 2 c.toNat
      else if c.toNat < 0x10000 then "\\u" ++ hex 4 c.toNat
      else "\\U" ++ hex 8 c.toNat

/-- A glyph between quotes: a stray octet is shown by its number. -/
def escapeGlyph (g : Glyph) : String :=
  if g.isStray then "\\x" ++ hex 2 (g.octets.headD 0).toNat else escape g.char

/-- A text between double quotes. -/
def quote (text : Bytes) : String :=
  "\"" ++ String.join ((Bytes.glyphs text).map escapeGlyph) ++ "\""

end RobotGolf.Quoted
