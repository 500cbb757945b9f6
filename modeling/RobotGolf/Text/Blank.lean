import RobotGolf.Text.Glyph
/-!
# White space around a text

White space is the Unicode property `White_Space`. Trimming takes whole glyphs off both ends of a
text, so it never cuts a character, and a stray octet is never white space.
-/

namespace RobotGolf

/-- The characters with the Unicode property `White_Space`. -/
def isBlank (c : Char) : Bool :=
  let n := c.toNat
  (0x09 ≤ n && n ≤ 0x0D) || n == 0x20 || n == 0x85 || n == 0xA0 || n == 0x1680
    || (0x2000 ≤ n && n ≤ 0x200A) || n == 0x2028 || n == 0x2029 || n == 0x202F || n == 0x205F
    || n == 0x3000

namespace Glyph

/-- A glyph of white space. -/
def blank (g : Glyph) : Bool := isBlank g.char

/-- The glyphs without the white space at either end. -/
def trim (gs : List Glyph) : List Glyph :=
  ((gs.dropWhile blank).reverse.dropWhile blank).reverse

end Glyph

namespace Bytes

/-- The text without the white space at either end. -/
def trim (text : Bytes) : Bytes := ofGlyphs (Glyph.trim (glyphs text))

/-- Octets of white space in front of the first character that is none. -/
def leading (text : Bytes) : Bytes := ofGlyphs ((glyphs text).takeWhile Glyph.blank)

/-- The offset of the first place in `text` at which `part` starts. -/
def firstIndex? (part : Bytes) : Bytes → Option Nat
  | [] => if part.isEmpty then some 0 else none
  | b :: rest =>
    if part.isPrefixOf (b :: rest) then some 0 else (firstIndex? part rest).map (· + 1)

end Bytes

end RobotGolf
