import RobotGolf.Text.Glyph
/-!
# Lines and columns

A place in a text is a line and a column. Three rules of counting are in use. Messages count
characters and start both at one (`Place.atOffset`), the end of a text is counted the same way while
walking along its characters (`Place.atEnd`), and tokens are placed by octets, their first octet
included, from column zero (`Place.passOctet`).
-/

namespace RobotGolf

/-- A line and a column. -/
structure Place where
  line : Int
  column : Int
  deriving DecidableEq, Repr

namespace Place

/-- The octet that ends a line. -/
def newline : UInt8 := 10

/-! ### Places by character -/

/-- The place behind a character. -/
def passChar (p : Place) (c : Char) : Place :=
  if c == '\n' then ⟨p.line + 1, 1⟩ else ⟨p.line, p.column + 1⟩

/-- The place behind the last character of a text. -/
def atEnd (text : Bytes) : Place := (Bytes.chars text).foldl passChar ⟨1, 1⟩

/-- What follows the last end of line. -/
def lastLine (text : Bytes) : Bytes := (text.reverse.takeWhile (· != newline)).reverse

/-- The place of an offset in a text, or of the end of the text for an offset behind it. -/
def atOffset (text : Bytes) (offset : Nat) : Place :=
  let before := text.take offset
  ⟨before.count newline + 1, (Bytes.glyphs (lastLine before)).length + 1⟩

/-! ### Places by octet -/

/-- The place of an octet, given the place of the one before it. -/
def passOctet (p : Place) (b : UInt8) : Place :=
  if b == newline then ⟨p.line + 1, 0⟩ else ⟨p.line, p.column + 1⟩

/-- The place in front of the first octet. -/
def beforeOctets : Place := ⟨1, 0⟩

end Place

end RobotGolf
