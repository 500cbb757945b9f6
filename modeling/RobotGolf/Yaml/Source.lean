import RobotGolf.Text.Glyph
import RobotGolf.Yaml.Problem
/-!
# The characters of a YAML text

A YAML text is stored in UTF-8 or, behind a byte order mark that says so, in UTF-16. Characters are
decoded when they are asked for, a portion of 512 octets at a time. A portion with something in it
that is no character of YAML cannot be had at all, but nobody may ever ask for it.

A source hands the characters out one by one and keeps track of their lines and columns. What reads
from a source is a `Reading`: it has a flaw instead of a result if the text is not YAML, or if it
asks for a portion that cannot be had. Behind the last character of a text there are as many NULs as
are asked for; inside of a text there are none.
-/

namespace RobotGolf.Yaml

/-! ### Decoding -/

/-- How characters are stored. -/
inductive Encoding where
  | utf8
  | utf16 (bigEndian : Bool)
  deriving DecidableEq, Repr

/-- What stands in front of some octets: a character, with the octets behind it; less than a
character, which is a problem at the end of a text; or what cannot be one. -/
inductive Decoded where
  | char (c : Char) (rest : Bytes)
  | incomplete (p : Problem)
  | invalid (p : Problem)

/-- The characters that a text may hold. -/
def isAllowed (n : Nat) : Bool :=
  n == 0x09 || n == 0x0A || n == 0x0D || (0x20 ≤ n && n ≤ 0x7E) || n == 0x85
    || (0xA0 ≤ n && n ≤ 0xD7FF) || (0xE000 ≤ n && n ≤ 0xFFFD) || (0x10000 ≤ n && n ≤ 0x10FFFF)

/-- The character with a number, if a text may hold it. -/
def Decoded.ofNat (n : Nat) (rest : Bytes) : Decoded :=
  if isAllowed n then .char (Char.ofNat n) rest else .invalid .controlCharacter

/-- Number of octets of the UTF-8 sequence that starts with a given one, and zero if none does. -/
def utf8Width (b : UInt8) : Nat :=
  if b < 0x80 then 1
  else if b < 0xC0 then 0
  else if b < 0xE0 then 2
  else if b < 0xF0 then 3
  else if b < 0xF8 then 4
  else 0

/-- The bits for the number of a character that the first octet of a UTF-8 sequence has. -/
def leadBits (width : Nat) (b : UInt8) : Nat :=
  match width with
  | 1 => b.toNat
  | 2 => b.toNat % 32
  | 3 => b.toNat % 16
  | _ => b.toNat % 8

/-- The least number that needs a UTF-8 sequence of a given width. -/
def leastOfWidth : Nat → Nat
  | 2 => 0x80
  | 3 => 0x800
  | 4 => 0x10000
  | _ => 0

/-- Decodes a character of UTF-8. -/
def utf8Head : Bytes → Decoded
  | [] => .incomplete .incompleteSequence
  | b :: rest =>
    let width := utf8Width b
    let tail := rest.take (width - 1)
    if width = 0 then .invalid .invalidLeading
    else if tail.length + 1 < width then .incomplete .incompleteSequence
    else if !tail.all Bytes.isTail then .invalid .invalidTrailing
    else
      let n := tail.foldl (fun n b => 64 * n + Bytes.tailBits b) (leadBits width b)
      if n < leastOfWidth width then .invalid .invalidLength
      else if (0xD800 ≤ n && n ≤ 0xDFFF) || 0x10FFFF < n then .invalid .invalidCharacter
      else Decoded.ofNat n (rest.drop (width - 1))

/-- A unit of UTF-16. -/
def unit (bigEndian : Bool) (a b : UInt8) : Nat :=
  if bigEndian then 256 * a.toNat + b.toNat else 256 * b.toNat + a.toNat

/-- Whether a unit is the first one of a pair. -/
def isLeading (n : Nat) : Bool := 0xD800 ≤ n && n < 0xDC00

/-- Whether a unit is the second one of a pair. -/
def isTrailing (n : Nat) : Bool := 0xDC00 ≤ n && n < 0xE000

/-- Decodes a character of UTF-16. -/
def utf16Head (bigEndian : Bool) : Bytes → Decoded
  | a :: b :: rest =>
    let first := unit bigEndian a b
    if isTrailing first then .invalid .unexpectedTrailingUnit
    else if isLeading first then
      match rest with
      | c :: d :: behind =>
        let second := unit bigEndian c d
        if isTrailing second then
          Decoded.ofNat (0x10000 + 1024 * (first - 0xD800) + (second - 0xDC00)) behind
        else .invalid .missingTrailingUnit
      | _ => .incomplete .incompletePair
    else Decoded.ofNat first rest
  | _ => .incomplete .incompleteUnit

namespace Encoding

/-- Decodes a character. -/
def head : Encoding → Bytes → Decoded
  | utf8 => utf8Head
  | utf16 bigEndian => utf16Head bigEndian

/-- Decodes at most `n` characters. The octets of a last character that is not complete are left,
unless they are the last ones of a text. -/
def decode (e : Encoding) (last : Bool) : (n : Nat) → Bytes → Except Problem (List Char × Bytes)
  | 0, octets => .ok ([], octets)
  | n + 1, octets =>
    if octets.isEmpty then .ok ([], [])
    else
      match e.head octets with
      | .invalid p => .error p
      | .incomplete p => if last then .error p else .ok ([], octets)
      | .char c rest => (e.decode last n rest).map fun (cs, left) => (c :: cs, left)

/-- Splits a byte order mark off. Without one a text is in UTF-8. -/
def detect : Bytes → Encoding × Bytes
  | 0xFF :: 0xFE :: rest => (utf16 false, rest)
  | 0xFE :: 0xFF :: rest => (utf16 true, rest)
  | 0xEF :: 0xBB :: 0xBF :: rest => (utf8, rest)
  | octets => (utf8, octets)

end Encoding

/-! ### Sources -/

/-- A text that is being read. -/
structure Source where
  encoding : Encoding
  /-- Characters that have been decoded, but not been read. -/
  ahead : List Char
  /-- Number of these characters, to which NULs behind the text may have been added. -/
  stock : Nat
  /-- Octets of the present portion that have not been decoded. -/
  portion : Bytes
  /-- Octets behind the present portion. -/
  octets : Bytes
  /-- Whether it is known that there are no more portions. -/
  exhausted : Bool
  /-- Whether the stock held a byte order mark in front when it was last filled up. -/
  marked : Bool
  /-- Characters, line ends and characters of the present line that have been read. -/
  index : Nat
  line : Nat
  column : Nat
  /-- There are fewer characters in the text than this. -/
  bound : Nat

/-- Reading from a source. -/
abbrev Reading := StateT Source (Except Flaw)

/-- The character behind the end of a text. -/
def ending : Char := '\x00'

/-- The byte order mark. -/
def orderMark : Char := '\uFEFF'

namespace Source

/-- Number of octets in a portion. -/
def portionSize : Nat := 512

/-- A text before anything has been read. An empty text counts as an empty line. -/
def ofBytes (text : Bytes) : Source :=
  let text := if text.isEmpty then [10] else text
  let (encoding, portion) := Encoding.detect (text.take portionSize)
  { encoding := encoding
    ahead := []
    stock := 0
    portion := portion
    octets := text.drop portionSize
    exhausted := text.length < 3
    marked := false
    index := 0
    line := 0
    column := 0
    bound := text.length + 2 }

/-- Goes on to the next portion, what is left of the present one in front. -/
def turn (s : Source) : Source :=
  if s.octets.isEmpty then { s with exhausted := true }
  else
    let room := portionSize - s.portion.length
    { s with portion := s.portion ++ s.octets.take room, octets := s.octets.drop room }

/-- Decodes the present portion. -/
def decode (s : Source) : Except Problem Source :=
  (s.encoding.decode s.exhausted s.portion.length s.portion).map fun (cs, left) =>
    { s with ahead := s.ahead ++ cs, stock := s.stock + cs.length, portion := left }

/-- Decodes portions until there are `n` characters in stock or there is nothing left to decode. In
the latter case a NUL is added. -/
def stockUp (n : Nat) : (turns : Nat) → Source → Except Problem Source
  | 0, s => .ok s
  | turns + 1, s =>
    match s.decode with
    | .error p => .error p
    | .ok s =>
      if s.exhausted then .ok { s with stock := s.stock + 1 }
      else if n ≤ s.stock then .ok s
      else stockUp n turns s.turn

/-- Provides for `n` characters in stock. -/
def provide (n : Nat) (s : Source) : Except Problem Source :=
  if n ≤ s.stock then .ok s
  else
    let s := if s.portion.isEmpty then s.turn else s
    (s.stockUp n (s.bound + 2)).map fun s => { s with marked := s.ahead.head? == some orderMark }

/-- The character at a distance from the next one. -/
def charAt (s : Source) (distance : Nat) : Char := s.ahead.getD distance ending

/-- Passes a character. -/
def pass (s : Source) : Source :=
  { s with
    ahead := s.ahead.tail
    stock := s.stock - 1
    index := s.index + 1
    column := s.column + 1 }

/-- Starts a new line. -/
def newLine (s : Source) : Source := { s with column := 0, line := s.line + 1 }

end Source

/-! ### Characters -/

/-- A space or a tab. -/
def isBlank (c : Char) : Bool := c == ' ' || c == '\t'

/-- The characters that end a line. -/
def isBreak (c : Char) : Bool :=
  c == '\n' || c == '\r' || c == '\u0085' || c == '\u2028' || c == '\u2029'

/-- The end of a line or of the text. -/
def isBreakOrEnd (c : Char) : Bool := isBreak c || c == ending

/-- A space, a tab, or the end of a line or of the text. -/
def isGap (c : Char) : Bool := isBlank c || isBreakOrEnd c

/-- The characters of names: letters, digits, and two more. -/
def isWord (c : Char) : Bool := c.isAlphanum || c == '_' || c == '-'

/-! ### Reading characters -/

namespace Reading

/-- Stops at a problem with a token, noticed at the next character. -/
def fail {α : Type} (p : Problem) : Reading α := fun s => .error (Flaw.ofToken p s.line)

/-- Asks for `n` characters. -/
def demand (n : Nat) : Reading Unit := fun s =>
  match s.provide n with
  | .error p => .error (Flaw.ofOctets p)
  | .ok s => .ok ((), s)

/-- The next character. -/
def peek : Reading Char := fun s => .ok (s.charAt 0, s)

/-- The character at a distance from the next one. -/
def peekAt (distance : Nat) : Reading Char := fun s => .ok (s.charAt distance, s)

/-- The column of the next character. -/
def column : Reading Nat := fun s => .ok (s.column, s)

/-- Passes the next character. -/
def skip : Reading Unit := fun s => .ok ((), s.pass)

/-- Passes some characters. -/
def skipMany : Nat → Reading Unit
  | 0 => pure ()
  | n + 1 => do
    skip
    skipMany n

/-- Takes a line end, if there is one: a carriage return with a line feed behind it counts as one.
All line ends are turned into line feeds, but for the two separators of Unicode. -/
def takeBreak : Reading (List Char) := do
  let c ← peek
  if !isBreak c then return []
  if c == '\r' && (← peekAt 1) == '\n' then skip
  skip
  modify Source.newLine
  return [if c == '\u2028' || c == '\u2029' then c else '\n']

/-- Passes a line end, if there is one. -/
def skipBreak : Reading Unit := do
  let _ ← takeBreak

/-- A number that is larger than that of the characters that can be read. -/
def bound : Reading Nat := fun s => .ok (s.bound, s)

/-- Takes at most `n` characters, as long as they are of some kind, and puts them in front of
others, the latest first. Each of them makes room for another one in stock. -/
def takeOnto (kind : Char → Bool) : (n : Nat) → List Char → Reading (List Char)
  | 0, before => return before
  | n + 1, before => do
    let c ← peek
    if kind c then
      skip
      demand 1
      takeOnto kind n (c :: before)
    else return before

/-- Takes characters as long as they are of some kind. -/
def takeWhile (kind : Char → Bool) : Reading (List Char) := do
  return (← takeOnto kind (← bound) []).reverse

/-- Passes characters as long as they are of some kind. -/
def skipWhile (kind : Char → Bool) : Reading Unit := do
  let _ ← takeOnto kind (← bound) []

/-- Passes a comment, if there is one. -/
def skipComment : Reading Unit := do
  if (← peek) == '#' then skipWhile fun c => !isBreakOrEnd c

/-- Passes the rest of a line, in which there may be nothing but blanks and a comment. -/
def finishLine : Reading Unit := do
  demand 1
  skipWhile isBlank
  skipComment
  let c ← peek
  if !isBreakOrEnd c then fail .missingCommentOrBreak
  if isBreak c then
    demand 2
    skipBreak

end Reading

end RobotGolf.Yaml
