import RobotGolf.Span
import RobotGolf.Text.Place
import RobotGolf.Text.Quoted
/-!
# Tokens of the program language

The alphabet of the program language is a part of ASCII: letters, digits, the newline and six
punctuation marks. A token is one character of it, or a run of digits. `Token.scan` cuts a text into
tokens without gaps. It stops at the end of the text, or at the first character outside of the
alphabet, and records in a last token which of the two it was.
-/

namespace RobotGolf

/-! ### Kinds of tokens -/

/-- What a token is. The first two kinds end a scan, the others are found in the text. -/
inductive TokenKind where
  | finish
  | illegal
  | command
  | procedure
  | parameter
  | number
  | leftParen
  | rightParen
  | comma
  | colon
  | plus
  | minus
  | newline
  deriving DecidableEq, Repr

namespace TokenKind

/-- All kinds of tokens. -/
def all : List TokenKind :=
  [finish, illegal, command, procedure, parameter, number, leftParen, rightParen, comma, colon,
    plus, minus, newline]

/-- The number of a kind. -/
def code : TokenKind → Int
  | finish => -1
  | illegal => 0
  | command => 12
  | procedure => 13
  | parameter => 14
  | number => 15
  | leftParen => 16
  | rightParen => 17
  | comma => 18
  | colon => 19
  | plus => 20
  | minus => 21
  | newline => 22

/-- The kind with a given number. -/
def ofCode? (n : Int) : Option TokenKind := all.find? (·.code == n)

/-- A kind as messages name it. -/
def title : TokenKind → String
  | finish => "end of input"
  | illegal => "illegal input"
  | command => "command"
  | procedure => "procedure name"
  | parameter => "parameter"
  | number => "number"
  | leftParen => "'('"
  | rightParen => "')'"
  | comma => "','"
  | colon => "':'"
  | plus => "'+'"
  | minus => "'-'"
  | newline => "end of line"

/-- The title for a number, also for one that belongs to no kind. -/
def titleOfCode (n : Int) : String :=
  match ofCode? n with
  | some kind => kind.title
  | none => "token(" ++ toString n ++ ")"

/-- The kinds that cost a byte: names, commands and numbers, but no punctuation. -/
def isOperand : TokenKind → Bool
  | command | procedure | parameter | number => true
  | _ => false

theorem ofCode?_code (kind : TokenKind) : ofCode? kind.code = some kind := by
  cases kind <;> rfl

end TokenKind

/-! ### Tokens -/

/-- A token with its text and where it was found. -/
structure Token where
  kind : TokenKind
  lexeme : Bytes
  span : Span
  place : Place
  deriving DecidableEq, Repr

namespace Token

/-- The text of a token as a string. -/
def text (t : Token) : String := Bytes.toText t.lexeme

/-- A token as it is listed, from the number of its kind, its text and its place. -/
def describe (code : Int) (lexeme : Bytes) (place : Place) : String :=
  "<" ++ TokenKind.titleOfCode code ++ " " ++ Quoted.quote lexeme ++ " @" ++ toString place.line
    ++ ":" ++ toString place.column ++ ">"

/-- A token as it is listed. -/
def render (t : Token) : String := describe t.kind.code t.lexeme t.place

/-! ### Classes of octets -/

/-- The digits. -/
def isDigit (b : UInt8) : Bool := 48 ≤ b && b ≤ 57

/-- The lower-case letters. -/
def isLower (b : UInt8) : Bool := 97 ≤ b && b ≤ 122

/-- The upper-case letters. -/
def isUpper (b : UInt8) : Bool := 65 ≤ b && b ≤ 90

/-- The letters of the three commands. -/
def isCommand (b : UInt8) : Bool := b == 115 || b == 108 || b == 114

/-- The kind of token that starts with an octet. -/
def classify (b : UInt8) : Option TokenKind :=
  if isCommand b then some .command
  else if isLower b then some .procedure
  else if isUpper b then some .parameter
  else if isDigit b then some .number
  else if b == 10 then some .newline
  else if b == 40 then some .leftParen
  else if b == 41 then some .rightParen
  else if b == 44 then some .comma
  else if b == 58 then some .colon
  else if b == 43 then some .plus
  else if b == 45 then some .minus
  else none

/-! ### Scanning -/

/-- The lexeme at the head of `b :: rest` and what follows it. Only numbers are longer than one
octet. -/
def cut (b : UInt8) (rest : Bytes) : Bytes × Bytes :=
  if isDigit b then (b :: rest.takeWhile isDigit, rest.dropWhile isDigit) else ([b], rest)

theorem cut_append (b : UInt8) (rest : Bytes) : (cut b rest).1 ++ (cut b rest).2 = b :: rest := by
  unfold cut
  split
  · simp [List.takeWhile_append_dropWhile]
  · rfl

theorem length_cut_lt (b : UInt8) (rest : Bytes) : (cut b rest).2.length < (b :: rest).length := by
  unfold cut
  split
  · exact Nat.lt_succ_of_le (List.dropWhile_sublist _).length_le
  · simp

/-- The token that stands for the end of a text. -/
def finish (text : Bytes) : Token :=
  ⟨.finish, [], ⟨text.length, text.length⟩, Place.atEnd text⟩

/-- The token for a character outside of the alphabet, at the head of `b :: rest`. -/
def illegalAt (offset : Nat) (before : Place) (b : UInt8) (rest : Bytes) : Token :=
  let glyph := (Bytes.uncons b rest).1
  ⟨.illegal, Bytes.ofChars [glyph.char], ⟨offset, offset + glyph.width⟩, before.passOctet b⟩

end Token

/-- The tokens of a text, the token that ended the scan, and the token for the end of the text. -/
structure Scan where
  tokens : List Token
  last : Token
  finish : Token
  deriving DecidableEq, Repr

namespace Token

/-- Scans what is left of a text, from an offset and the place of the octet before it. -/
def scanFrom (finish : Token) (offset : Nat) (before : Place) : Bytes → List Token × Token
  | [] => ([], finish)
  | b :: rest =>
    match classify b with
    | none => ([], illegalAt offset before b rest)
    | some kind =>
      let lexeme := (cut b rest).1
      let token := ⟨kind, lexeme, ⟨offset, offset + lexeme.length⟩, before.passOctet b⟩
      let behind :=
        scanFrom finish (offset + lexeme.length) (lexeme.foldl Place.passOctet before)
          (cut b rest).2
      (token :: behind.1, behind.2)
termination_by text => text.length
decreasing_by exact length_cut_lt b rest

/-- Scans a text. -/
def scan (text : Bytes) : Scan :=
  let found := scanFrom (finish text) 0 Place.beforeOctets text
  ⟨found.1, found.2, finish text⟩

end Token

namespace Scan

/-- The tokens that the first requests for a token are answered with: those of the text, the last
one, and then the end of the text again and again. -/
def deliver (s : Scan) (extra : Nat) : List Token :=
  s.tokens ++ s.last :: List.replicate extra s.finish

/-- How many characters outside of the alphabet have been reported. -/
def reported (s : Scan) : Nat := if s.last.kind = .illegal then 1 else 0

end Scan

end RobotGolf
