import RobotGolf.Yaml.ScalarText
/-!
# Tokens of YAML

Some tokens are written out in a text: brackets and other marks, markers of documents, directives,
the names and tags of nodes, and scalars. Others are told by indentation: where a block starts and
ends, and that a scalar is a key. This module has the tokens, and readings for those of them that
have a text of their own.
-/

namespace RobotGolf.Yaml

/-- The kinds of tokens. A tag directive gives a meaning to a handle, the `stem` of the tags that
are written with it. A tag without a handle is written out. -/
inductive TokenKind where
  | streamEnd
  | versionDirective (major minor : Nat)
  | tagDirective (handle stem : Bytes)
  | documentStart
  | documentEnd
  | blockSequenceStart
  | blockMappingStart
  | blockEnd
  | flowSequenceStart
  | flowSequenceEnd
  | flowMappingStart
  | flowMappingEnd
  | blockEntry
  | flowEntry
  | key
  | value
  | alias (name : String)
  | anchor (name : String)
  | tag (handle suffix : Bytes)
  | scalar (text : String) (plain : Bool)
  deriving DecidableEq, Repr

/-- A token, with the line that it starts in, counted from zero. -/
structure Token where
  kind : TokenKind
  line : Nat
  deriving DecidableEq, Repr

namespace Reading

/-! ### Names of nodes -/

/-- The characters that may follow the name of a node. -/
def endsName (c : Char) : Bool :=
  isGap c || ['?', ':', ',', ']', '\x7d', '%', '@', '\x60'].contains c

/-- Takes the name of a node, behind the mark in front of it. -/
def takeName : Reading String := do
  skip
  demand 1
  let name ← takeWhile isWord
  if name.isEmpty || !endsName (← peek) then fail .missingName
  return String.ofList name

/-! ### Tags -/

/-- The characters of a tag. A percent sign starts an escaped octet. -/
def isTagChar (c : Char) : Bool := isWord c || ";/?:@&=+$,.!~*\x27()[]".toList.contains c

/-- Takes an escaped octet: two hexadecimal digits behind a percent sign. -/
def takeOctet : Reading UInt8 := do
  demand 3
  if (← peek) ≠ '%' then fail .missingOctet
  skip
  return (← takeHex .missingOctet 2 0).toUInt8

/-- Takes escaped octets that continue a UTF-8 sequence. -/
def takeTail : (n : Nat) → Reading Bytes
  | 0 => return []
  | n + 1 => do
    let octet ← takeOctet
    if !Bytes.isTail octet then fail .incorrectTrailing
    return octet :: (← takeTail n)

/-- Takes the escaped octets of a character. -/
def takeEscapedChar : Reading Bytes := do
  let first ← takeOctet
  match utf8Width first with
  | 0 => fail .incorrectLeading
  | width + 1 => return first :: (← takeTail width)

/-- Takes at most `n` characters of a tag, and puts them behind some octets. -/
def takeTagChars : (n : Nat) → Bytes → Reading Bytes
  | 0, before => return before
  | n + 1, before => do
    let c ← peek
    if c == '%' then
      let octets ← takeEscapedChar
      demand 1
      takeTagChars n (before ++ octets)
    else if isTagChar c then
      skip
      demand 1
      takeTagChars n (before ++ Bytes.ofChars [c])
    else return before

/-- Takes the characters of a tag. -/
def takeTagText : Reading Bytes := do
  demand 1
  takeTagChars (← bound) []

/-- Takes the characters of a tag, of which there has to be one. -/
def takeSomeTagText : Reading Bytes := do
  let text ← takeTagText
  if text.isEmpty then fail .missingTagText
  return text

/-- The octet for an exclamation mark. -/
def bang : UInt8 := 33

/-- Takes what may be the handle of a tag: an exclamation mark, a word, and another exclamation mark
if there is one. -/
def takeHandle : Reading Bytes := do
  demand 1
  if (← peek) ≠ '!' then fail .missingBang
  skip
  demand 1
  let word := Bytes.ofChars (← takeWhile isWord)
  if (← peek) == '!' then
    skip
    return bang :: (word ++ [bang])
  else return bang :: word

/-- Whether octets that start with an exclamation mark end with another one. -/
def isHandle (text : Bytes) : Bool := 1 < text.length && text.getLast? == some bang

/-- Takes a tag: one that is written out, one with a handle and a suffix, or the tag that is nothing
but an exclamation mark. -/
def takeTag : Reading TokenKind := do
  demand 2
  let tag ← do
    if (← peekAt 1) == '<' then
      skipMany 2
      let text ← takeSomeTagText
      if (← peek) ≠ '>' then fail .missingAngle
      skip
      pure (TokenKind.tag [] text)
    else
      let handle ← takeHandle
      if isHandle handle then pure (TokenKind.tag handle (← takeSomeTagText))
      else
        let text := handle.drop 1 ++ (← takeTagText)
        pure (if text.isEmpty then TokenKind.tag [] [bang] else TokenKind.tag [bang] text)
  demand 1
  if !isGap (← peek) then fail .missingBlankOrBreak
  return tag

/-! ### Directives -/

/-- Takes a number of one or two digits. -/
def takeVersionPart : Reading Nat := do
  demand 1
  let digits ← takeOnto Char.isDigit 2 []
  if (← peek).isDigit then fail .longVersionNumber
  if digits.isEmpty then fail .missingVersionNumber
  return digits.reverse.foldl (fun n c => 10 * n + (c.toNat - 48)) 0

/-- Takes the version that a directive names. -/
def takeVersion : Reading TokenKind := do
  demand 1
  skipWhile isBlank
  let major ← takeVersionPart
  if (← peek) ≠ '.' then fail .missingVersionPoint
  skip
  return .versionDirective major (← takeVersionPart)

/-- Takes the handle that a directive gives a meaning to, and that meaning. -/
def takeTagMeaning : Reading TokenKind := do
  demand 1
  skipWhile isBlank
  let handle ← takeHandle
  if handle ≠ [bang] && !isHandle handle then fail .missingBang
  demand 1
  if !isBlank (← peek) then fail .missingBlank
  skipWhile isBlank
  let stem ← takeSomeTagText
  demand 1
  if !isGap (← peek) then fail .missingBlankOrBreak
  return .tagDirective handle stem

/-- Takes a directive, with the rest of its line. -/
def takeDirective : Reading TokenKind := do
  skip
  demand 1
  let name ← takeWhile isWord
  if name.isEmpty then fail .missingDirectiveName
  if !isGap (← peek) then fail .strayDirectiveChar
  let directive ←
    match String.ofList name with
    | "YAML" => takeVersion
    | "TAG" => takeTagMeaning
    | _ => fail .unknownDirective
  finishLine
  return directive

end Reading

end RobotGolf.Yaml
