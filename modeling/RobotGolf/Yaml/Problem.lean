/-!
# What is wrong with a text that is not YAML

A text may fail to be YAML for its octets, for its tokens, or for how its tokens follow each other.
The wording of a problem says no more than that, except for the line in which it was noticed. Lines
count from zero while a text is read, and nothing is said about a line with the number zero. A
problem with a token is shown with the number of its line counted from one, a problem with the order
of tokens with the number of its line counted from zero.
-/

namespace RobotGolf.Yaml

/-- What may be wrong with a text. -/
inductive Problem where
  -- Octets
  | invalidLeading
  | incompleteSequence
  | invalidTrailing
  | invalidLength
  | invalidCharacter
  | incompleteUnit
  | unexpectedTrailingUnit
  | incompletePair
  | missingTrailingUnit
  | controlCharacter
  -- Tokens
  | noToken
  | entryNotAllowed
  | keyNotAllowed
  | valueNotAllowed
  | missingColon
  | tooDeep (limit : Nat)
  | unknownDirective
  | missingDirectiveName
  | strayDirectiveChar
  | missingVersionPoint
  | longVersionNumber
  | missingVersionNumber
  | missingBlank
  | missingBlankOrBreak
  | missingCommentOrBreak
  | missingName
  | missingAngle
  | missingBang
  | missingTagText
  | missingOctet
  | incorrectLeading
  | incorrectTrailing
  | zeroDepth
  | tabInIndentation
  | tabViolatesIndentation
  | strayMarker
  | strayEnd
  | unknownEscape
  | missingHex
  | invalidEscape
  -- The order of tokens
  | missingDocumentStart
  | missingNode
  | missingEntry
  | missingKey
  | missingCommaInSequence
  | missingCommaInMapping
  | undefinedHandle
  | repeatedVersion
  | unknownVersion
  | repeatedHandle
  | unknownName (name : String)
  -- None of these
  | unknown
  deriving DecidableEq, Repr

/-- The wording of a problem. -/
def Problem.message : Problem → String
  | invalidLeading => "invalid leading UTF-8 octet"
  | incompleteSequence => "incomplete UTF-8 octet sequence"
  | invalidTrailing => "invalid trailing UTF-8 octet"
  | invalidLength => "invalid length of a UTF-8 sequence"
  | invalidCharacter => "invalid Unicode character"
  | incompleteUnit => "incomplete UTF-16 character"
  | unexpectedTrailingUnit => "unexpected low surrogate area"
  | incompletePair => "incomplete UTF-16 surrogate pair"
  | missingTrailingUnit => "expected low surrogate area"
  | controlCharacter => "control characters are not allowed"
  | noToken => "found character that cannot start any token"
  | entryNotAllowed => "block sequence entries are not allowed in this context"
  | keyNotAllowed => "mapping keys are not allowed in this context"
  | valueNotAllowed => "mapping values are not allowed in this context"
  | missingColon => "could not find expected ':'"
  | tooDeep limit => "exceeded max depth of " ++ toString limit
  | unknownDirective => "found unknown directive name"
  | missingDirectiveName => "could not find expected directive name"
  | strayDirectiveChar => "found unexpected non-alphabetical character"
  | missingVersionPoint => "did not find expected digit or '.' character"
  | longVersionNumber => "found extremely long version number"
  | missingVersionNumber => "did not find expected version number"
  | missingBlank => "did not find expected whitespace"
  | missingBlankOrBreak => "did not find expected whitespace or line break"
  | missingCommentOrBreak => "did not find expected comment or line break"
  | missingName => "did not find expected alphabetic or numeric character"
  | missingAngle => "did not find the expected '>'"
  | missingBang => "did not find expected '!'"
  | missingTagText => "did not find expected tag URI"
  | missingOctet => "did not find URI escaped octet"
  | incorrectLeading => "found an incorrect leading UTF-8 octet"
  | incorrectTrailing => "found an incorrect trailing UTF-8 octet"
  | zeroDepth => "found an indentation indicator equal to 0"
  | tabInIndentation => "found a tab character where an indentation space is expected"
  | tabViolatesIndentation => "found a tab character that violates indentation"
  | strayMarker => "found unexpected document indicator"
  | strayEnd => "found unexpected end of stream"
  | unknownEscape => "found unknown escape character"
  | missingHex => "did not find expected hexdecimal number"
  | invalidEscape => "found invalid Unicode character escape code"
  | missingDocumentStart => "did not find expected <document start>"
  | missingNode => "did not find expected node content"
  | missingEntry => "did not find expected '-' indicator"
  | missingKey => "did not find expected key"
  | missingCommaInSequence => "did not find expected ',' or ']'"
  | missingCommaInMapping => "did not find expected ',' or '\x7d'"
  | undefinedHandle => "found undefined tag handle"
  | repeatedVersion => "found duplicate %YAML directive"
  | unknownVersion => "found incompatible YAML document"
  | repeatedHandle => "found duplicate %TAG directive"
  | unknownName name => "unknown anchor '" ++ name ++ "' referenced"
  | unknown => "unknown problem parsing YAML content"

/-- A problem, with the number of a line if one is shown with it. -/
structure Flaw where
  problem : Problem
  line : Option Nat
  deriving DecidableEq, Repr

namespace Flaw

/-- A problem with the octets of a text, which is shown without a line. -/
def ofOctets (p : Problem) : Flaw := ⟨p, none⟩

/-- A problem with a token, noticed in a line. -/
def ofToken (p : Problem) (line : Nat) : Flaw := ⟨p, if line = 0 then none else some (line + 1)⟩

/-- A problem with the order of tokens, noticed at a token in a line. -/
def ofOrder (p : Problem) (line : Nat) : Flaw := ⟨p, if line = 0 then none else some line⟩

/-- The wording of a flaw. -/
def message (f : Flaw) : String :=
  match f.line with
  | none => f.problem.message
  | some n => "line " ++ toString n ++ ": " ++ f.problem.message

end Flaw

end RobotGolf.Yaml
