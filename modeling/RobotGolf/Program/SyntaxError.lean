import RobotGolf.Token
/-!
# Syntax errors

A text that is no program is refused with the token at which reading stopped, and the reason. Errors
are reported against the untrimmed text, with a line and a column that count from one.
-/

namespace RobotGolf

/-- What the reader was looking for when it met a token that does not fit. -/
inductive Expected where
  | token (kind : TokenKind)
  | procedureBody
  | mainBlock
  | argument
  | operand
  deriving DecidableEq, Repr

/-- The name of what was expected. -/
def Expected.title : Expected → String
  | token kind => kind.title
  | procedureBody => "procedure body"
  | mainBlock => "main block"
  | argument => "argument"
  | operand => "number or parameter"

/-- Why a text is no program. -/
inductive SyntaxCause where
  | illegalCharacter (text : Bytes)
  | unexpected (found : TokenKind) (lexeme : Bytes) (expected : Expected)
  | duplicateParameter (parameter procedure : String)
  | parameterOutside (parameter : String)
  | malformedLiteral (text : String)
  deriving DecidableEq, Repr

/-- The wording of a cause. -/
def SyntaxCause.message : SyntaxCause → String
  | illegalCharacter text => "illegal character " ++ Quoted.quote text
  | unexpected found lexeme expected =>
    let quoted :=
      match found with
      | .finish | .newline => ""
      | _ => " " ++ Quoted.quote lexeme
    "unexpected " ++ found.title ++ quoted ++ ", expected " ++ expected.title
  | duplicateParameter parameter procedure =>
    "duplicate parameter " ++ parameter ++ " in definition of " ++ procedure
  | parameterOutside parameter =>
    "parameter " ++ parameter ++ " outside of a procedure definition"
  | malformedLiteral text => "malformed integer literal: " ++ text

/-- A token that does not fit, and why. -/
structure Fault where
  token : Token
  cause : SyntaxCause
  deriving DecidableEq, Repr

/-- A syntax error: where it is in the source text, and why. -/
structure SyntaxError where
  place : Place
  span : Span
  cause : SyntaxCause
  deriving DecidableEq, Repr

namespace SyntaxError

/-- The text of an error from its place and the wording of its cause. -/
def describe (place : Place) (reason : String) : String :=
  "syntax error at line " ++ toString place.line ++ ", column " ++ toString place.column ++ ": "
    ++ reason

/-- The text of an error. -/
def message (e : SyntaxError) : String := describe e.place e.cause.message

/-- A fault found in the trimmed text, `lead` octets into the source. -/
def ofFault (source : Bytes) (lead : Nat) (fault : Fault) : SyntaxError :=
  let span := fault.token.span.shift lead
  ⟨Place.atOffset source span.start, span, fault.cause⟩

end SyntaxError

end RobotGolf
