import RobotGolf.Program.Basic
import RobotGolf.Program.SyntaxError
import RobotGolf.Text.Blank
/-!
# Reading programs

The grammar, with `eol` for the end of a line:

    program    ::=  definition* main
    definition ::=  procedure [ '(' parameter (',' parameter)* ')' ] ':' body eol
    main       ::=  statement+
    body       ::=  (statement | parameter)+
    statement  ::=  command  |  procedure [ '(' argument (',' argument)* ')' ]
    argument   ::=  parameter  |  body  |  sum
    sum        ::=  [ '-' | '+' ] term ( ('+' | '-') term )*
    term       ::=  number  |  parameter

A line is a definition if a colon follows its procedure name or the parenthesised list behind it. An
argument is a sum if it starts with a sign or a number, or with a parameter and a sign behind it. A
lone parameter is a reference to it, and everything else is a quoted sequence.

Every reader takes the tokens ahead of it and returns those that it left, which are never more
(`Parsed.rest_le`). The token that ended the scan is a parameter of its own, `stop`: it is looked
at, and never consumed. Readers that call each other do so with fewer tokens, or in a fixed order on
the same tokens, and that is why reading ends.
-/

namespace RobotGolf

/-- What a reader made of at most `bound` tokens, and the tokens that it left. -/
structure Parsed (α : Type) (bound : Nat) where
  value : α
  rest : List Token
  rest_le : rest.length ≤ bound

namespace Parse

/-- The token ahead. -/
def current (stop : Token) (tokens : List Token) : Token := tokens.headD stop

/-- The kind of the token ahead, if it is not the one that ended the scan. -/
def kindAhead (tokens : List Token) : Option TokenKind := tokens.head?.map Token.kind

/-- The fault of a token ahead that does not fit. -/
def unexpected (stop : Token) (tokens : List Token) (expected : Expected) : Fault :=
  let token := current stop tokens
  match token.kind with
  | .illegal => ⟨token, .illegalCharacter token.lexeme⟩
  | kind => ⟨token, .unexpected kind token.lexeme expected⟩

/-! ### Sums -/

/-- The number that a run of digits spells. -/
def decimal (digits : Bytes) : Nat := digits.foldl (fun n b => 10 * n + (b.toNat - 48)) 0

/-- Splits an optional sign off, and tells whether it is a minus. -/
def splitSign : Bytes → Bool × Bytes
  | [] => (false, [])
  | b :: rest =>
    if b = 45 then (true, rest) else if b = 43 then (false, rest) else (false, b :: rest)

/-- The number that a numeral spells: digits, and perhaps a sign in front of them. -/
def numeral? (lexeme : Bytes) : Option Int :=
  let (negative, digits) := splitSign lexeme
  if digits.isEmpty || !digits.all Token.isDigit then none
  else some (if negative then -(decimal digits : Int) else decimal digits)

/-- A number or a parameter. -/
def operand? (t : Token) : Option Operand :=
  match t.kind with
  | .number => (numeral? t.lexeme).map .literal
  | .parameter => some (.parameter t.text)
  | _ => none

/-- The fault of a token that is no operand. A number can be one that is no numeral, though scanning
does not find such numbers. -/
def misfit (t : Token) : Fault :=
  match t.kind with
  | .number => ⟨t, .malformedLiteral t.text⟩
  | _ => unexpected t [] .operand

/-- The terms of a sum, the sign of the first one having been read, and the span that they cover
together with `span`. -/
def terms (stop : Token) (negative : Bool) (span : Span) :
    (tokens : List Token) → Except Fault (Parsed (List Term × Span) tokens.length)
  | [] => .error (unexpected stop [] .operand)
  | t :: rest =>
    match operand? t with
    | none => .error (misfit t)
    | some operand =>
      let term : Term := ⟨negative, operand⟩
      let covered := span.extend t.span
      match rest with
      | [] => .ok ⟨([term], covered), [], by simp⟩
      | sign :: behind =>
        if sign.kind = .plus ∨ sign.kind = .minus then
          match terms stop (decide (sign.kind = .minus)) covered behind with
          | .error fault => .error fault
          | .ok more =>
            .ok ⟨(term :: more.value.1, more.value.2), more.rest, by
              have := more.rest_le; simp; omega⟩
        else .ok ⟨([term], covered), sign :: behind, by simp⟩

/-- A sum, which starts with the token ahead. -/
def arithmetic (stop : Token) :
    (tokens : List Token) → Except Fault (Parsed Arithmetic tokens.length)
  | [] => .error (unexpected stop [] .operand)
  | t :: rest =>
    if t.kind = .plus ∨ t.kind = .minus then
      match terms stop (decide (t.kind = .minus)) t.span rest with
      | .error fault => .error fault
      | .ok found =>
        .ok ⟨⟨true, found.value.1, found.value.2⟩, found.rest, by
          have := found.rest_le; simp; omega⟩
    else
      match terms stop false t.span (t :: rest) with
      | .error fault => .error fault
      | .ok found =>
        .ok ⟨⟨false, found.value.1, found.value.2⟩, found.rest, found.rest_le⟩

/-! ### Sequences, calls and arguments -/

/-- The three ways to read an argument. -/
inductive ArgumentForm where
  | sum
  | reference
  | sequence
  deriving DecidableEq, Repr

/-- The form of the argument ahead, told from its first two tokens. -/
def argumentForm? : List Token → Option ArgumentForm
  | [] => none
  | t :: rest =>
    match t.kind with
    | .plus | .minus | .number => some .sum
    | .command | .procedure => some .sequence
    | .parameter =>
      match kindAhead rest with
      | some .plus | some .minus => some .sum
      | some .comma | some .rightParen => some .reference
      | _ => some .sequence
    | _ => none

/-- The command that a token spells. -/
def commandOf (t : Token) : Command := ⟨t.lexeme.headD 0⟩

mutual
/-- A run of statements, and of parameters where these are allowed. It ends in front of the first
token that cannot start another one. -/
def sequence (stop : Token) (allowed : Bool) (tokens : List Token) :
    Except Fault (Parsed (List Element) tokens.length) :=
  match tokens with
  | [] => .ok ⟨[], [], Nat.le_refl _⟩
  | t :: rest =>
    match t.kind with
    | .command =>
      match sequence stop allowed rest with
      | .error fault => .error fault
      | .ok more =>
        .ok ⟨.command (commandOf t) t.span :: more.value, more.rest, by
          have := more.rest_le; simp; omega⟩
    | .procedure =>
      match call stop t rest with
      | .error fault => .error fault
      | .ok head =>
        match sequence stop allowed head.rest with
        | .error fault => .error fault
        | .ok more =>
          .ok ⟨head.value :: more.value, more.rest, by
            have := head.rest_le; have := more.rest_le; simp; omega⟩
    | .parameter =>
      if allowed then
        match sequence stop allowed rest with
        | .error fault => .error fault
        | .ok more =>
          .ok ⟨.parameter t.text t.span :: more.value, more.rest, by
            have := more.rest_le; simp; omega⟩
      else .ok ⟨[], t :: rest, Nat.le_refl _⟩
    | _ => .ok ⟨[], t :: rest, Nat.le_refl _⟩
termination_by 4 * tokens.length
decreasing_by
  all_goals try have := head.rest_le
  all_goals grind

/-- A call of the procedure that was named by the token before. -/
def call (stop name : Token) (tokens : List Token) : Except Fault (Parsed Element tokens.length) :=
  match tokens with
  | [] => .ok ⟨.call name.text [] name.span, [], Nat.le_refl _⟩
  | t :: rest =>
    if t.kind = .leftParen then
      match arguments stop rest with
      | .error fault => .error fault
      | .ok found =>
        .ok ⟨.call name.text found.value.1 (name.span.extend found.value.2), found.rest, by
          have := found.rest_le; simp; omega⟩
    else .ok ⟨.call name.text [] name.span, t :: rest, Nat.le_refl _⟩
termination_by 4 * tokens.length + 3

/-- The arguments of a call behind the left parenthesis, and the span of the right one. -/
def arguments (stop : Token) (tokens : List Token) :
    Except Fault (Parsed (List Argument × Span) tokens.length) :=
  match argument stop tokens with
  | .error fault => .error fault
  | .ok ⟨first, [], _⟩ => .error (unexpected stop [] (.token .rightParen))
  | .ok ⟨first, t :: rest, shorter⟩ =>
    if t.kind = .comma then
      match arguments stop rest with
      | .error fault => .error fault
      | .ok more =>
        .ok ⟨(first :: more.value.1, more.value.2), more.rest, by
          have := more.rest_le; simp at shorter; omega⟩
    else if t.kind = .rightParen then
      .ok ⟨([first], t.span), rest, by simp at shorter; omega⟩
    else .error (unexpected stop (t :: rest) (.token .rightParen))
termination_by 4 * tokens.length + 2

/-- An argument of a call. -/
def argument (stop : Token) (tokens : List Token) :
    Except Fault (Parsed Argument tokens.length) :=
  match argumentForm? tokens with
  | none => .error (unexpected stop tokens .argument)
  | some .sum =>
    match arithmetic stop tokens with
    | .error fault => .error fault
    | .ok found => .ok ⟨.arithmetic found.value, found.rest, found.rest_le⟩
  | some .reference =>
    match tokens with
    | [] => .error (unexpected stop [] .argument)
    | t :: rest => .ok ⟨.parameter t.text t.span, rest, by simp⟩
  | some .sequence =>
    match sequence stop true tokens with
    | .error fault => .error fault
    | .ok found =>
      .ok ⟨.quoted found.value (Element.cover found.value), found.rest, found.rest_le⟩
termination_by 4 * tokens.length + 1
end

/-! ### Definitions and the main block -/

/-- Whether a colon follows the parenthesis that closes the list ahead, `depth` parentheses being
open. The list has to end on its line. -/
def colonBehindList : Nat → List Token → Bool
  | _, [] => false
  | depth, t :: rest =>
    match t.kind with
    | .leftParen => colonBehindList (depth + 1) rest
    | .rightParen =>
      if depth = 1 then kindAhead rest == some .colon else colonBehindList (depth - 1) rest
    | .newline | .finish | .illegal => false
    | _ => colonBehindList depth rest

/-- Whether a definition is ahead: a procedure name, perhaps a parenthesised list, and a colon. -/
def definitionAhead : List Token → Bool
  | name :: next :: rest =>
    name.kind == .procedure
      && (next.kind == .colon || (next.kind == .leftParen && colonBehindList 1 rest))
  | _ => false

/-- The parameters of a definition behind the left parenthesis, up to and including the right one.
`before` holds the parameters that have been read. -/
def parameters (stop : Token) (procedure : String) (before : List String) :
    (tokens : List Token) → Except Fault (Parsed (List String) tokens.length)
  | [] => .error (unexpected stop [] (.token .parameter))
  | t :: rest =>
    if t.kind = .parameter then
      if t.text ∈ before then .error ⟨t, .duplicateParameter t.text procedure⟩
      else
        match rest with
        | [] => .error (unexpected stop [] (.token .rightParen))
        | next :: behind =>
          if next.kind = .comma then
            match parameters stop procedure (before ++ [t.text]) behind with
            | .error fault => .error fault
            | .ok found => .ok ⟨found.value, found.rest, by have := found.rest_le; simp; omega⟩
          else if next.kind = .rightParen then
            .ok ⟨before ++ [t.text], behind, by simp; omega⟩
          else .error (unexpected stop (next :: behind) (.token .rightParen))
    else .error (unexpected stop (t :: rest) (.token .parameter))

/-- The optional parameter list of a definition. -/
def parameterList (stop : Token) (procedure : String) (tokens : List Token) :
    Except Fault (Parsed (List String) tokens.length) :=
  match tokens with
  | [] => .ok ⟨[], [], Nat.le_refl _⟩
  | t :: rest =>
    if t.kind = .leftParen then
      match parameters stop procedure [] rest with
      | .error fault => .error fault
      | .ok found => .ok ⟨found.value, found.rest, by have := found.rest_le; simp; omega⟩
    else .ok ⟨[], t :: rest, Nat.le_refl _⟩

/-- A token of a given kind. -/
def expect (stop : Token) (kind : TokenKind) (tokens : List Token) :
    Except Fault (Parsed Token tokens.length) :=
  match tokens with
  | [] => .error (unexpected stop [] (.token kind))
  | t :: rest =>
    if t.kind = kind then .ok ⟨t, rest, by simp⟩
    else .error (unexpected stop (t :: rest) (.token kind))

/-- A definition of the procedure that was named by the token before. -/
def definition (stop name : Token) (tokens : List Token) :
    Except Fault (Parsed Definition tokens.length) :=
  match parameterList stop name.text tokens with
  | .error fault => .error fault
  | .ok params =>
    match expect stop .colon params.rest with
    | .error fault => .error fault
    | .ok colon =>
      match sequence stop true colon.rest with
      | .error fault => .error fault
      | .ok body =>
        match body.value.getLast? with
        | none => .error (unexpected stop body.rest .procedureBody)
        | some last =>
          match expect stop .newline body.rest with
          | .error fault => .error fault
          | .ok newline =>
            .ok ⟨⟨name.text, params.value, body.value, name.span.extend last.span⟩, newline.rest, by
              have := params.rest_le; have := colon.rest_le; have := body.rest_le
              have := newline.rest_le; omega⟩

/-- The definitions in front of the main block. -/
def definitions (stop : Token) (tokens : List Token) :
    Except Fault (Parsed (List Definition) tokens.length) :=
  match tokens with
  | [] => .ok ⟨[], [], Nat.le_refl _⟩
  | name :: rest =>
    if definitionAhead (name :: rest) then
      match definition stop name rest with
      | .error fault => .error fault
      | .ok found =>
        match definitions stop found.rest with
        | .error fault => .error fault
        | .ok more =>
          .ok ⟨found.value :: more.value, more.rest, by
            have := found.rest_le; have := more.rest_le; simp; omega⟩
    else .ok ⟨[], name :: rest, Nat.le_refl _⟩
termination_by tokens.length
decreasing_by have := found.rest_le; simp; omega

/-- A parameter outside of a definition is a fault. -/
def noParameter (tokens : List Token) : Except Fault Unit :=
  match tokens with
  | [] => .ok ()
  | t :: _ => if t.kind = .parameter then .error ⟨t, .parameterOutside t.text⟩ else .ok ()

/-- The main block, which ends with the text. -/
def mainBlock (stop : Token) (tokens : List Token) : Except Fault (List Element) :=
  match noParameter tokens with
  | .error fault => .error fault
  | .ok _ =>
    match sequence stop false tokens with
    | .error fault => .error fault
    | .ok found =>
      if found.value.isEmpty then .error (unexpected stop found.rest .mainBlock)
      else
        match noParameter found.rest with
        | .error fault => .error fault
        | .ok _ =>
          if (current stop found.rest).kind = .finish then .ok found.value
          else .error (unexpected stop found.rest (.token .finish))

end Parse

namespace Program

/-- The program that a scanned text spells. -/
def ofScan (s : Scan) : Except Fault Program :=
  match Parse.definitions s.last s.tokens with
  | .error fault => .error fault
  | .ok found =>
    match Parse.mainBlock s.last found.rest with
    | .error fault => .error fault
    | .ok main => .ok ⟨found.value, main⟩

/-- Where the trimmed text is found in its source: at the first place at which it occurs, or at the
end of a source that is all white space. -/
def lead (source : Bytes) : Nat :=
  let trimmed := Bytes.trim source
  if trimmed.isEmpty then source.length else (Bytes.firstIndex? trimmed source).getD 0

/-- Reads a program from its source text. White space around it is ignored. -/
def parse (source : Bytes) : Except SyntaxError Program :=
  match ofScan (Token.scan (Bytes.trim source)) with
  | .error fault => .error (SyntaxError.ofFault source (lead source) fault)
  | .ok program => .ok program

end Program

end RobotGolf
