import RobotGolf.Yaml.Token
import Std.Data.HashMap
/-!
# Streams of tokens

The tokens of a text are delivered one by one, in the order of the text. What starts a token may
turn out to be a key only by the colon behind it; such a token is held back until that is known. It
is known at the end of the line at the latest, and 1024 characters behind the start of the token:
keys are short. Inside of brackets there is a place for one such token at every level.

A colon behind a token that is held back puts the token for a key in front of that token, and the
start of a mapping as well if the key is indented deeper than what is around it.
-/

namespace RobotGolf.Yaml

/-- What may turn out to be a key: the number of its token among all tokens, and where it starts. A
key is required if it stands at the indentation of the block around it. -/
structure Candidate where
  possible : Bool
  required : Bool
  number : Nat
  index : Nat
  line : Nat
  column : Nat

/-- The tokens of a text, as far as they have been read. -/
structure TokenStream where
  source : Source
  /-- Tokens that have been read, but not been delivered. -/
  queue : List Token
  /-- Number of tokens delivered. -/
  delivered : Nat
  /-- Candidates for keys, one for every level of brackets and one outside of them. -/
  candidates : Array Candidate
  /-- Tokens that are held back, by number, with the level of their candidate. -/
  held : Std.HashMap Nat Nat
  /-- Whether a key may start here. -/
  keyAllowed : Bool
  /-- The column of the innermost block, and of the blocks around it. -/
  indent : Int
  outerIndents : List Int

/-- Reading tokens. -/
abbrev Lexing := StateT TokenStream (Except Flaw)

namespace TokenStream

/-- The tokens of a text before any has been read. -/
def ofBytes (text : Bytes) : TokenStream where
  source := Source.ofBytes text
  queue := []
  delivered := 0
  candidates := #[⟨false, false, 0, 0, 0, 0⟩]
  held := ∅
  keyAllowed := true
  indent := -1
  outerIndents := []

/-- How many brackets are open. -/
def level (t : TokenStream) : Nat := t.candidates.size - 1

/-- The number that the next token gets. -/
def nextNumber (t : TokenStream) : Nat := t.delivered + t.queue.length

/-- The deepest that brackets and blocks may lie inside of each other. -/
def maxDepth : Nat := 10000

/-- Changes the candidate of a level. -/
def setCandidate (t : TokenStream) (level : Nat) (c : Candidate) : TokenStream :=
  { t with candidates := t.candidates.setIfInBounds level c }

/-- Drops the candidate of a level. -/
def dropCandidate (t : TokenStream) (level : Nat) (c : Candidate) : TokenStream :=
  { t.setCandidate level { c with possible := false } with held := t.held.erase c.number }

/-- Adds a token. -/
def push (t : TokenStream) (kind : TokenKind) (line : Nat) : TokenStream :=
  { t with queue := t.queue ++ [⟨kind, line⟩] }

/-- Puts a token in front of the one with a given number, or last if that has been delivered. -/
def insert (t : TokenStream) (number : Nat) (kind : TokenKind) (line : Nat) : TokenStream :=
  if number < t.delivered then t.push kind line
  else
    let (front, back) := t.queue.splitAt (number - t.delivered)
    { t with queue := front ++ ⟨kind, line⟩ :: back }

/-- Ends the blocks that are indented deeper than a column. -/
def unrollTo (column : Int) (line : Nat) : List Int → TokenStream → TokenStream
  | [], t => t
  | outer :: rest, t =>
    if column < t.indent then
      unrollTo column line rest { t.push .blockEnd line with indent := outer, outerIndents := rest }
    else t

/-- Ends the blocks that are indented deeper than a column. There are none inside of brackets. -/
def unroll (t : TokenStream) (column : Int) : TokenStream :=
  if t.level = 0 then unrollTo column t.source.line t.outerIndents t else t

end TokenStream

namespace Lexing

open TokenStream

/-- Reads characters. -/
def read {α : Type} (reading : Reading α) : Lexing α := fun t =>
  match reading t.source with
  | .error flaw => .error flaw
  | .ok (a, s) => .ok (a, { t with source := s })

/-- Stops at a problem with a token, noticed at the next character. -/
def fail {α : Type} (p : Problem) : Lexing α := read (Reading.fail p)

/-! ### Candidates -/

/-- Whether the candidate of a level may still be a key. A candidate that is too far away is
dropped, and must not have been required. -/
def isCandidate (level : Nat) : Lexing Bool := do
  let t ← get
  match t.candidates[level]? with
  | none => return false
  | some c =>
    if !c.possible then return false
    if c.line < t.source.line || c.index + 1024 < t.source.index then
      if c.required then fail .missingColon
      set (t.dropCandidate level c)
      return false
    else return true

/-- Drops the innermost candidate, which must not have been required. -/
def forget : Lexing Unit := do
  let t ← get
  match t.candidates[t.level]? with
  | none => return ()
  | some c =>
    if c.possible then
      if c.required then fail .missingColon
      set (t.dropCandidate t.level c)

/-- Makes the next token a candidate, if a key may start here. -/
def remember : Lexing Unit := do
  if (← get).keyAllowed then
    forget
    modify fun t =>
      let s := t.source
      let required := t.level = 0 ∧ t.indent = s.column
      let c : Candidate := ⟨true, required, t.nextNumber, s.index, s.line, s.column⟩
      { t.setCandidate t.level c with held := t.held.insert t.nextNumber t.level }

/-- Says whether a key may start behind the next token. -/
def allowKey (allowed : Bool) : Lexing Unit := modify fun t => { t with keyAllowed := allowed }

/-! ### Blocks -/

/-- Starts a block at a column, if that is deeper than what is around it, in front of the token with
a given number. -/
def roll (column : Nat) (number : Nat) (kind : TokenKind) (line : Nat) : Lexing Unit := do
  let t ← get
  if t.level = 0 && t.indent < column then
    if maxDepth < t.outerIndents.length + 1 then fail (.tooDeep maxDepth)
    set { t.insert number kind line with
      indent := (column : Int)
      outerIndents := t.indent :: t.outerIndents }

/-- Starts a block at the present column, if that is deeper than what is around it. -/
def rollHere (kind : TokenKind) : Lexing Unit := do
  let t ← get
  roll t.source.column t.nextNumber kind t.source.line

/-! ### One token -/

/-- Adds a token that is as long as it takes to read it. -/
def pushRead (reading : Reading TokenKind) : Lexing Unit := do
  let line := (← get).source.line
  let kind ← read reading
  modify (·.push kind line)

/-- Adds a token of `n` characters. -/
def pushMark (kind : TokenKind) (n : Nat) : Lexing Unit := pushRead do
  Reading.skipMany n
  return kind

/-- Adds the token for the end of the text. It stands in a line of its own. -/
def pushEnd : Lexing Unit := do
  modify fun t =>
    let s := t.source
    ({ t with source := if s.column = 0 then s else s.newLine }).unroll (-1)
  forget
  allowKey false
  pushMark .streamEnd 0

/-- Adds a directive. -/
def pushDirective : Lexing Unit := do
  modify (·.unroll (-1))
  forget
  allowKey false
  pushRead Reading.takeDirective

/-- Adds a document marker. -/
def pushMarker (kind : TokenKind) : Lexing Unit := do
  modify (·.unroll (-1))
  forget
  allowKey false
  pushMark kind 3

/-- Adds an opening bracket. -/
def pushOpening (kind : TokenKind) : Lexing Unit := do
  remember
  let t ← get
  let s := t.source
  let c : Candidate := ⟨false, false, t.nextNumber, s.index, s.line, s.column⟩
  if maxDepth < t.level + 1 then fail (.tooDeep maxDepth)
  set { t with candidates := t.candidates.push c }
  allowKey true
  pushMark kind 1

/-- Adds a closing bracket. The number that the candidate inside of the brackets has, be it possible
or not, is not held back any longer. -/
def pushClosing (kind : TokenKind) : Lexing Unit := do
  forget
  modify fun t =>
    match t.candidates[t.level]? with
    | some c =>
      if 0 < t.level then
        { t with held := t.held.erase c.number, candidates := t.candidates.pop }
      else t
    | none => t
  allowKey false
  pushMark kind 1

/-- Adds a comma. -/
def pushFlowEntry : Lexing Unit := do
  forget
  allowKey true
  pushMark .flowEntry 1

/-- Adds the mark of an entry. -/
def pushBlockEntry : Lexing Unit := do
  let t ← get
  if t.level = 0 then
    if !t.keyAllowed then fail .entryNotAllowed
    rollHere .blockSequenceStart
  forget
  allowKey true
  pushMark .blockEntry 1

/-- Adds the mark of a key. -/
def pushKey : Lexing Unit := do
  let t ← get
  if t.level = 0 then
    if !t.keyAllowed then fail .keyNotAllowed
    rollHere .blockMappingStart
  forget
  allowKey (t.level = 0)
  pushMark .key 1

/-- Adds the mark of a value. If there is a candidate, then that is the key. -/
def pushValue : Lexing Unit := do
  let level := (← get).level
  if ← isCandidate level then
    let t ← get
    match t.candidates[level]? with
    | none => fail .unknown
    | some c =>
      set (t.insert c.number .key c.line)
      roll c.column c.number .blockMappingStart c.line
      modify (·.dropCandidate level c)
      allowKey false
  else
    let t ← get
    if level = 0 then
      if !t.keyAllowed then fail .valueNotAllowed
      rollHere .blockMappingStart
    allowKey (level = 0)
  pushMark .value 1

/-- Adds the name of a node, or a tag. -/
def pushProperty (reading : Reading TokenKind) : Lexing Unit := do
  remember
  allowKey false
  pushRead reading

/-- Adds a block of lines. -/
def pushBlock (literal : Bool) : Lexing Unit := do
  forget
  allowKey true
  let indent := (← get).indent
  pushRead do
    return .scalar (← Reading.takeBlock literal indent) false

/-- Adds a quoted scalar. -/
def pushQuoted (quote : Char) : Lexing Unit := do
  remember
  allowKey false
  pushRead do
    return .scalar (← Reading.takeQuoted quote) false

/-- Adds a plain scalar. A key may start behind it if that is in another line. -/
def pushPlain : Lexing Unit := do
  remember
  allowKey false
  let t ← get
  let line := t.source.line
  let (text, broken) ← read (Reading.takePlain (0 < t.level) t.indent)
  modify (·.push (.scalar text true) line)
  if broken then allowKey true

/-- Whether a plain scalar starts with a character, in front of another one. -/
def startsPlain (inFlow : Bool) (c following : Char) : Bool :=
  if c == '-' then !isBlank following
  else if c == '?' || c == ':' then !inFlow && !isGap following
  else !(isGap c || ",[]\x7b\x7d#&*!|>\x27\x22%@\x60".toList.contains c)

/-- Passes at most `n` lines with nothing in them but blanks and comments, and what stands in front
of the next token. Tabs do not count where a key may start. Where the stock of characters started
with a byte order mark, the first character of every line is passed. -/
def skipToToken : (n : Nat) → Lexing Unit
  | 0 => return ()
  | n + 1 => do
    read (Reading.demand 1)
    let s := (← get).source
    if s.column = 0 && s.marked then read Reading.skip
    read (Reading.demand 1)
    let t ← get
    let tabs := 0 < t.level || !t.keyAllowed
    read (Reading.skipWhile fun c => c == ' ' || (tabs && c == '\t'))
    read Reading.skipComment
    if isBreak (← read Reading.peek) then
      read (Reading.demand 2)
      read Reading.skipBreak
      if t.level = 0 then allowKey true
      skipToToken n

/-- Adds the next token, and the tokens in front of it that are told by indentation. -/
def readToken : Lexing Unit := do
  read (Reading.demand 1)
  skipToToken (← get).source.bound
  modify fun t => t.unroll t.source.column
  read (Reading.demand 4)
  let c ← read Reading.peek
  let following ← read (Reading.peekAt 1)
  let t ← get
  let inFlow := 0 < t.level
  if c == ending then pushEnd
  else if t.source.column = 0 && c == '%' then pushDirective
  else if ← read Reading.atMarker then
    pushMarker (if c == '-' then .documentStart else .documentEnd)
  else if c == '[' then pushOpening .flowSequenceStart
  else if c == '\x7b' then pushOpening .flowMappingStart
  else if c == ']' then pushClosing .flowSequenceEnd
  else if c == '\x7d' then pushClosing .flowMappingEnd
  else if c == ',' then pushFlowEntry
  else if c == '-' && isGap following then pushBlockEntry
  else if c == '?' && (inFlow || isGap following) then pushKey
  else if c == ':' && (inFlow || isGap following) then pushValue
  else if c == '*' then pushProperty (do return .alias (← Reading.takeName))
  else if c == '&' then pushProperty (do return .anchor (← Reading.takeName))
  else if c == '!' then pushProperty Reading.takeTag
  else if c == '|' && !inFlow then pushBlock true
  else if c == '>' && !inFlow then pushBlock false
  else if c == Reading.singleQuote || c == Reading.doubleQuote then pushQuoted c
  else if startsPlain inFlow c following then pushPlain
  else fail .noToken

/-! ### Delivery -/

/-- Reads at most `n` tokens, until there is one that is not held back. -/
def settle : (n : Nat) → Lexing Unit
  | 0 => fail .unknown
  | n + 1 => do
    let t ← get
    let ready ←
      if t.queue.isEmpty then pure false
      else
        match t.held[t.delivered]? with
        | none => pure true
        | some level => (! ·) <$> isCandidate level
    if !ready then
      readToken
      settle n

/-- The next token. -/
def peek : Lexing Token := do
  settle ((← get).source.bound + 2)
  match (← get).queue with
  | [] => fail .unknown
  | token :: _ => return token

/-- Delivers the next token. -/
def advance : Lexing Unit :=
  modify fun t => { t with queue := t.queue.tail, delivered := t.delivered + 1 }

end Lexing

end RobotGolf.Yaml
