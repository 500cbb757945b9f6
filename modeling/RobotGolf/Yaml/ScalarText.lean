import RobotGolf.Yaml.Source
/-!
# The texts of scalars

A scalar is written plainly, in single or double quotes, or as a block of lines. Where a plain or
quoted scalar goes on in another line, the line end is folded: it counts as a space, unless there
are more line ends, which then count instead of it. A block is literal, which keeps its lines, or
folded; a block may say how deep it is indented and what is to be done with the line ends at its
end.
-/

namespace RobotGolf.Yaml

/-! ### Between words -/

/-- What stands between two words of a scalar: blanks, or line ends. A first line end that is
escaped does not count, but what follows it is taken to be in another line. -/
structure Gap where
  escaped : Bool
  blanks : List Char
  breaks : List Char
  deriving DecidableEq, Repr

namespace Gap

/-- Nothing between two words. -/
def none : Gap := ⟨false, [], []⟩

/-- Whether the second word is in another line. -/
def isBroken (g : Gap) : Bool := g.escaped || !g.breaks.isEmpty

/-- What counts between the words. -/
def folded (g : Gap) : List Char :=
  if g.escaped then g.breaks
  else
    match g.breaks with
    | [] => g.blanks
    | ['\n'] => [' ']
    | '\n' :: more => more
    | all => all

end Gap

namespace Reading

/-- Whether the next characters are a document marker. -/
def atMarker : Reading Bool := do
  if (← column) ≠ 0 then return false
  let marker := [← peek, ← peekAt 1, ← peekAt 2]
  return (marker == ['-', '-', '-'] || marker == ['.', '.', '.']) && isGap (← peekAt 3)

/-- Takes at most `n` blanks and line ends, and adds them to a gap. In a line that is not the first
one, no tab may stand in front of the column `margin`. -/
def takeGap (margin : Int) : (n : Nat) → Gap → Reading Gap
  | 0, gap => return gap
  | n + 1, gap => do
    let c ← peek
    if isBlank c then
      if gap.isBroken && c == '\t' && (← column) < margin then fail .tabViolatesIndentation
      skip
      demand 1
      takeGap margin n (if gap.isBroken then gap else { gap with blanks := gap.blanks ++ [c] })
    else if isBreak c then
      demand 2
      let lineEnd ← takeBreak
      demand 1
      takeGap margin n { gap with blanks := [], breaks := gap.breaks ++ lineEnd }
    else return gap

/-! ### Plain scalars -/

/-- The characters that end a plain scalar inside of brackets. -/
def isBracketMark (c : Char) : Bool := [',', '?', '[', ']', '\x7b', '\x7d'].contains c

/-- Takes a word of a plain scalar. A text, its latest character first, and the gap behind it go in
front of the word; the gap is left if there is no word. -/
def takePlainWord (inFlow : Bool) : (n : Nat) → List Char → Gap → Reading (List Char × Gap)
  | 0, text, gap => return (text, gap)
  | n + 1, text, gap => do
    let c ← peek
    if isGap c || (c == ':' && isGap (← peekAt 1)) || (inFlow && isBracketMark c) then
      return (text, gap)
    skip
    demand 2
    takePlainWord inFlow n (c :: (gap.folded.reverse ++ text)) Gap.none

/-- Takes the words of a plain scalar, behind a text and a gap as above. -/
def takePlainWords (inFlow : Bool) (margin : Int) :
    (n : Nat) → List Char → Gap → Reading (List Char × Gap)
  | 0, text, gap => return (text, gap)
  | n + 1, text, gap => do
    demand 4
    if ← atMarker then return (text, gap)
    if (← peek) == '#' then return (text, gap)
    let (text, gap) ← takePlainWord inFlow (← bound) text gap
    let c ← peek
    if !(isBlank c || isBreak c) then return (text, gap)
    demand 1
    let gap ← takeGap margin (← bound) gap
    if !inFlow && (← column) < margin then return (text, gap)
    takePlainWords inFlow margin n text gap

/-- Takes a plain scalar whose lines are indented by more than `indent`, and tells whether it ends
in front of another line. -/
def takePlain (inFlow : Bool) (indent : Int) : Reading (String × Bool) := do
  let (text, gap) ← takePlainWords inFlow (indent + 1) (← bound) [] Gap.none
  return (String.ofList text.reverse, gap.isBroken)

/-! ### Quoted scalars -/

/-- The single quote. -/
def singleQuote : Char := '\x27'

/-- The double quote. -/
def doubleQuote : Char := '\x22'

/-- The character that starts an escape in double quotes. -/
def backslash : Char := '\x5c'

/-- Escapes of one letter, with what they stand for. -/
def letterEscapes : List (Char × Char) :=
  [('0', '\x00'), ('a', '\x07'), ('b', '\x08'), ('t', '\t'), ('\t', '\t'), ('n', '\n'),
    ('v', '\x0b'), ('f', '\x0c'), ('r', '\r'), ('e', '\x1b'), (' ', ' '),
    (doubleQuote, doubleQuote), (singleQuote, singleQuote), (backslash, backslash),
    ('N', '\u0085'), ('_', '\u00A0'), ('L', '\u2028'), ('P', '\u2029')]

/-- Escapes by number, with the number of their digits. -/
def numberEscapes : List (Char × Nat) := [('x', 2), ('u', 4), ('U', 8)]

/-- The value of a hexadecimal digit. -/
def hexDigit? (c : Char) : Option Nat :=
  if c.isDigit then some (c.toNat - 48)
  else if 'a' ≤ c ∧ c ≤ 'f' then some (c.toNat - 87)
  else if 'A' ≤ c ∧ c ≤ 'F' then some (c.toNat - 55)
  else Option.none

/-- The number that is written with the next `width` digits, behind others of a given value. Fewer
digits are a problem. -/
def takeHex (p : Problem) : (width : Nat) → (before : Nat) → Reading Nat
  | 0, before => return before
  | width + 1, before => do
    match hexDigit? (← peek) with
    | Option.none => fail p
    | some d =>
      skip
      takeHex p width (16 * before + d)

/-- Takes an escape. -/
def takeEscape : Reading Char := do
  let letter ← peekAt 1
  match letterEscapes.lookup letter, numberEscapes.lookup letter with
  | some c, _ =>
    skipMany 2
    return c
  | Option.none, some width =>
    skipMany 2
    demand width
    let n ← takeHex .missingHex width 0
    if (0xD800 ≤ n && n ≤ 0xDFFF) || 0x10FFFF < n then fail .invalidEscape
    return Char.ofNat n
  | Option.none, Option.none => fail .unknownEscape

/-- Takes a word of a quoted scalar behind a text, and tells whether an escaped line end follows
it. -/
def takeQuotedWord (quote : Char) : (n : Nat) → List Char → Reading (List Char × Bool)
  | 0, text => return (text, false)
  | n + 1, text => do
    let c ← peek
    let following ← peekAt 1
    if isGap c then return (text, false)
    else if c == quote then
      if quote == singleQuote && following == singleQuote then
        skipMany 2
        demand 2
        takeQuotedWord quote n (c :: text)
      else return (text, false)
    else if quote == doubleQuote && c == backslash then
      if isBreak following then
        demand 3
        skip
        skipBreak
        return (text, true)
      else
        let meant ← takeEscape
        demand 2
        takeQuotedWord quote n (meant :: text)
    else
      skip
      demand 2
      takeQuotedWord quote n (c :: text)

/-- Takes the words of a quoted scalar behind a text, up to the closing quote. -/
def takeQuotedWords (quote : Char) : (n : Nat) → List Char → Reading (List Char)
  | 0, text => return text
  | n + 1, text => do
    demand 4
    if ← atMarker then fail .strayMarker
    if (← peek) == ending then fail .strayEnd
    let (text, escaped) ← takeQuotedWord quote (← bound) text
    demand 1
    if (← peek) == quote then
      skip
      return text
    let gap ← takeGap 0 (← bound) { Gap.none with escaped := escaped }
    takeQuotedWords quote n (gap.folded.reverse ++ text)

/-- Takes a quoted scalar. -/
def takeQuoted (quote : Char) : Reading String := do
  skip
  let text ← takeQuotedWords quote (← bound) []
  return String.ofList text.reverse

/-! ### Blocks -/

/-- What is done with the line ends at the end of a block: all are dropped, one is kept, or all are
kept. -/
inductive Chomping where
  | strip
  | clip
  | keep
  deriving DecidableEq, Repr

/-- The chomping that a character asks for. -/
def Chomping.ofChar? : Char → Option Chomping
  | '-' => some strip
  | '+' => some keep
  | _ => Option.none

/-- Takes the depth that a block is said to have. It is not zero. -/
def takeDepth : Reading Nat := do
  let c ← peek
  if c == '0' then fail .zeroDepth
  skip
  return c.toNat - 48

/-- Takes what a block says about itself: chomping and depth in any order, both optional. -/
def takeBlockHeader : Reading (Chomping × Option Nat) := do
  demand 1
  let c ← peek
  match Chomping.ofChar? c with
  | some chomping =>
    skip
    demand 1
    if (← peek).isDigit then return (chomping, some (← takeDepth))
    else return (chomping, Option.none)
  | Option.none =>
    if c.isDigit then
      let depth ← takeDepth
      demand 1
      match Chomping.ofChar? (← peek) with
      | some chomping =>
        skip
        return (chomping, some depth)
      | Option.none => return (.clip, some depth)
    else return (.clip, Option.none)

/-- Passes spaces in front of the column `margin`, or all if there is no margin. -/
def skipIndentation (margin : Option Nat) : (n : Nat) → Reading Unit
  | 0 => return ()
  | n + 1 => do
    if margin.all ((← column) < ·) && (← peek) == ' ' then
      skip
      demand 1
      skipIndentation margin n

/-- Takes the line ends of empty lines, up to the text of a line that is not empty. The result lists
them with the deepest indentation; no tab may stand in the indentation. -/
def takeEmptyLines (margin : Option Nat) :
    (n : Nat) → List Char → Nat → Reading (List Char × Nat)
  | 0, breaks, deepest => return (breaks, deepest)
  | n + 1, breaks, deepest => do
    demand 1
    skipIndentation margin (← bound)
    let deepest := max deepest (← column)
    let c ← peek
    if margin.all ((← column) < ·) && c == '\t' then fail .tabInIndentation
    if isBreak c then
      demand 2
      let lineEnd ← takeBreak
      takeEmptyLines margin n (breaks ++ lineEnd) deepest
    else return (breaks, deepest)

/-- The lines of a block that have been taken: their text, its latest character first; the end of
the last line; the ends of the empty lines behind it; and whether the last line starts with a blank.
-/
structure BlockLines where
  text : List Char
  lineEnd : List Char
  empty : List Char
  indented : Bool

/-- Starts another line of a block, `indented` telling whether it starts with a blank. In a folded
block, the line ends between two lines that do not start with a blank are folded. -/
def BlockLines.join (lines : BlockLines) (literal indented : Bool) : List Char :=
  let joint :=
    if !literal && !lines.indented && !indented && lines.lineEnd == ['\n'] then
      if lines.empty.isEmpty then [' '] else []
    else lines.lineEnd
  lines.empty.reverse ++ (joint.reverse ++ lines.text)

/-- Takes the lines of a block with a given indentation. -/
def takeBlockLines (literal : Bool) (margin : Nat) : (n : Nat) → BlockLines → Reading BlockLines
  | 0, lines => return lines
  | n + 1, lines => do
    let c ← peek
    if (← column) ≠ margin || c == ending then return lines
    let indented := isBlank c
    let text ← takeOnto (fun c => !isBreakOrEnd c) (← bound) (lines.join literal indented)
    demand 2
    let lineEnd ← takeBreak
    let (empty, _) ← takeEmptyLines (some margin) (← bound) [] 0
    takeBlockLines literal margin n ⟨text, lineEnd, empty, indented⟩

/-- Takes a block, inside of what is indented by `indent`. A block that does not say how deep it is
indented is indented like its first line that is not empty, and at least by one more than what is
around it. -/
def takeBlock (literal : Bool) (indent : Int) : Reading String := do
  skip
  let (chomping, depth) ← takeBlockHeader
  finishLine
  let given := depth.map fun d => (max indent 0).toNat + d
  let (empty, deepest) ← takeEmptyLines given (← bound) [] 0
  let margin := given.getD (max deepest (max (indent + 1).toNat 1))
  demand 1
  let lines ← takeBlockLines literal margin (← bound) ⟨[], [], empty, false⟩
  let text := lines.text.reverse
  match chomping with
  | .strip => return String.ofList text
  | .clip => return String.ofList (text ++ lines.lineEnd)
  | .keep => return String.ofList (text ++ lines.lineEnd ++ lines.empty)

end Reading

end RobotGolf.Yaml
