import RobotGolf.Text.Numeric
/-!
# Keys

Orders are typed, and what is typed is more than characters: some control characters move the cursor
in the line, change the line or recall earlier lines. A few keys are sent as several characters, of
which the first one is the escape.
-/

namespace RobotGolf.Console

/-- What can be typed. `stop` is what is typed at the end of an input. -/
inductive Key where
  | insert (c : Char)
  | lineStart
  | lineEnd
  | back
  | forward
  | wordBack
  | wordForward
  | backspace
  | delete
  | eraseWord
  | deleteWord
  | killFront
  | kill
  | yank
  | transpose
  | previous
  | next
  | search
  | clearScreen
  | idle
  | enter
  | interrupt
  | stop
  deriving DecidableEq, Repr

namespace Key

/-- The control characters that are keys of their own. -/
def controls : List (Nat × Key) :=
  [(0, stop), (1, lineStart), (2, back), (3, interrupt), (4, delete), (5, lineEnd), (6, forward),
    (7, idle), (8, backspace), (10, enter), (11, kill), (12, clearScreen), (13, enter), (14, next),
    (16, previous), (18, search), (19, search), (20, transpose), (21, killFront), (23, eraseWord),
    (25, yank), (26, idle), (127, backspace)]

/-- The key for a character. -/
def ofChar (c : Char) : Key := (controls.lookup c.toNat).getD (insert c)

/-- The character that starts the keys of several characters. -/
def escape : Char := '\x1b'

/-- The keys that are sent as an escape and one more character. -/
def escaped : List (Char × Key) :=
  [('b', wordBack), ('f', wordForward), ('d', deleteWord), ('\x7f', eraseWord),
    ('\x14', insert '\uFFFD')]

/-- The keys that are sent as an escape, a bracket, parameters and a character. -/
def bracketed : List (Char × Key) :=
  [('D', back), ('C', forward), ('A', previous), ('B', next), ('H', lineStart), ('F', lineEnd)]

/-- Whether a character is a parameter of a key. -/
def isParameter (c : Char) : Bool := c == ';' || isNumeric c

/-- The key behind an escape and a bracket, with what follows it. Most are not known. -/
def takeBracketed (cs : List Char) : Option Key × List Char :=
  match cs.dropWhile isParameter with
  | [] => (none, [])
  | '~' :: rest => (if cs.takeWhile isParameter = ['3'] then some delete else none, rest)
  | c :: rest => (bracketed.lookup c, rest)

/-- The keys for at most `n` characters. -/
def ofCharsUpTo : (n : Nat) → List Char → List Key
  | 0, _ => []
  | _, [] => []
  | n + 1, c :: rest =>
    if c ≠ escape then ofChar c :: ofCharsUpTo n rest
    else
      match rest with
      | [] => []
      | '[' :: parameters =>
        let (key, behind) := takeBracketed parameters
        key.toList ++ ofCharsUpTo n behind
      | 'O' :: 'H' :: behind => lineStart :: ofCharsUpTo n behind
      | 'O' :: 'F' :: behind => lineEnd :: ofCharsUpTo n behind
      | d :: behind =>
        if d = escape then ofCharsUpTo n rest
        else (escaped.lookup d).getD (ofChar d) :: ofCharsUpTo n behind

/-- The keys for some characters. -/
def ofChars (cs : List Char) : List Key := ofCharsUpTo cs.length cs

/-- The keys for a whole input. At its end, whatever stands in the line is entered. -/
def ofInput (cs : List Char) : List Key := ofChars cs ++ [stop, stop]

end Key

end RobotGolf.Console
