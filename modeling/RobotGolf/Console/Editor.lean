import RobotGolf.Console.History
import RobotGolf.Console.Key
/-!
# Editing a line

A line is edited with a cursor in it. Text that is killed can be put back elsewhere. When two
characters are to change places and there is only one, the cursor moves on all the same. It may then
be behind the end of the line, where most keys make the program break off.
-/

namespace RobotGolf.Console

/-- A line that is being edited, and the number of its characters in front of the cursor. -/
structure Line where
  text : List Char
  cursor : Nat
  deriving DecidableEq, Repr

namespace Line

/-- A line with nothing in it. -/
def empty : Line := ⟨[], 0⟩

/-- A line with the cursor behind its text. -/
def ofText (text : List Char) : Line := ⟨text, text.length⟩

/-- Whether the cursor is in the line. -/
def isSound (l : Line) : Bool := l.cursor ≤ l.text.length

/-- The characters in front of the cursor. -/
def front (l : Line) : List Char := l.text.take l.cursor

/-- The characters behind the cursor. -/
def behind (l : Line) : List Char := l.text.drop l.cursor

/-- Inserts some characters. -/
def insert (l : Line) (cs : List Char) : Line :=
  ⟨l.front ++ cs ++ l.behind, l.cursor + cs.length⟩

/-! ### Words -/

/-- The characters of words. -/
def isWordChar (c : Char) : Bool := c.isAlphanum

/-- Whether a word starts at a place behind the first character. -/
def startsWord (l : Line) (i : Nat) : Bool :=
  match i with
  | 0 => false
  | j + 1 => l.text[j + 1]?.any isWordChar && !l.text[j]?.any isWordChar

/-- The place where the word in front of the cursor starts. -/
def wordStart? (l : Line) : Option Nat := (List.range l.cursor).reverse.find? l.startsWord

/-- The first place from a given one on where a word starts. -/
def wordStartFrom? (l : Line) (i : Nat) : Option Nat :=
  (List.range l.text.length).find? fun j => i ≤ j && l.startsWord j

/-! ### Changing places -/

/-- Swaps the characters around the cursor, or the last two, and moves on. -/
def transpose (l : Line) : Line :=
  if l.text.length = 1 then { l with cursor := l.cursor + 1 }
  else
    let i := if l.cursor = 0 then 1 else min l.cursor (l.text.length - 1)
    match l.text.drop (i - 1) with
    | a :: b :: rest => ⟨l.text.take (i - 1) ++ b :: a :: rest, i + 1⟩
    | _ => l

end Line

/-- What is being edited: a line, the text that was killed last, and earlier lines. -/
structure Editor where
  line : Line
  killed : List Char
  history : History

/-- What comes of a key: the line changes and something may be sent to the terminal, a line is
entered, the input ends, or the program breaks off. -/
inductive Press where
  | edit (e : Editor) (sent : String)
  | enter (line : List Char) (e : Editor)
  | quit
  | crash

namespace Editor

/-- An editor before anything has been typed. -/
def empty : Editor := ⟨Line.empty, [], History.empty⟩

/-- The character that makes a terminal ring. -/
def bell : String := "\x07"

/-- The sequence that moves the cursor of a terminal to its first place. -/
def home : String := "\x1b[H"

/-- Goes on with another line. -/
def become (e : Editor) (l : Line) : Press := .edit { e with line := l } ""

/-- Goes on with another line, some of the old one having been killed. -/
def killing (e : Editor) (l : Line) (killed : List Char) : Press :=
  .edit { e with line := l, killed := killed } ""

/-- Goes on with the same line. -/
def keep (e : Editor) : Press := .edit e ""

/-- Rings. -/
def ring (e : Editor) : Press := .edit e bell

/-- Kills the text behind the cursor. -/
def kill (e : Editor) : Press := e.killing { e.line with text := e.line.front } e.line.behind

/-- Kills the text in front of the cursor. -/
def killFront (e : Editor) : Press :=
  if e.line.cursor = 0 then e.keep else e.killing ⟨e.line.behind, 0⟩ e.line.front

/-- Kills the word in front of the cursor. If it starts the line, all goes and nothing is kept. -/
def eraseWord (e : Editor) : Press :=
  if e.line.cursor = 0 then e.keep
  else
    match e.line.wordStart? with
    | none => e.become Line.empty
    | some i => e.killing ⟨e.line.text.take i ++ e.line.behind, i⟩ (e.line.front.drop i)

/-- Kills the rest of the word at the cursor, or the next word, up to the character in front of the
word behind it. -/
def deleteWord (e : Editor) : Press :=
  let l := e.line
  let start := l.cursor + (l.behind.takeWhile fun c => !Line.isWordChar c).length
  if l.behind.isEmpty then e.keep
  else
    match l.wordStartFrom? (start + 1) with
    | none => e.kill
    | some i =>
      e.killing { l with text := l.front ++ l.text.drop (i - 1) }
        (l.behind.take (i - 1 - l.cursor))

/-- Deletes the character in front of the cursor. In an empty line there is none. -/
def backspace (e : Editor) : Press :=
  let l := e.line
  if l.text.isEmpty then e.ring
  else if l.cursor = 0 then e.keep
  else e.become ⟨l.front.dropLast ++ l.behind, l.cursor - 1⟩

/-- Kills the character behind the cursor. -/
def delete (e : Editor) : Press :=
  match e.line.behind with
  | [] => e.ring
  | c :: rest => e.killing { e.line with text := e.line.front ++ rest } [c]

/-- Recalls another line, if there is one. -/
def revisit (e : Editor) : Option (List Char × History) → Press
  | none => e.ring
  | some (text, h) => .edit { e with line := Line.ofText text, history := h } ""

/-- Enters the line. -/
def enter (e : Editor) : Press :=
  .enter e.line.text { e with line := Line.empty, history := e.history.enter e.line.text }

/-- What comes of a key that works with the cursor in the line. -/
def change (e : Editor) : Key → Press
  | .insert c => e.become (e.line.insert [c])
  | .wordBack => e.become { e.line with cursor := (e.line.wordStart?).getD 0 }
  | .backspace => e.backspace
  | .delete => e.delete
  | .eraseWord => e.eraseWord
  | .deleteWord => e.deleteWord
  | .killFront => e.killFront
  | .kill => e.kill
  | .yank => e.become (e.line.insert e.killed)
  | _ => e.keep

/-- What comes of a key, wherever the cursor is. -/
def respond (e : Editor) (key : Key) : Press :=
  let l := e.line
  match key with
  | .lineStart => e.become { l with cursor := 0 }
  | .lineEnd => e.become { l with cursor := l.text.length }
  | .back => e.become { l with cursor := l.cursor - 1 }
  | .forward =>
    if l.cursor = l.text.length then e.keep else e.become { l with cursor := l.cursor + 1 }
  | .wordForward =>
    e.become { l with cursor := (l.wordStartFrom? (l.cursor + 1)).getD l.text.length }
  | .transpose => e.become l.transpose
  | .previous => e.revisit e.history.previous?
  | .next => e.revisit e.history.next?
  | .clearScreen => .edit e home
  | .idle => e.keep
  | .search => .crash
  | .enter => e.enter
  | .interrupt => .quit
  | .stop => if l.text.isEmpty then .quit else e.enter
  | .yank => if e.killed.isEmpty then e.keep else touch
  | .delete => if l.text.isEmpty then .quit else touch
  | _ => touch
where
  /-- What comes of a key that needs the cursor to be in the line. -/
  touch : Press := if e.line.isSound then e.change key else .crash

/-- Notes in the history what the line has become. -/
def noted (e : Editor) : Editor := { e with history := e.history.edit e.line.text }

/-- What comes of a key. -/
def press (e : Editor) (key : Key) : Press :=
  match e.respond key with
  | .edit e sent => .edit e.noted sent
  | .enter line e => .enter line e.noted
  | .quit => .quit
  | .crash => .crash

end Editor

end RobotGolf.Console
