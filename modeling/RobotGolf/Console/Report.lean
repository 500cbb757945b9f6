import RobotGolf.Console.Markup
import RobotGolf.Session.Basic
/-!
# Reports

What is shown on the console is a list of lines. Notices carry a mark for their kind in front; the
further lines of a notice are indented by the width of the mark. The report on a session shows the
grid between blank lines, the score below it, and how the session ended if it did.
-/

namespace RobotGolf

/-- A kind of notices. -/
inductive Notice where
  | info
  | error
  | success
  deriving DecidableEq, Repr

namespace Notice

/-- The mark of a kind. -/
def mark : Notice → String
  | info => "   >>  "
  | error => "   Error  "
  | success => " SUCCESS  "

/-- The characters of a line, without its markup. -/
def plain (line : List Char) : List Char := Markup.withoutColours (Markup.withoutTags line)

/-- The text of a notice with a message. Its first line has the mark in front, and the others as
many blanks. Line ends behind the message count as one. -/
def text (kind : Notice) (message : List Char) : List Char :=
  let trimmed := (message.reverse.dropWhile (· == '\n')).reverse
  let margin := kind.mark.toList.map fun _ => ' '
  let lines := ((String.ofList trimmed).splitOn "\n").map fun line => plain line.toList
  let shown := ("\n".toList ++ margin).intercalate lines
  let ending := if message.getLast? = some '\n' then ['\n'] else []
  kind.mark.toList ++ shown ++ ending

/-- How many times tags are dropped from a notice that is put together. -/
def rounds : Nat := 5

/-- The lines of a notice, without its markup. Tags are dropped from the message, from each of its
lines, and several times from the notice. -/
def lines (kind : Notice) (message : String) : List String :=
  let shown := kind.text (Markup.withoutTags message.toList)
  (String.ofList (Markup.withoutNestedTags rounds shown)).splitOn "\n"

end Notice

namespace Session

/-- The score of a session, in words. -/
def summary (s : Session) : String :=
  s.levelName ++ " [" ++ s.levelId ++ "] | bytes " ++ toString s.solution.bytes ++ "/"
    ++ toString s.level.maxBytes ++ " | points " ++ toString s.points.toInt ++ " (best "
    ++ toString s.bestPoints.toInt ++ ", record " ++ toString s.record.toInt ++ ") of "
    ++ toString s.level.points ++ " | steps " ++ toString s.steps

/-- The report on a session. -/
def report (s : Session) : List String :=
  let completion := if s.completed then Notice.success.lines "level completed" else []
  let failure :=
    match s.failure with
    | none => []
    | some f => Notice.error.lines f.message
  [""] ++ s.grid ++ [""] ++ Notice.info.lines s.summary ++ completion ++ failure

end Session

end RobotGolf
