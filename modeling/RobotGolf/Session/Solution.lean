import RobotGolf.Input
import RobotGolf.Machine.Basic
import RobotGolf.Program.Cost
import RobotGolf.Program.Parse
/-!
# Solutions

A solution is a program that is to play a level: its source text, the tree that was read from it,
its byte cost, and the limits under which it is evaluated. A solution can be evaluated any number of
times.
-/

namespace RobotGolf

/-- A program together with its source. -/
structure Solution where
  source : Bytes
  tree : Program
  bytes : Nat
  limits : Limits

/-- Why there is no solution: its source is no program, its file could not be opened, or reading it
failed. -/
inductive SolutionError where
  | malformed (e : SyntaxError)
  | unopened (reason : String)
  | unreadable (reason : String)
  deriving DecidableEq, Repr

/-- The wording of an error. -/
def SolutionError.message : SolutionError → String
  | malformed e => e.message
  | unopened reason => "cannot open program file: " ++ reason
  | unreadable reason => "cannot read program: " ++ reason

namespace Solution

/-- Reads a solution from its source text. -/
def ofSource (limits : Limits) (source : Bytes) : Except SolutionError Solution :=
  match Program.parse source with
  | .error e => .error (.malformed e)
  | .ok tree => .ok ⟨source, tree, tree.cost, limits⟩

/-- Reads a solution from a feed. -/
def read (limits : Limits) (feed : Feed) : Except SolutionError Solution :=
  match feed.readAll with
  | .error reason => .error (.unreadable reason)
  | .ok source => ofSource limits source

/-- Reads a solution from a file. -/
def loadFile (limits : Limits) (files : Files) (path : String) : Except SolutionError Solution :=
  match files path with
  | .error reason => .error (.unopened reason)
  | .ok feed => read limits feed

/-- The lines of a text: what stands between its line ends. -/
def splitLines : Bytes → List Bytes
  | [] => [[]]
  | b :: rest =>
    if b = Place.newline then [] :: splitLines rest
    else
      match splitLines rest with
      | [] => [[b]]
      | line :: lines => (b :: line) :: lines

/-- The lines of the source text. -/
def lines (s : Solution) : List String := (splitLines s.source).map Bytes.toText

/-- A new evaluation. -/
def machine (s : Solution) : Machine := Machine.start s.tree s.limits

end Solution

end RobotGolf
