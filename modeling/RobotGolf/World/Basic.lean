import RobotGolf.Command
import RobotGolf.Level.Basic
import RobotGolf.World.Score
/-!
# A level being played

The world is a level together with the robot's pose, the cells that it has entered, a flag for each
white button and the number of flags that are set. A step forward enters the cell ahead, unless that
is outside of the grid or belongs to a wall. Entering a white button presses it, and entering a gray
one releases them all. A level is completed once all its white buttons have been pressed at the same
time, and it remains so.
-/

namespace RobotGolf

/-- White buttons, each with whether it is pressed. -/
abbrev ButtonFlags := List (Position × Bool)

namespace ButtonFlags

/-- Some buttons, none of them pressed. -/
def released (buttons : List Position) : ButtonFlags := buttons.map fun p => (p, false)

/-- Whether there is a flag for a position, and it is set. -/
def isSet (flags : ButtonFlags) (p : Position) : Bool := (flags.lookup p).getD false

/-- Sets the flag for a position. -/
def set : ButtonFlags → Position → ButtonFlags
  | [], p => [(p, true)]
  | flag :: rest, p => if flag.1 = p then (p, true) :: rest else flag :: set rest p

/-- Clears all flags. -/
def clear (flags : ButtonFlags) : ButtonFlags := flags.map fun flag => (flag.1, false)

end ButtonFlags

/-- The state of a level being played. -/
structure World where
  level : Level
  robot : Pose
  /-- The cells entered, in order. -/
  trail : Array Position
  flags : ButtonFlags
  /-- How many white buttons are pressed. -/
  pressed : Nat
  maxPressed : Nat
  completed : Bool
  deriving DecidableEq, Repr

namespace World

/-- A level before the first action. Without white buttons it is completed from the start. -/
def start (l : Level) : World :=
  ⟨l, l.robot, #[], .released l.whiteButtons, 0, 0, l.whiteButtons.isEmpty⟩

/-- Whether the white button at a position is pressed. -/
def isPressed (w : World) (p : Position) : Bool := w.flags.isSet p

/-- What entering a cell does to the buttons. -/
def touch (w : World) (p : Position) : World :=
  if w.level.isGrayButton p then { w with flags := w.flags.clear, pressed := 0 }
  else if w.level.isWhiteButton p ∧ ¬ w.isPressed p then
    let flags := w.flags.set p
    let pressed := w.pressed + 1
    { w with
      flags := flags
      pressed := pressed
      maxPressed := max w.maxPressed pressed
      completed := w.completed || pressed == flags.length }
  else w

/-- Whether the robot can enter a position. -/
def isFree (w : World) (p : Position) : Bool := w.level.inBounds p && !w.level.isInaccessible p

/-- One step forward, unless the way is blocked. -/
def forward (w : World) : World :=
  let target := w.robot.ahead
  if w.isFree target then
    { w with
      robot := { w.robot with position := target }
      trail := w.trail.push target }.touch target
  else w

/-- Turns the robot. -/
def face (w : World) (h : Heading) : World := { w with robot := { w.robot with heading := h } }

/-- Obeys a command; unknown commands are ignored. -/
def obey (w : World) (c : Command) : World :=
  if c = Command.turnLeft then w.face w.robot.heading.turnLeft
  else if c = Command.turnRight then w.face w.robot.heading.turnRight
  else if c = Command.forward then w.forward
  else w

/-- Applies an action; numbers have no effect. -/
def step (w : World) : Action → World
  | .command c => w.obey c
  | .number _ => w

/-- Applies some actions, one after the other. -/
def run (w : World) (actions : List Action) : World := actions.foldl step w

/-- The score of the present state for a program of some bytes. The divisors are never zero, since a
level has a positive budget. -/
def score (w : World) (bytes : Int64) : Int64 :=
  (score? (Int64.ofNat w.level.points) (Int64.ofNat w.level.maxBytes)
    (Int64.ofNat w.level.whiteButtons.length) (Int64.ofNat w.pressed) bytes).getD 0

/-! ### The grid on display -/

/-- The symbol that shows a cell: the robot by its heading, a pressed white button as `W`. -/
def symbolAt (w : World) (p : Position) (c : Cell) : Char :=
  if p = w.robot.position then w.robot.heading.symbol
  else if w.level.isWhiteButton p then if w.isPressed p then 'W' else 'w'
  else c.symbol

/-- The grid as it is shown, one string for every row. -/
def snapshot (w : World) : List String :=
  w.level.grid.zipIdx.map fun row =>
    String.ofList (row.1.zipIdx.map fun cell =>
      w.symbolAt (Position.ofIndex row.2 cell.2) cell.1)

/-- The grid as one text. -/
def render (w : World) : String := "\n".intercalate w.snapshot

end World

end RobotGolf
