import RobotGolf.Level.PositionSet
import RobotGolf.Level.Wall
/-!
# Levels

A level is a grid of cells with walls, gray buttons and white buttons, the place where the robot
starts, the points for a complete solution, and the budget of bytes. The cell where the robot starts
is empty. `Level.render` shows a level in the format in which levels are stored.
-/

namespace RobotGolf

/-- What a cell of the grid holds. -/
inductive Cell where
  | empty
  | wall
  | gray
  | white
  deriving DecidableEq, Repr

namespace Cell

/-- The symbol of a cell. -/
def symbol : Cell → Char
  | empty => '.'
  | wall => '*'
  | gray => 'g'
  | white => 'w'

end Cell

/-- The cells of a level, row by row. -/
abbrev Grid := List (List Cell)

namespace Grid

/-- The cell in a row and column that count from zero. -/
def at? (g : Grid) (r c : Nat) : Option Cell := g[r]?.bind (·[c]?)

/-- The cell at a position. -/
def cell? (g : Grid) (p : Position) : Option Cell :=
  if p.row < 0 ∨ p.col < 0 then none else g.at? p.row.toInt.toNat p.col.toInt.toNat

/-- The cells with their rows and columns, in row-major order. -/
def indexed (g : Grid) : List ((Nat × Nat) × Cell) :=
  g.zipIdx.flatMap fun row => row.1.zipIdx.map fun cell => ((row.2, cell.2), cell.1)

/-- The positions of all cells of one kind, in row-major order. -/
def positions (g : Grid) (kind : Cell) : List Position :=
  (g.indexed.filter (·.2 == kind)).map fun cell => Position.ofIndex cell.1.1 cell.1.2

/-! ### Runs of wall cells -/

/-- The number of wall cells from a cell on to the right, up to the first cell that is none. -/
def runRight (g : Grid) (r c : Nat) : Nat :=
  (((g[r]?.getD []).drop c).takeWhile (· == .wall)).length

/-- The number of wall cells from a cell on downwards, up to the first cell that is none. -/
def runDown (g : Grid) (r c : Nat) : Nat :=
  ((g.drop r).takeWhile fun row => row[c]? == some .wall).length

/-- The number of wall cells from a cell on, in a direction. -/
def run (g : Grid) (o : Orientation) (q : Nat × Nat) : Nat :=
  if o = .horizontal then g.runRight q.1 q.2 else g.runDown q.1 q.2

/-- The run from a cell on, as a wall. -/
def wall (g : Grid) (o : Orientation) (q : Nat × Nat) : Wall :=
  ⟨Position.ofIndex q.1 q.2, o, Int64.ofNat (g.run o q)⟩

/-! ### Finding walls -/

/-- What is known while the wall cells are visited one by one: the cells of the runs that were
followed in either direction, and the walls that were found on the way. -/
structure Search where
  across : List (Nat × Nat)
  down : List (Nat × Nat)
  walls : List Wall

/-- What is known in front of the first visit. -/
def Search.empty : Search := ⟨[], [], []⟩

/-- What comes of following the run from a cell on: the cells that have been seen then, the run as a
wall if it has more than one cell, and whether the cell belongs to such a run. -/
structure Pursuit where
  seen : List (Nat × Nat)
  walls : List Wall
  proper : Bool

/-- Follows the run from a wall cell on, unless the cell has been seen in a run already. -/
def follow (g : Grid) (o : Orientation) (q : Nat × Nat) (seen : List (Nat × Nat)) : Pursuit :=
  if seen.contains q then ⟨seen, [], true⟩
  else
    let length := g.run o q
    ⟨(List.range length).map (o.beyond q) ++ seen, if 1 < length then [g.wall o q] else [],
      decide (1 < length)⟩

/-- Visits a wall cell: the run to the right is followed, and then the one downwards. Tells whether
the cell belongs to a wall. -/
def visit (g : Grid) (s : Search) (q : Nat × Nat) : Bool × Search :=
  let right := g.follow .horizontal q s.across
  let below := g.follow .vertical q s.down
  (right.proper || below.proper, ⟨right.seen, below.seen, s.walls ++ right.walls ++ below.walls⟩)

/-- The rows and columns of the wall cells, in row-major order. -/
def wallCells (g : Grid) : List (Nat × Nat) := (g.indexed.filter (·.2 == .wall)).map Prod.fst

/-- The walls of a grid. Cells are visited in row-major order, so a run is found at its first
one. -/
def walls (g : Grid) : List Wall :=
  (g.wallCells.foldl (fun s q => (g.visit s q).2) .empty).walls

end Grid

/-- A puzzle. -/
structure Level where
  name : String
  rows : Nat
  cols : Nat
  points : Nat
  maxBytes : Nat
  robot : Pose
  grid : Grid
  grayButtons : List Position
  whiteButtons : List Position
  walls : List Wall
  gray : PositionSet
  white : PositionSet
  inaccessible : PositionSet
  deriving DecidableEq, Repr

namespace Level

/-- The level of a grid in which walls have been found. A cell is inaccessible if a wall covers
it. -/
def ofWalls (name : String) (rows cols points maxBytes : Nat) (robot : Pose) (grid : Grid)
    (walls : List Wall) : Level :=
  let grayButtons := grid.positions .gray
  let whiteButtons := grid.positions .white
  { name, rows, cols, points, maxBytes, robot, grid, grayButtons, whiteButtons, walls
    gray := .ofList grayButtons
    white := .ofList whiteButtons
    inaccessible := .ofList (walls.flatMap Wall.cells) }

/-- The level of a grid. -/
def ofGrid (name : String) (rows cols points maxBytes : Nat) (robot : Pose) (grid : Grid) : Level :=
  ofWalls name rows cols points maxBytes robot grid grid.walls

/-- Whether a position is a cell of the grid. -/
def inBounds (l : Level) (p : Position) : Bool :=
  0 ≤ p.row && p.row.toInt < l.rows && 0 ≤ p.col && p.col.toInt < l.cols

/-- The cell at a position of the grid. -/
def cell? (l : Level) (p : Position) : Option Cell := l.grid.cell? p

/-- Whether a position belongs to a wall. -/
def isInaccessible (l : Level) (p : Position) : Bool := l.inaccessible.contains p

/-- Whether there is a gray button at a position. -/
def isGrayButton (l : Level) (p : Position) : Bool := l.gray.contains p

/-- Whether there is a white button at a position. -/
def isWhiteButton (l : Level) (p : Position) : Bool := l.white.contains p

/-! ### The stored format -/

/-- The symbol of a cell as it is stored: the robot hides the cell that it starts from. -/
def startSymbol (l : Level) (p : Position) (c : Cell) : Char :=
  if p = l.robot.position then l.robot.heading.symbol else c.symbol

/-- The rows of the grid as they are stored. -/
def storedRows (l : Level) : List String :=
  l.grid.zipIdx.map fun row =>
    String.ofList (row.1.zipIdx.map fun cell =>
      l.startSymbol (Position.ofIndex row.2 cell.2) cell.1)

/-- A level in the format in which levels are stored. -/
def render (l : Level) : String :=
  String.join ((l.storedRows ++ [toString l.points, toString l.maxBytes]).map (· ++ "\n"))

end Level

end RobotGolf
