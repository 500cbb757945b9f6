import RobotGolf.Command
import RobotGolf.Input
import RobotGolf.Level.Basic
/-!
# Loading levels

A level is stored as lines of cell symbols, one for every row, a line with the points, and a line
with the budget of bytes. What follows is not read. The dimensions are not stored: whoever loads a
level says how many rows and columns it has.

Reading goes line by line, and the first line that does not fit is reported. Only then is the grid
looked at: it holds one robot, and every wall cell belongs to a wall. A feed that fails before the
reader has seen all that it needs makes loading fail, whatever the text would have been.
-/

namespace RobotGolf

/-! ### Symbols -/

/-- What a symbol of a stored grid stands for. -/
inductive Tile where
  | cell (c : Cell)
  | robot (h : Heading)
  deriving DecidableEq, Repr

namespace Tile

/-- The meaning of a symbol. -/
def ofChar? : Char → Option Tile
  | '.' => some (cell .empty)
  | '*' => some (cell .wall)
  | 'g' => some (cell .gray)
  | 'w' => some (cell .white)
  | 'u' => some (robot .up)
  | 'r' => some (robot .right)
  | 'd' => some (robot .down)
  | 'l' => some (robot .left)
  | _ => none

/-- The cell under a symbol: a robot starts from an empty cell. -/
def toCell : Tile → Cell
  | cell c => c
  | robot _ => .empty

end Tile

/-! ### Errors -/

/-- Why a text is no level. -/
inductive LevelError where
  | rows (n : Int64)
  | cols (n : Int64)
  | missingLines (expected : Int64) (found : Nat)
  | emptyLine (line : Nat)
  | illegalCharacter (line : Nat)
  | lineLength (line : Nat) (width : Int64)
  | number (limit line : Nat) (text : String)
  | secondRobot (p : Position)
  | isolatedWall (p : Position)
  | noRobot
  deriving DecidableEq, Repr

namespace LevelError

/-- The wording of an error. -/
def message : LevelError → String
  | rows n => "the number of rows must be greater than or equal to 1: " ++ toString n.toInt
  | cols n => "the number of columns must be greater than or equal to 1: " ++ toString n.toInt
  | missingLines expected found =>
    "expected " ++ toString expected.toInt ++ " " ++ pluralize expected.toInt "line" "lines"
      ++ " but got " ++ toString found
  | emptyLine line => "line " ++ toString line ++ " is an empty line"
  | illegalCharacter line => "illegal character found at line " ++ toString line
  | lineLength line width =>
    "line " ++ toString line ++ " is not " ++ toString width.toInt ++ " "
      ++ pluralize width.toInt "character" "characters" ++ " long"
  | number limit line text =>
    "expected a positive integer in the range [1, " ++ toString limit ++ ") at line "
      ++ toString line ++ ": " ++ text
  | secondRobot p => "too many robots, found another one at " ++ p.render
  | isolatedWall p => "improper wall at " ++ p.render
  | noRobot => "no robot found"

end LevelError

/-- Why a level could not be loaded: its text is no level, its file could not be opened, the feed
failed, or there can be no room for as many rows as were asked for. -/
inductive LoadError where
  | malformed (e : LevelError)
  | unopened (reason : String)
  | unreadable (reason : String)
  | oversized
  deriving DecidableEq, Repr

namespace LoadError

/-- The wording of an error. -/
def message : LoadError → String
  | malformed e => e.message
  | unopened reason => "cannot open level file: " ++ reason
  | unreadable reason => "cannot read level: " ++ reason
  | oversized => ""

end LoadError

namespace Level

/-- The dimensions to load a level with, and its name. -/
structure Options where
  rows : Int64
  cols : Int64
  name : String
  deriving DecidableEq, Repr

/-- The options that hold unless others are asked for. -/
def Options.standard : Options := ⟨25, 25, ""⟩

/-! ### Reading lines -/

/-- Reads characters up to and including the end of a line, but not more than `limit`. -/
def readLine (failure : Option String) :
    (limit : Nat) → List Glyph → Except LoadError (List Char × List Glyph)
  | 0, glyphs => .ok ([], glyphs)
  | _ + 1, [] =>
    match failure with
    | some reason => .error (.unreadable reason)
    | none => .ok ([], [])
  | limit + 1, g :: rest =>
    if g.char == '\n' then .ok (['\n'], rest)
    else
      match readLine failure limit rest with
      | .error e => .error e
      | .ok (line, behind) => .ok (g.char :: line, behind)

/-- The tiles of a line of the grid. `line` is its number, and the end of the line is part of it. -/
def tilesOfLine (o : Options) (line : Nat) (chars : List Char) : Except LevelError (List Tile) :=
  if chars = [] then .error (.missingLines o.rows (line - 1))
  else if chars = ['\n'] then .error (.emptyLine line)
  else
    let ended := chars.getLast? == some '\n'
    let symbols := if ended then chars.dropLast else chars
    match symbols.mapM Tile.ofChar? with
    | none => .error (.illegalCharacter line)
    | some tiles =>
      if (tiles.length : Int) = o.cols.toInt ∧ ended then .ok tiles
      else .error (.lineLength line o.cols)

/-- Reads the lines of the grid, `count` of them being left and `line` being the number of the first
one. -/
def readTiles (o : Options) (failure : Option String) :
    (count line : Nat) → List Glyph → Except LoadError (List (List Tile) × List Glyph)
  | 0, _, glyphs => .ok ([], glyphs)
  | count + 1, line, glyphs =>
    match readLine failure (o.cols + 1).toInt.toNat glyphs with
    | .error e => .error e
    | .ok (chars, rest) =>
      match tilesOfLine o line chars with
      | .error e => .error (.malformed e)
      | .ok tiles =>
        match readTiles o failure count (line + 1) rest with
        | .error e => .error e
        | .ok (more, behind) => .ok (tiles :: more, behind)

/-- The value of a non-empty run of digits. -/
def digitsValue? (chars : List Char) : Option Nat :=
  if chars.isEmpty || !chars.all Char.isDigit then none
  else some (chars.foldl (fun n c => 10 * n + (c.toNat - 48)) 0)

/-- Reads a line that holds a positive number below a limit. At the end of the text the end of the
line may be missing. -/
def readNumber (failure : Option String) (limit line : Nat) (glyphs : List Glyph) :
    Except LoadError (Nat × List Glyph) :=
  let (found, rest) := glyphs.span (·.char != '\n')
  match rest, failure with
  | [], some reason => .error (.unreadable reason)
  | _, _ =>
    let text := found.map Glyph.char
    match digitsValue? text with
    | none => .error (.malformed (.number limit line (String.ofList text)))
    | some n =>
      if 1 ≤ n ∧ n < limit then .ok (n, rest.tail)
      else .error (.malformed (.number limit line (String.ofList text)))

/-! ### Looking at the grid -/

/-- Goes through the tiles in row-major order, with the robot that has been found and with what is
known about walls, and finds the robot and the walls. Another robot or a wall cell that belongs to
no wall is an error. -/
def survey (grid : Grid) (found : Option Pose) (search : Grid.Search) :
    List ((Nat × Nat) × Tile) → Except LevelError (Pose × List Wall)
  | [] =>
    match found with
    | none => .error .noRobot
    | some robot => .ok (robot, search.walls)
  | ((r, c), .robot h) :: rest =>
    match found with
    | none => survey grid (some ⟨Position.ofIndex r c, h⟩) search rest
    | some _ => .error (.secondRobot (Position.ofIndex r c))
  | ((r, c), .cell .wall) :: rest =>
    match grid.visit search (r, c) with
    | (true, search) => survey grid found search rest
    | (false, _) => .error (.isolatedWall (Position.ofIndex r c))
  | (_, .cell _) :: rest => survey grid found search rest

/-- Tiles with their rows and columns, in row-major order. -/
def indexedTiles (tiles : List (List Tile)) : List ((Nat × Nat) × Tile) :=
  tiles.zipIdx.flatMap fun row => row.1.zipIdx.map fun tile => ((row.2, tile.2), tile.1)

/-! ### Loading -/

/-- Points are below this limit. -/
def pointsLimit : Nat := 1000000

/-- The budget of bytes is below this limit. -/
def maxBytesLimit : Nat := 1000

/-- The number of rows for which room can be reserved. -/
def capacity : Int := 11728124029610

/-- Loads a level from a feed. -/
def load (o : Options) (feed : Feed) : Except LoadError Level :=
  if o.rows < 1 then .error (.malformed (.rows o.rows))
  else if o.cols < 1 then .error (.malformed (.cols o.cols))
  else if capacity < o.rows.toInt then .error .oversized
  else
    let rows := o.rows.toInt.toNat
    match readTiles o feed.failure rows 1 (Bytes.glyphs feed.content) with
    | .error e => .error e
    | .ok (tiles, behindGrid) =>
      match readNumber feed.failure pointsLimit (rows + 1) behindGrid with
      | .error e => .error e
      | .ok (points, behindPoints) =>
        match readNumber feed.failure maxBytesLimit (rows + 2) behindPoints with
        | .error e => .error e
        | .ok (maxBytes, _) =>
          let grid : Grid := tiles.map (·.map Tile.toCell)
          match survey grid none .empty (indexedTiles tiles) with
          | .error e => .error (.malformed e)
          | .ok (robot, walls) =>
            .ok (ofWalls o.name rows o.cols.toInt.toNat points maxBytes robot grid walls)

/-- Loads a level from a text. -/
def parse (o : Options) (text : Bytes) : Except LoadError Level := load o (Feed.ofBytes text)

/-- Loads a level from a file. It is named after the file, unless a name is given. -/
def loadFile (files : Files) (path : String) (rows cols : Int64) (name : Option String) :
    Except LoadError Level :=
  match files path with
  | .error reason => .error (.unopened reason)
  | .ok feed => load ⟨rows, cols, name.getD (Files.baseName path)⟩ feed

end Level

end RobotGolf
