import RobotGolf.Level.Position
/-!
# Walls

A wall is a straight run of cells, from its topmost or leftmost cell to the right or downwards.
-/

namespace RobotGolf

/-- The direction in which a wall runs. Levels know two of them; others are shown as horizontal and
run downwards. -/
structure Orientation where
  code : Int64
  deriving DecidableEq, Repr

namespace Orientation

/-- From left to right. -/
def horizontal : Orientation := ⟨0⟩

/-- From top to bottom. -/
def vertical : Orientation := ⟨1⟩

/-- The name of an orientation. -/
def render (o : Orientation) : String := if o = vertical then "vertical" else "horizontal"

/-- The row and column at a distance from others: to the right or downwards. -/
def beyond (o : Orientation) (q : Nat × Nat) (i : Nat) : Nat × Nat :=
  if o = horizontal then (q.1, q.2 + i) else (q.1 + i, q.2)

end Orientation

/-- A straight run of cells. -/
structure Wall where
  origin : Position
  orientation : Orientation
  length : Int64
  deriving DecidableEq, Repr

namespace Wall

/-- The cell of a wall at a distance from its origin. -/
def cell (w : Wall) (distance : Nat) : Position :=
  if w.orientation = .horizontal then ⟨w.origin.row, w.origin.col + Int64.ofNat distance⟩
  else ⟨w.origin.row + Int64.ofNat distance, w.origin.col⟩

/-- The cells of a wall, its origin first. -/
def cells (w : Wall) : List Position := (List.range w.length.toInt.toNat).map w.cell

/-- The number of cells for which room can be reserved. -/
def capacity : Int := Int.pow 2 44

/-- The cells of a wall, unless its length is negative or more than there can be room for. -/
def cells? (w : Wall) : Option (List Position) :=
  if w.length < 0 ∨ capacity < w.length.toInt then none else some w.cells

/-- A wall as it is listed. -/
def render (w : Wall) : String :=
  "<" ++ w.orientation.render ++ " wall at " ++ w.origin.render ++ ", length "
    ++ toString w.length.toInt ++ ">"

end Wall

end RobotGolf
