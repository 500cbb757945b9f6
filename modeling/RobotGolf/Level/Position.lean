/-!
# Positions and headings

A position is a row and a column, counted from zero at the top left. Coordinates are 64-bit words
and wrap around, because positions outside of the grid are asked for as well. A heading is a number
of quarter turns, clockwise from upwards. The headings of a robot are the four from zero to three.
-/

namespace RobotGolf

/-- A row and a column. -/
structure Position where
  row : Int64
  col : Int64
  deriving DecidableEq, Repr

namespace Position

/-- The position of a cell that is given by its row and its place in it. -/
def ofIndex (r c : Nat) : Position := ⟨Int64.ofNat r, Int64.ofNat c⟩

/-- A position as messages show it: counted from one. -/
def render (p : Position) : String :=
  "(" ++ toString (p.row + 1).toInt ++ ", " ++ toString (p.col + 1).toInt ++ ")"

/-- Compares two positions row by row: negative, zero or positive as the first stands before, at or
behind the second. The difference wraps around, so that the sign is right only for positions whose
coordinates are not too far from each other. -/
def difference (p q : Position) : Int64 :=
  if p.row ≠ q.row then p.row - q.row else p.col - q.col

/-- The first position does not stand behind the second. -/
def before (p q : Position) : Bool := decide (difference p q ≤ 0)

end Position

/-- A number of quarter turns. -/
structure Heading where
  turns : Int64
  deriving DecidableEq, Repr

namespace Heading

/-- Upwards. -/
def up : Heading := ⟨0⟩

/-- To the right. -/
def right : Heading := ⟨1⟩

/-- Downwards. -/
def down : Heading := ⟨2⟩

/-- To the left. -/
def left : Heading := ⟨3⟩

/-- The letter of a heading, which depends on its lowest two bits. -/
def symbol (h : Heading) : Char :=
  if h.turns &&& 3 = 0 then 'u'
  else if h.turns &&& 3 = 1 then 'r'
  else if h.turns &&& 3 = 2 then 'd'
  else 'l'

/-- The heading that an octet stands for. -/
def ofSymbol? (b : UInt8) : Option Heading :=
  match b.toNat with
  | 117 => some up
  | 114 => some right
  | 100 => some down
  | 108 => some left
  | _ => none

/-- A quarter turn to the left. -/
def turnLeft (h : Heading) : Heading := ⟨(h.turns + 3) % 4⟩

/-- A quarter turn to the right. -/
def turnRight (h : Heading) : Heading := ⟨(h.turns + 1) % 4⟩

/-- Rows and columns that one step in a direction adds. -/
def delta (h : Heading) : Int64 × Int64 :=
  if h = up then (-1, 0) else if h = right then (0, 1) else if h = down then (1, 0) else (0, -1)

end Heading

/-- Where a robot stands and where it faces. -/
structure Pose where
  position : Position
  heading : Heading
  deriving DecidableEq, Repr

/-- The position in front of a robot. -/
def Pose.ahead (p : Pose) : Position :=
  ⟨p.position.row + p.heading.delta.1, p.position.col + p.heading.delta.2⟩

end RobotGolf
