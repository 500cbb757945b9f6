import RobotGolf.Level.Position
/-!
# Sets of positions

A set of positions is kept as a binary search tree. Look-up goes left or right by the sign of
`Position.difference`, as does the order in which a set is listed.
-/

namespace RobotGolf

/-- A binary tree of positions. -/
inductive PositionSet where
  | empty
  | node (left : PositionSet) (root : Position) (right : PositionSet)
  deriving DecidableEq, Repr

namespace PositionSet

/-- Looks a position up, led by the sign of its difference to the roots on the way. -/
def contains (p : Position) : PositionSet → Bool
  | empty => false
  | node left root right =>
    if p.difference root < 0 then contains p left
    else if 0 < p.difference root then contains p right
    else true

/-- The members, from left to right. -/
def toList : PositionSet → List Position
  | empty => []
  | node left root right => left.toList ++ root :: right.toList

/-- A tree of a list, the middle of the list at its root. -/
def ofSorted (items : List Position) : PositionSet :=
  match h : items.drop (items.length / 2) with
  | [] => empty
  | root :: behind => node (ofSorted (items.take (items.length / 2))) root (ofSorted behind)
termination_by items.length
decreasing_by
  all_goals have := congrArg List.length h
  all_goals simp only [List.length_drop, List.length_cons, List.length_take] at this ⊢
  all_goals omega

/-- Drops every item that equals the one before it. -/
def dropRepeats : List Position → List Position
  | p :: q :: rest => if p = q then dropRepeats (q :: rest) else p :: dropRepeats (q :: rest)
  | rest => rest

/-- The set of some positions. -/
def ofList (items : List Position) : PositionSet :=
  ofSorted (dropRepeats (items.mergeSort Position.before))

end PositionSet

end RobotGolf
