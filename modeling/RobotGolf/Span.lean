/-!
# Stretches of a text

A span holds the offset of its first octet and the offset just behind its last one. The span from
zero to zero stands for "nowhere": extending it by a span gives that span.
-/

namespace RobotGolf

/-- A stretch of octets, from the first offset up to but not including the second. -/
structure Span where
  start : Nat
  stop : Nat
  deriving DecidableEq, Repr

namespace Span

/-- The span that covers nothing and is found nowhere. -/
def null : Span := ⟨0, 0⟩

/-- Whether this is the span that is found nowhere. -/
def isNull (s : Span) : Bool := s == null

/-- Number of octets covered. Offsets are 64-bit words, so this is taken modulo `2 ^ 64`. -/
def length (s : Span) : Nat := (s.stop + Nat.pow 2 64 - s.start) % Nat.pow 2 64

/-- The smallest span that covers both. -/
def extend (s other : Span) : Span :=
  if s.isNull then other else ⟨min s.start other.start, max s.stop other.stop⟩

/-- The span moved to the right. -/
def shift (s : Span) (distance : Nat) : Span := ⟨s.start + distance, s.stop + distance⟩

/-- A span as messages show it. -/
def render (s : Span) : String := "(" ++ toString s.start ++ "…" ++ toString s.stop ++ ")"

@[simp]
theorem extend_null (s : Span) : null.extend s = s := rfl

end Span

end RobotGolf
