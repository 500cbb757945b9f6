/-!
# Scores

A solution earns points by the white buttons that it presses and by the bytes that it takes. With
all buttons pressed and the program within the budget, the level's points are scaled up by the ratio
of budget to program size. Otherwise every pressed button earns a share of half the points, less of
it for programs over the budget, and nothing from twice the budget on.

Scores are computed in 64-bit words, which wrap around. Division goes toward zero, and there is no
score if a divisor is zero.
-/

namespace RobotGolf

/-- The quotient toward zero, if the divisor is not zero. -/
def quotient? (a b : Int64) : Option Int64 := if b = 0 then none else some (a / b)

/-- The score of a program of `bytes` bytes that pressed `buttons` of `total` white buttons.
Programs count at least one byte, and without white buttons there is no share to earn. -/
def score? (points maxBytes total buttons bytes : Int64) : Option Int64 :=
  let size := if bytes < 1 then 1 else bytes
  if buttons = total ∧ size ≤ maxBytes then quotient? (points * maxBytes) size
  else if total = 0 then some 0
  else if size ≤ maxBytes then (quotient? points (2 * total)).map (buttons * ·)
  else if size ≤ 2 * maxBytes then
    (quotient? (points * (2 * maxBytes - size)) (2 * maxBytes * total)).map (buttons * ·)
  else some 0

end RobotGolf
