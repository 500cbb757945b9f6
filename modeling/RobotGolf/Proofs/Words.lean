import Mathlib.Algebra.Group.Int.Defs
import Mathlib.Algebra.Group.Nat.Defs
/-!
# Machine words that do not wrap around

Numbers of frames, of rows and of columns are counted in machine words, whose arithmetic is that of
the integers as long as the result is a word again. These are the cases that come up where something
is counted or measured.
-/

namespace RobotGolf

/-- Counting on does not wrap around, except behind the largest word. -/
theorem toInt_add_one {x : Int64} (h : x ≠ Int64.maxValue) : (x + 1).toInt = x.toInt + 1 := by
  have hlt : x.toInt < 2 ^ 63 - 1 := by
    have hne : x.toInt ≠ Int64.maxValue.toInt := mt Int64.toInt_inj.1 h
    have hle := Int64.toInt_le x
    rw [Int64.toInt_maxValue] at hne hle
    omega
  have hge := Int64.le_toInt x
  rw [Int64.toInt_add, Int64.toInt_one, Int.bmod_eq_of_le (by omega) (by omega)]

/-- Behind the largest word counting goes on with the smallest one. -/
theorem maxValue_add_one : Int64.maxValue + 1 = Int64.minValue := by decide

/-- A coordinate of a cell does not wrap around by one step. -/
theorem toInt_add_of_step {x d : Int64} (hx : 0 ≤ x.toInt) (hlt : x.toInt + 1 < 2 ^ 63)
    (hd : d.toInt.natAbs = 1) : (x + d).toInt = x.toInt + d.toInt := by
  rw [Int64.toInt_add, Int.bmod_eq_of_le (by omega) (by omega)]

theorem toInt_sub_of_nonneg {x y : Int64} (hx : 0 ≤ x.toInt) (hy : 0 ≤ y.toInt) :
    (x - y).toInt = x.toInt - y.toInt := by
  have hx' := x.toInt_lt
  have hy' := y.toInt_lt
  rw [Int64.toInt_sub, Int.bmod_eq_of_le (by omega) (by omega)]

end RobotGolf
