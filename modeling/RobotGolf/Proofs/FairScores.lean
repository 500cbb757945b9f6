import Mathlib.Data.Int.ConditionallyCompleteOrder
import Mathlib.Data.Int.Star
import Mathlib.Tactic.Linarith
import Mathlib.Tactic.Positivity
import Mathlib.Tactic.Ring
import RobotGolf.World.Score
/-!
# Scores are exact, bounded and monotone

Scores are computed in words of 64 bits. `exactScore` is the same formula over the integers, and all
that is said about the size of scores and about comparing them is proved of it. `checkedScore?`
stands between the two: it computes over the integers as well, but looks at the result of every
operation on the way and gives up if one does not fit into a word, or if a divisor is zero.

* Where the checked computation comes to a score, the computation in words comes to the same one
  (`score?_of_checked`). This holds of all words, since no operation has wrapped around.
* Within the bounds that levels set to their numbers (`Scorable`), it does come to a score, and this
  is the exact one (`Scorable.checkedScore?_eq`).

## Across the branches

The formula has a branch for complete solutions within the budget and one for all others, in which
the share of a button is a quotient of one shape within the budget and of another one beyond it.
What keeps the branches apart is that a share, taken as often as there are buttons, is at most half
the points (`Scorable.share_mul_le`), whereas a complete solution within the budget earns all of
them (`Scorable.points_le_full`). The same bound compares the two shapes of shares with each other.
-/

namespace RobotGolf

/-! ### The formula over the integers -/

/-- What each pressed button earns, unless the solution is complete and within the budget. -/
def share (points maxBytes total size : ℤ) : ℤ :=
  if size ≤ maxBytes then points.tdiv (2 * total)
  else if size ≤ 2 * maxBytes then (points * (2 * maxBytes - size)).tdiv (2 * maxBytes * total)
  else 0

/-- The score over the integers. -/
def exactScore (points maxBytes total buttons bytes : ℤ) : ℤ :=
  if buttons = total ∧ max bytes 1 ≤ maxBytes then (points * maxBytes).tdiv (max bytes 1)
  else if total = 0 then 0
  else buttons * share points maxBytes total (max bytes 1)

/-! ### Checked computation -/

/-- An integer, if it fits into a word. -/
def word? (n : ℤ) : Option ℤ := if -2 ^ 63 ≤ n ∧ n < 2 ^ 63 then some n else none

/-- The quotient toward zero, if there is one and it fits into a word. -/
def wordQuotient? (a b : ℤ) : Option ℤ := if b = 0 then none else word? (a.tdiv b)

/-- What each pressed button earns, unless a result on the way does not fit into a word or a divisor
is zero. -/
def checkedShare? (points maxBytes total size : ℤ) : Option ℤ :=
  if size ≤ maxBytes then do
    let divisor ← word? (2 * total)
    wordQuotient? points divisor
  else do
    let twice ← word? (2 * maxBytes)
    if size ≤ twice then do
      let left ← word? (twice - size)
      let dividend ← word? (points * left)
      let divisor ← word? (twice * total)
      wordQuotient? dividend divisor
    else some 0

/-- The score over the integers, unless a result on the way does not fit into a word or a divisor is
zero. -/
def checkedScore? (points maxBytes total buttons bytes : ℤ) : Option ℤ :=
  let size := if bytes < 1 then 1 else bytes
  if buttons = total ∧ size ≤ maxBytes then do
    let dividend ← word? (points * maxBytes)
    wordQuotient? dividend size
  else if total = 0 then some 0
  else do
    let share ← checkedShare? points maxBytes total size
    word? (buttons * share)

theorem word?_eq_some_iff {n k : ℤ} : word? n = some k ↔ (-2 ^ 63 ≤ n ∧ n < 2 ^ 63) ∧ n = k := by
  unfold word?
  split <;> simp_all

theorem wordQuotient?_eq_some_iff {a b k : ℤ} :
    wordQuotient? a b = some k ↔ b ≠ 0 ∧ word? (a.tdiv b) = some k := by
  unfold wordQuotient?
  split <;> simp_all

/-! ### Words follow the checked computation -/

section

variable {x y points maxBytes total size buttons bytes : Int64} {n : ℤ}

theorem toInt_mul_of_word (h : word? (x.toInt * y.toInt) = some n) : (x * y).toInt = n := by
  obtain ⟨hfits, rfl⟩ := word?_eq_some_iff.1 h
  rw [Int64.toInt_mul, Int.bmod_eq_of_le (by omega) (by omega)]

theorem toInt_sub_of_word (h : word? (x.toInt - y.toInt) = some n) : (x - y).toInt = n := by
  obtain ⟨hfits, rfl⟩ := word?_eq_some_iff.1 h
  rw [Int64.toInt_sub, Int.bmod_eq_of_le (by omega) (by omega)]

theorem quotient?_of_word (h : wordQuotient? x.toInt y.toInt = some n) :
    ∃ q, quotient? x y = some q ∧ q.toInt = n := by
  obtain ⟨hne, hword⟩ := wordQuotient?_eq_some_iff.1 h
  obtain ⟨hfits, rfl⟩ := word?_eq_some_iff.1 hword
  have hy : y ≠ 0 := by
    rintro rfl
    exact hne Int64.toInt_zero
  refine ⟨x / y, by rw [quotient?, if_neg hy], ?_⟩
  rw [Int64.toInt_div, Int.bmod_eq_of_le (by omega) (by omega)]

/-- What each pressed button earns, in words. -/
def share? (points maxBytes total size : Int64) : Option Int64 :=
  if size ≤ maxBytes then quotient? points (2 * total)
  else if size ≤ 2 * maxBytes then
    quotient? (points * (2 * maxBytes - size)) (2 * maxBytes * total)
  else some 0

/-- A score is one of a complete solution within the budget, or made of shares. -/
theorem score?_eq (points maxBytes total buttons bytes : Int64) :
    score? points maxBytes total buttons bytes =
      if buttons = total ∧ (if bytes < 1 then 1 else bytes) ≤ maxBytes then
        quotient? (points * maxBytes) (if bytes < 1 then 1 else bytes)
      else if total = 0 then some 0
      else (share? points maxBytes total (if bytes < 1 then 1 else bytes)).map (buttons * ·) := by
  unfold score? share?
  dsimp only
  generalize (if bytes < 1 then (1 : Int64) else bytes) = size
  split_ifs <;> simp

theorem toInt_size (bytes : Int64) : (if bytes < 1 then 1 else bytes).toInt =
    if bytes.toInt < 1 then 1 else bytes.toInt := by
  simp only [Int64.lt_iff_toInt_lt, Int64.toInt_one]
  split
  · exact Int64.toInt_one
  · rfl

theorem share?_of_checked
    (h : checkedShare? points.toInt maxBytes.toInt total.toInt size.toInt = some n) :
    ∃ q, share? points maxBytes total size = some q ∧ q.toInt = n := by
  have htwo : (2 : Int64).toInt = 2 := rfl
  unfold checkedShare? at h
  unfold share?
  simp only [← Int64.le_iff_toInt_le, ← htwo] at h
  by_cases hwithin : size ≤ maxBytes
  · rw [if_pos hwithin] at h ⊢
    obtain ⟨divisor, hdivisor, h⟩ := Option.bind_eq_some_iff.1 h
    rw [← toInt_mul_of_word hdivisor] at h
    exact quotient?_of_word h
  rw [if_neg hwithin] at h ⊢
  obtain ⟨twice, htwice, h⟩ := Option.bind_eq_some_iff.1 h
  obtain rfl := toInt_mul_of_word htwice
  simp only [← Int64.le_iff_toInt_le] at h
  by_cases hbeyond : size ≤ 2 * maxBytes
  · rw [if_pos hbeyond] at h ⊢
    obtain ⟨left, hleft, h⟩ := Option.bind_eq_some_iff.1 h
    obtain ⟨dividend, hdividend, h⟩ := Option.bind_eq_some_iff.1 h
    obtain ⟨divisor, hdivisor, h⟩ := Option.bind_eq_some_iff.1 h
    rw [← toInt_sub_of_word hleft] at hdividend
    rw [← toInt_mul_of_word hdividend, ← toInt_mul_of_word hdivisor] at h
    exact quotient?_of_word h
  · rw [if_neg hbeyond] at h ⊢
    exact ⟨0, rfl, Int64.toInt_zero.trans (Option.some.inj h)⟩

/-- **Where no result wraps around and no divisor is zero, words come to the same score.** -/
theorem score?_of_checked
    (h : checkedScore? points.toInt maxBytes.toInt total.toInt buttons.toInt bytes.toInt =
      some n) :
    ∃ s, score? points maxBytes total buttons bytes = some s ∧ s.toInt = n := by
  unfold checkedScore? at h
  rw [score?_eq]
  dsimp only at h
  rw [← toInt_size] at h
  generalize (if bytes < 1 then (1 : Int64) else bytes) = size at h ⊢
  simp only [Int64.toInt_inj, ← Int64.le_iff_toInt_le, ← Int64.toInt_zero] at h
  by_cases hfull : buttons = total ∧ size ≤ maxBytes
  · rw [if_pos hfull] at h ⊢
    obtain ⟨dividend, hdividend, h⟩ := Option.bind_eq_some_iff.1 h
    rw [← toInt_mul_of_word hdividend] at h
    exact quotient?_of_word h
  rw [if_neg hfull] at h ⊢
  by_cases htotal : total = 0
  · rw [if_pos htotal] at h ⊢
    exact ⟨0, rfl, Option.some.inj h⟩
  · rw [if_neg htotal] at h ⊢
    obtain ⟨share, hshare, h⟩ := Option.bind_eq_some_iff.1 h
    obtain ⟨q, hq, rfl⟩ := share?_of_checked hshare
    exact ⟨buttons * q, by rw [hq]; rfl, toInt_mul_of_word h⟩

end

/-! ### The exact score within the bounds of levels -/

/-- The numbers that a score is computed from are within the bounds of levels: points and budget are
positive and below their limits, and no more buttons are pressed than there are. -/
structure Scorable (points maxBytes total buttons : ℤ) : Prop where
  points_pos : 1 ≤ points
  points_lt : points < 1000000
  maxBytes_pos : 1 ≤ maxBytes
  maxBytes_lt : maxBytes < 1000
  total_le : total ≤ 2 ^ 48
  buttons_nonneg : 0 ≤ buttons
  buttons_le : buttons ≤ total

namespace Scorable

variable {points maxBytes total buttons bytes size : ℤ}

theorem total_nonneg (h : Scorable points maxBytes total buttons) : 0 ≤ total :=
  h.buttons_nonneg.trans h.buttons_le

theorem share_nonneg (h : Scorable points maxBytes total buttons) :
    0 ≤ share points maxBytes total size := by
  have hpoints : 0 ≤ points := by linarith [h.points_pos]
  have hmax : 0 ≤ 2 * maxBytes := by linarith [h.maxBytes_pos]
  unfold share
  split_ifs with hwithin hbeyond
  · exact Int.tdiv_nonneg hpoints (by linarith [h.total_nonneg])
  · exact Int.tdiv_nonneg (mul_nonneg hpoints (sub_nonneg.2 hbeyond))
      (mul_nonneg hmax h.total_nonneg)
  · rfl

/-- **The shares of all buttons make up half the points at most.** -/
theorem share_mul_le (h : Scorable points maxBytes total buttons) :
    share points maxBytes total size * (2 * total) ≤ points := by
  have hpoints : 0 ≤ points := by linarith [h.points_pos]
  have hmax : 0 < maxBytes := by linarith [h.maxBytes_pos]
  rcases h.total_nonneg.eq_or_lt with htotal | htotal
  · rw [← htotal]
    linarith
  unfold share
  split_ifs with hwithin hbeyond
  · rw [Int.tdiv_eq_ediv_of_nonneg hpoints]
    exact Int.ediv_mul_le points (by linarith)
  · have hleft : 0 ≤ 2 * maxBytes - size := sub_nonneg.2 hbeyond
    rw [Int.tdiv_eq_ediv_of_nonneg (mul_nonneg hpoints hleft)]
    set q := points * (2 * maxBytes - size) / (2 * maxBytes * total)
    -- beyond the budget less than half of it is left, and the budget can be cancelled
    have hscaled : q * (2 * total) * maxBytes ≤ points * maxBytes :=
      calc q * (2 * total) * maxBytes = q * (2 * maxBytes * total) := by ring
        _ ≤ points * (2 * maxBytes - size) := Int.ediv_mul_le _ (by positivity)
        _ ≤ points * maxBytes := by gcongr; linarith
    exact le_of_mul_le_mul_right hscaled hmax
  · linarith

/-- The share does not go up with the size of the program. -/
theorem share_antitone (h : Scorable points maxBytes total buttons) :
    Antitone (share points maxBytes total) := by
  intro size size' hle
  have hpoints : 0 ≤ points := by linarith [h.points_pos]
  have hmax : 0 < maxBytes := by linarith [h.maxBytes_pos]
  by_cases hbeyond' : size' ≤ 2 * maxBytes
  · by_cases hwithin : size ≤ maxBytes
    · -- any share at all fits into half the points as often as the one within the budget
      rcases h.total_nonneg.eq_or_lt with htotal | htotal
      · simp [share, ← htotal]
      · conv_rhs => rw [share, if_pos hwithin, Int.tdiv_eq_ediv_of_nonneg hpoints]
        exact Int.le_ediv_of_mul_le (by linarith) h.share_mul_le
    · have hwithin' : ¬ size' ≤ maxBytes := by linarith
      have hleft : 0 ≤ points * (2 * maxBytes - size) := mul_nonneg hpoints (by linarith)
      have hleft' : 0 ≤ points * (2 * maxBytes - size') := mul_nonneg hpoints (by linarith)
      rw [share, share, if_neg hwithin, if_neg hwithin', if_pos hbeyond', if_pos (by linarith),
        Int.tdiv_eq_ediv_of_nonneg hleft, Int.tdiv_eq_ediv_of_nonneg hleft']
      rcases h.total_nonneg.eq_or_lt with htotal | htotal
      · simp [← htotal]
      · exact Int.ediv_le_ediv (by positivity) (by gcongr)
  · rw [share, if_neg (by linarith), if_neg hbeyond']
    exact h.share_nonneg

theorem share_eq_zero (h : Scorable points maxBytes total buttons) (hsize : 2 * maxBytes ≤ size) :
    share points maxBytes total size = 0 := by
  have hmax := h.maxBytes_pos
  unfold share
  split_ifs with hwithin hbeyond
  · linarith
  · rw [show 2 * maxBytes - size = 0 by linarith, mul_zero, Int.zero_tdiv]
  · rfl

/-! #### Complete solutions within the budget, and all others -/

theorem exactScore_of_full (hfull : buttons = total ∧ max bytes 1 ≤ maxBytes) :
    exactScore points maxBytes total buttons bytes = (points * maxBytes).tdiv (max bytes 1) :=
  if_pos hfull

/-- All others earn shares. Without buttons there are none to be earned. -/
theorem exactScore_of_not_full (h : Scorable points maxBytes total buttons)
    (hfull : ¬(buttons = total ∧ max bytes 1 ≤ maxBytes)) :
    exactScore points maxBytes total buttons bytes =
      buttons * share points maxBytes total (max bytes 1) := by
  rw [exactScore, if_neg hfull]
  split
  · next htotal =>
    have hbuttons : buttons = 0 := by linarith [h.buttons_nonneg, h.buttons_le]
    rw [hbuttons, zero_mul]
  · rfl

/-- A complete solution within the budget earns all points, and the more the shorter it is. -/
theorem points_le_full (h : Scorable points maxBytes total buttons)
    (hfull : buttons = total ∧ max bytes 1 ≤ maxBytes) :
    points ≤ exactScore points maxBytes total buttons bytes ∧
      exactScore points maxBytes total buttons bytes ≤ points * maxBytes := by
  have hpoints : 0 ≤ points := by linarith [h.points_pos]
  have hmax : 0 ≤ maxBytes := by linarith [h.maxBytes_pos]
  have hsize : 0 < max bytes 1 := lt_max_of_lt_right one_pos
  rw [exactScore_of_full hfull, Int.tdiv_eq_ediv_of_nonneg (mul_nonneg hpoints hmax)]
  refine ⟨Int.le_ediv_of_mul_le hsize ?_, Int.ediv_le_self _ (mul_nonneg hpoints hmax)⟩
  exact mul_le_mul_of_nonneg_left hfull.2 hpoints

/-- **All other solutions earn half the points at most.** -/
theorem two_mul_le_points (h : Scorable points maxBytes total buttons)
    (hfull : ¬(buttons = total ∧ max bytes 1 ≤ maxBytes)) :
    0 ≤ exactScore points maxBytes total buttons bytes ∧
      2 * exactScore points maxBytes total buttons bytes ≤ points := by
  have hnonneg : 0 ≤ share points maxBytes total (max bytes 1) := h.share_nonneg
  rw [h.exactScore_of_not_full hfull]
  refine ⟨mul_nonneg h.buttons_nonneg hnonneg, ?_⟩
  calc 2 * (buttons * share points maxBytes total (max bytes 1))
      ≤ 2 * (total * share points maxBytes total (max bytes 1)) := by
        gcongr
        exact h.buttons_le
    _ = share points maxBytes total (max bytes 1) * (2 * total) := by ring
    _ ≤ points := h.share_mul_le

theorem exactScore_bounds (h : Scorable points maxBytes total buttons) :
    0 ≤ exactScore points maxBytes total buttons bytes ∧
      exactScore points maxBytes total buttons bytes ≤ points * maxBytes := by
  have hpoints := h.points_pos
  by_cases hfull : buttons = total ∧ max bytes 1 ≤ maxBytes
  · obtain ⟨hle, hge⟩ := h.points_le_full hfull
    exact ⟨by linarith, hge⟩
  · obtain ⟨hnonneg, hhalf⟩ := h.two_mul_le_points hfull
    have hscaled : points ≤ points * maxBytes :=
      le_mul_of_one_le_right (by linarith) h.maxBytes_pos
    exact ⟨hnonneg, by linarith⟩

theorem points_le_exactScore_iff (h : Scorable points maxBytes total buttons) :
    points ≤ exactScore points maxBytes total buttons bytes ↔
      buttons = total ∧ max bytes 1 ≤ maxBytes := by
  refine ⟨fun hle ↦ ?_, fun hfull ↦ (h.points_le_full hfull).1⟩
  by_contra hfull
  linarith [h.points_pos, (h.two_mul_le_points hfull).2]

/-- **Pressing more buttons does not lower the score.** -/
theorem exactScore_mono {more : ℤ} (h : Scorable points maxBytes total buttons)
    (h' : Scorable points maxBytes total more) (hle : buttons ≤ more) :
    exactScore points maxBytes total buttons bytes ≤
      exactScore points maxBytes total more bytes := by
  have hpoints := h.points_pos
  by_cases hfull : buttons = total ∧ max bytes 1 ≤ maxBytes
  · rw [le_antisymm hle (hfull.1 ▸ h'.buttons_le)]
  obtain ⟨-, hhalf⟩ := h.two_mul_le_points hfull
  by_cases hfull' : more = total ∧ max bytes 1 ≤ maxBytes
  · linarith [(h'.points_le_full hfull').1]
  · rw [h.exactScore_of_not_full hfull, h'.exactScore_of_not_full hfull']
    exact mul_le_mul_of_nonneg_right hle h.share_nonneg

/-- **A longer program does not raise the score.** -/
theorem exactScore_antitone (h : Scorable points maxBytes total buttons) :
    Antitone (exactScore points maxBytes total buttons) := by
  intro bytes longer hle
  have hpoints := h.points_pos
  have hsizes : max bytes 1 ≤ max longer 1 := max_le_max_right 1 hle
  by_cases hfull : buttons = total ∧ max bytes 1 ≤ maxBytes
  · by_cases hfull' : buttons = total ∧ max longer 1 ≤ maxBytes
    · have hsize : 0 < max bytes 1 := lt_max_of_lt_right one_pos
      have hnonneg : 0 ≤ points * maxBytes :=
        mul_nonneg (by linarith) (by linarith [h.maxBytes_pos])
      have hquotient : 0 ≤ points * maxBytes / max longer 1 :=
        Int.ediv_nonneg hnonneg (hsize.le.trans hsizes)
      rw [exactScore_of_full hfull, exactScore_of_full hfull', Int.tdiv_eq_ediv_of_nonneg hnonneg,
        Int.tdiv_eq_ediv_of_nonneg hnonneg]
      refine Int.le_ediv_of_mul_le hsize ?_
      calc points * maxBytes / max longer 1 * max bytes 1
          ≤ points * maxBytes / max longer 1 * max longer 1 := by gcongr
        _ ≤ points * maxBytes := Int.ediv_mul_le _ (by linarith)
    · linarith [(h.points_le_full hfull).1, (h.two_mul_le_points hfull').2,
        (h.two_mul_le_points hfull').1]
  · have hfull' : ¬(buttons = total ∧ max longer 1 ≤ maxBytes) :=
      fun hall ↦ hfull ⟨hall.1, hsizes.trans hall.2⟩
    rw [h.exactScore_of_not_full hfull, h.exactScore_of_not_full hfull']
    exact mul_le_mul_of_nonneg_left (h.share_antitone hsizes) h.buttons_nonneg

theorem exactScore_eq_zero (h : Scorable points maxBytes total buttons)
    (hbytes : 2 * maxBytes ≤ bytes) : exactScore points maxBytes total buttons bytes = 0 := by
  have hmax := h.maxBytes_pos
  have hsize : 2 * maxBytes ≤ max bytes 1 := le_max_of_le_left hbytes
  have hfull : ¬(buttons = total ∧ max bytes 1 ≤ maxBytes) := fun hall ↦ by linarith [hall.2]
  rw [h.exactScore_of_not_full hfull, h.share_eq_zero hsize, mul_zero]

/-! #### No result wraps around -/

theorem word?_of_bounds {n : ℤ} (hle : 0 ≤ n) (hlt : n < 2 ^ 63) : word? n = some n :=
  if_pos ⟨by linarith, hlt⟩

theorem wordQuotient?_of_bounds {a b : ℤ} (ha : 0 ≤ a) (hlt : a < 2 ^ 63) (hb : 0 < b) :
    wordQuotient? a b = some (a.tdiv b) := by
  rw [wordQuotient?, if_neg hb.ne', Int.tdiv_eq_ediv_of_nonneg ha]
  exact word?_of_bounds (Int.ediv_nonneg ha hb.le) ((Int.ediv_le_self b ha).trans_lt hlt)

/-- Products of the points with what is left of twice the budget are small. -/
theorem points_mul_lt (h : Scorable points maxBytes total buttons) {n : ℤ} (hle : 0 ≤ n)
    (hlt : n ≤ maxBytes) : 0 ≤ points * n ∧ points * n < 2 ^ 63 := by
  have hpoints : 0 ≤ points := by linarith [h.points_pos]
  refine ⟨mul_nonneg hpoints hle, ?_⟩
  calc points * n ≤ 1000000 * 1000 :=
        mul_le_mul h.points_lt.le (hlt.trans h.maxBytes_lt.le) hle (by norm_num)
    _ < 2 ^ 63 := by norm_num

theorem checkedShare?_eq (h : Scorable points maxBytes total buttons) (htotal : 0 < total) :
    checkedShare? points maxBytes total size = some (share points maxBytes total size) := by
  have hmax := h.maxBytes_pos
  have hmax' := h.maxBytes_lt
  have htotal' := h.total_le
  have htwice : word? (2 * maxBytes) = some (2 * maxBytes) :=
    word?_of_bounds (by linarith) (by linarith)
  unfold checkedShare? share
  split_ifs with hwithin hbeyond
  · have hdivisor : word? (2 * total) = some (2 * total) :=
      word?_of_bounds (by linarith) (by linarith)
    rw [hdivisor]
    exact wordQuotient?_of_bounds (by linarith [h.points_pos]) (by linarith [h.points_lt])
      (by linarith)
  · have hleft : word? (2 * maxBytes - size) = some (2 * maxBytes - size) :=
      word?_of_bounds (by linarith) (by linarith)
    have hdividend := h.points_mul_lt (n := 2 * maxBytes - size) (by linarith) (by linarith)
    have hdivisor : 2 * maxBytes * total < 2 ^ 63 :=
      calc 2 * maxBytes * total ≤ 2 * 1000 * 2 ^ 48 := by gcongr
        _ < 2 ^ 63 := by norm_num
    simp only [htwice, Option.bind_eq_bind, Option.bind_some, if_pos hbeyond, hleft,
      word?_of_bounds hdividend.1 hdividend.2, word?_of_bounds (by positivity) hdivisor]
    exact wordQuotient?_of_bounds hdividend.1 hdividend.2 (by positivity)
  · simp only [htwice, Option.bind_eq_bind, Option.bind_some, if_neg hbeyond]

/-- **Within the bounds of levels, the checked computation comes to the exact score.** -/
theorem checkedScore?_eq (h : Scorable points maxBytes total buttons) (bytes : ℤ) :
    checkedScore? points maxBytes total buttons bytes =
      some (exactScore points maxBytes total buttons bytes) := by
  have hsize : (if bytes < 1 then 1 else bytes) = max bytes 1 := by
    split
    · next hlt => rw [max_eq_right hlt.le]
    · next hge => rw [max_eq_left (not_lt.1 hge)]
  unfold checkedScore?
  dsimp only
  rw [hsize]
  by_cases hfull : buttons = total ∧ max bytes 1 ≤ maxBytes
  · obtain ⟨hle, hlt⟩ := h.points_mul_lt (n := maxBytes) (by linarith [h.maxBytes_pos]) le_rfl
    rw [if_pos hfull, exactScore_of_full hfull, word?_of_bounds hle hlt]
    exact wordQuotient?_of_bounds hle hlt (lt_max_of_lt_right one_pos)
  rw [if_neg hfull]
  rcases h.total_nonneg.eq_or_lt with htotal | htotal
  · rw [if_pos htotal.symm, exactScore, if_neg hfull, if_pos htotal.symm]
  · obtain ⟨hnonneg, hhalf⟩ := h.two_mul_le_points hfull
    have hpoints := h.points_lt
    rw [h.exactScore_of_not_full hfull] at hnonneg hhalf ⊢
    rw [if_neg htotal.ne', h.checkedShare?_eq htotal]
    exact word?_of_bounds hnonneg (by linarith)

end Scorable

/-- **Scores are exact, bounded and monotone.** Within the bounds of levels, for a program of any
size: no result on the way to a score wraps around and no divisor is zero, so that there is a score,
and it is the one over the integers. It is between zero and the product of points and budget. It is
as high as the points exactly for complete solutions within the budget, and at most half as high for
all others. It does not go down with the number of pressed buttons, nor up with the size of the
program, and from twice the budget on it is zero. -/
theorem score_exact_and_monotone {points maxBytes total buttons : Int64}
    (h : Scorable points.toInt maxBytes.toInt total.toInt buttons.toInt) (bytes : Int64) :
    ∃ s, score? points maxBytes total buttons bytes = some s ∧
      checkedScore? points.toInt maxBytes.toInt total.toInt buttons.toInt bytes.toInt =
        some s.toInt ∧
      s.toInt = exactScore points.toInt maxBytes.toInt total.toInt buttons.toInt bytes.toInt ∧
      (0 ≤ s.toInt ∧ s.toInt ≤ points.toInt * maxBytes.toInt) ∧
      (points.toInt ≤ s.toInt ↔ buttons = total ∧ max bytes.toInt 1 ≤ maxBytes.toInt) ∧
      (¬(buttons = total ∧ max bytes.toInt 1 ≤ maxBytes.toInt) → 2 * s.toInt ≤ points.toInt) ∧
      (∀ more, buttons ≤ more → more ≤ total →
        ∃ s', score? points maxBytes total more bytes = some s' ∧ s ≤ s') ∧
      (∀ longer, bytes ≤ longer →
        ∃ s', score? points maxBytes total buttons longer = some s' ∧ s' ≤ s) ∧
      (2 * maxBytes.toInt ≤ bytes.toInt → s = 0) := by
  obtain ⟨s, hscore, hs⟩ := score?_of_checked (h.checkedScore?_eq bytes.toInt)
  rw [← Int64.toInt_inj]
  refine ⟨s, hscore, hs ▸ h.checkedScore?_eq bytes.toInt, hs, hs ▸ h.exactScore_bounds,
    hs ▸ h.points_le_exactScore_iff, fun hfull ↦ hs ▸ (h.two_mul_le_points hfull).2,
    fun more hle htotal ↦ ?_, fun longer hle ↦ ?_, fun hbytes ↦ ?_⟩
  · rw [Int64.le_iff_toInt_le] at hle htotal
    have h' : Scorable points.toInt maxBytes.toInt total.toInt more.toInt :=
      { h with buttons_nonneg := h.buttons_nonneg.trans hle, buttons_le := htotal }
    obtain ⟨s', hscore', hs'⟩ := score?_of_checked (h'.checkedScore?_eq bytes.toInt)
    refine ⟨s', hscore', Int64.le_iff_toInt_le.2 ?_⟩
    rw [hs, hs']
    exact h.exactScore_mono h' hle
  · obtain ⟨s', hscore', hs'⟩ := score?_of_checked (h.checkedScore?_eq longer.toInt)
    refine ⟨s', hscore', Int64.le_iff_toInt_le.2 ?_⟩
    rw [hs, hs']
    exact h.exactScore_antitone (Int64.le_iff_toInt_le.1 hle)
  · rw [← Int64.toInt_inj, hs, h.exactScore_eq_zero hbytes, Int64.toInt_zero]

/-- With all numbers as large as they can be, the highest score is that of a program without bytes.
One byte over the budget the buttons are worth nothing, because half the points cannot be shared
among so many. -/
theorem largest_level_scores :
    Scorable (999999 : Int64).toInt (999 : Int64).toInt (281474976710656 : Int64).toInt
      (281474976710656 : Int64).toInt ∧
    score? 999999 999 281474976710656 281474976710656 0 = some 998999001 ∧
    (∀ longer : Int64, 0 ≤ longer → ∃ s,
      score? 999999 999 281474976710656 281474976710656 longer = some s ∧ s ≤ 998999001) ∧
    score? 999999 999 281474976710656 281474976710656 1000 = some 0 := by
  have hscorable : Scorable (999999 : Int64).toInt (999 : Int64).toInt
      (281474976710656 : Int64).toInt (281474976710656 : Int64).toInt := by
    constructor <;> decide
  have hscore : score? 999999 999 281474976710656 281474976710656 0 = some 998999001 := by decide
  obtain ⟨s, hs, -, -, -, -, -, -, hlonger, -⟩ := score_exact_and_monotone hscorable 0
  obtain rfl : s = 998999001 := Option.some.inj (hs.symm.trans hscore)
  exact ⟨hscorable, hscore, hlonger, by decide⟩

end RobotGolf
