import RobotGolf.Proofs.Walls
/-!
# The views of a level agree with its grid

A level answers questions about its cells in three ways: by its grid, by its lists of buttons, and
by its sets of buttons and of wall cells. A set is asked for positions of any coordinates, also for
ones that no grid has, where the differences that lead a look-up wrap around. For a level that was
loaded all of this comes to the same (`Level.views_agree`), and it does not depend on the shape of
the trees that hold the sets.

The work is done elsewhere: lists are compared with the grid in `Level.Charted`, walls in
`Level.Surveyed`, and look-ups in `PositionSet.IsSearchTree`. What is left to say is that a position
has a cell if it is in bounds, and that the cell is of one kind.
-/

namespace RobotGolf.Level

variable {l : Level} {p : Position} {c : Cell}

/-- A position with a cell is in bounds. -/
theorem Charted.inBounds_and_cell?_iff (h : l.Charted) :
    l.inBounds p = true ∧ l.cell? p = some c ↔ l.cell? p = some c :=
  and_iff_right_of_imp fun hcell ↦ h.inBounds_iff.2 ⟨c, hcell⟩

theorem Charted.mem_grayButtons_iff (h : l.Charted) :
    p ∈ l.grayButtons ↔ l.cell? p = some .gray := by
  rw [h.grayButtons, h.mem_positions_iff]

theorem Charted.mem_whiteButtons_iff (h : l.Charted) :
    p ∈ l.whiteButtons ↔ l.cell? p = some .white := by
  rw [h.whiteButtons, h.mem_positions_iff]

theorem Surveyed.cell?_robot (hcharted : l.Charted) (h : l.Surveyed) :
    l.cell? l.robot.position = some .empty := by
  obtain ⟨q, hitem, hposition⟩ := h.robot
  exact hcharted.mem_positions_iff.1 (Charted.mem_positions.2 ⟨q, hitem, hposition.symm⟩)

/-- The three sets answer by the cell. -/
theorem Surveyed.answers (hcharted : l.Charted) (h : l.Surveyed) (p : Position) :
    l.isInaccessible p = decide (l.cell? p = some .wall) ∧
      l.isGrayButton p = decide (l.cell? p = some .gray) ∧
      l.isWhiteButton p = decide (l.cell? p = some .white) := by
  refine ⟨?_, ?_, ?_⟩ <;> rw [Bool.eq_iff_iff, decide_eq_true_iff]
  · exact h.isInaccessible_iff hcharted
  · exact hcharted.isGrayButton_iff.trans hcharted.mem_grayButtons_iff
  · exact hcharted.isWhiteButton_iff.trans hcharted.mem_whiteButtons_iff

/-- **The views of a level agree with its grid for every coordinate.** Let a level be loaded. Its
grid has as many rows and columns as the level says. Its lists of buttons have the positions of such
cells, each once and in row-major order. A position in bounds has a wall, a gray button, a white
button or an empty cell, and only one of them; the robot starts from an empty one. For every
position, whatever its coordinates are, the three sets tell whether it is in bounds and has such a
cell, and any search tree with the same members would tell the same. -/
theorem views_agree (o : Options) (feed : Feed) (l : Level) (h : load o feed = .ok l) :
    (l.grid.length = l.rows ∧ ∀ row ∈ l.grid, row.length = l.cols) ∧
    (∀ p, (p ∈ l.grayButtons ↔ l.cell? p = some .gray) ∧
      (p ∈ l.whiteButtons ↔ l.cell? p = some .white)) ∧
    (l.grayButtons.Nodup ∧ PositionSet.Ascending l.grayButtons) ∧
    (l.whiteButtons.Nodup ∧ PositionSet.Ascending l.whiteButtons) ∧
    (∀ p, l.inBounds p = true → [l.isInaccessible p, l.isGrayButton p, l.isWhiteButton p,
      decide (l.cell? p = some .empty)].count true = 1) ∧
    (l.inBounds l.robot.position = true ∧ l.cell? l.robot.position = some .empty) ∧
    (∀ p, (l.isInaccessible p = true ↔ l.inBounds p = true ∧ l.cell? p = some .wall) ∧
      (l.isGrayButton p = true ↔ l.inBounds p = true ∧ l.cell? p = some .gray) ∧
      (l.isWhiteButton p = true ↔ l.inBounds p = true ∧ l.cell? p = some .white)) ∧
    (∀ kind (t : PositionSet), t.IsSearchTree → (∀ q, q ∈ t.toList ↔ l.cell? q = some kind) →
      ∀ p, t.contains p = true ↔ l.inBounds p = true ∧ l.cell? p = some kind) := by
  have hcharted := charted_of_load h
  have hsurveyed := surveyed_of_load h
  have hrobot := hsurveyed.cell?_robot hcharted
  refine ⟨⟨hcharted.height, hcharted.width⟩,
    fun p ↦ ⟨hcharted.mem_grayButtons_iff, hcharted.mem_whiteButtons_iff⟩, ?_, ?_, fun p hp ↦ ?_,
    ⟨hcharted.inBounds_iff.2 ⟨_, hrobot⟩, hrobot⟩, fun p ↦ ?_, fun kind t ht hmem p ↦ ?_⟩
  · rw [hcharted.grayButtons]
    exact ⟨hcharted.nodup_positions _, hcharted.ascending_positions _⟩
  · rw [hcharted.whiteButtons]
    exact ⟨hcharted.nodup_positions _, hcharted.ascending_positions _⟩
  · obtain ⟨c, hc⟩ := hcharted.inBounds_iff.1 hp
    obtain ⟨hwall, hgray, hwhite⟩ := hsurveyed.answers hcharted p
    rw [hwall, hgray, hwhite, hc]
    cases c <;> decide
  · obtain ⟨hwall, hgray, hwhite⟩ := hsurveyed.answers hcharted p
    simp only [hcharted.inBounds_and_cell?_iff, hwall, hgray, hwhite, decide_eq_true_eq,
      and_self]
  · rw [ht.contains_iff, hmem, hcharted.inBounds_and_cell?_iff]

/-- A patch with a button of either kind, and a wall down its last column. -/
def patch : Level :=
  ofGrid "patch" 2 3 5 10 ⟨Position.ofIndex 0 0, .right⟩
    [[.empty, .gray, .wall], [.white, .empty, .wall]]

/-- The row before all rows of the patch has a positive difference to its second one. There is no
wall to be found in it all the same. -/
theorem patch_views :
    load ⟨2, 3, "patch"⟩ (.ofBytes (Bytes.ofString "rg*\nw.*\n5\n10")) = .ok patch ∧
    0 < Position.difference ⟨Int64.minValue, 2⟩ (Position.ofIndex 1 2) ∧
    patch.isInaccessible (Position.ofIndex 1 2) = true ∧
    patch.isInaccessible ⟨Int64.minValue, 2⟩ = false ∧
    Position.ofIndex 0 1 ∈ patch.grayButtons := by
  have hload : load ⟨2, 3, "patch"⟩ (.ofBytes (Bytes.ofString "rg*\nw.*\n5\n10")) =
      .ok patch :=
    load_eq_ofWalls (by decide +kernel)
  obtain ⟨-, hbuttons, -, -, -, -, hsets, -⟩ := views_agree _ _ _ hload
  refine ⟨hload, by decide, (hsets _).1.2 ⟨by decide, by decide⟩, ?_,
    (hbuttons _).1.2 (by decide)⟩
  exact Bool.eq_false_iff.2 fun h ↦ absurd ((hsets _).1.1 h).1 (by decide)

end RobotGolf.Level
