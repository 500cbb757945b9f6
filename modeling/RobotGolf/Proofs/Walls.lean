import RobotGolf.Proofs.Chart
import RobotGolf.Proofs.WallSearch
/-!
# The walls of a level are those of its grid

The grid says which cells are walls, but it is the set of inaccessible positions that stops the
robot. That set is made of the walls that were found: runs of wall cells from an origin on, to the
right or downwards, and only runs with more than one cell. In a level that was loaded it holds the
wall cells all the same (`Level.Surveyed.isInaccessible_iff`).

* **Cells of walls are wall cells**, because a run ends in front of the first cell that is none
  (`Grid.lt_run_iff`).
* **Wall cells are cells of walls**, because the survey has passed each of them with another one
  beside it. The two lie in one run, and going back along it leads to its origin
  (`Grid.exists_origin`).
-/

namespace RobotGolf

variable {g : Grid} {o : Orientation} {q : ℕ × ℕ} {i : ℕ}

namespace Grid

/-- The cells of a wall are those of its run. -/
theorem mem_cells_wall_iff (hrun : g.run o q < 2 ^ 63) {p : Position} : p ∈ (g.wall o q).cells ↔
    ∃ i < g.run o q, Position.ofIndex (o.beyond q i).1 (o.beyond q i).2 = p := by
  have hcell : ∀ i, (g.wall o q).cell i =
      Position.ofIndex (o.beyond q i).1 (o.beyond q i).2 := by
    intro i
    by_cases ho : o = .horizontal <;>
      simp [Wall.cell, wall, Orientation.beyond, Position.ofIndex, Int64.ofNat_add, ho]
  have hlength : (g.wall o q).length.toInt.toNat = g.run o q := by
    show (Int64.ofNat _).toInt.toNat = _
    rw [Int64.toInt_ofNat_of_lt hrun, Int.toNat_natCast]
  simp only [Wall.cells, List.mem_map, List.mem_range, hlength, hcell]

end Grid

/-! ### Levels -/

namespace Level

/-- What the survey has made sure of, and what was made of the grid: walls are found in it, no wall
cell stands alone, and the robot starts from an empty cell with one of the four headings. -/
structure Surveyed (l : Level) : Prop where
  walls : l.walls = l.grid.walls
  inaccessible : l.inaccessible = .ofList (l.walls.flatMap Wall.cells)
  joined : ∀ q, l.grid.WallAt q → ∃ q', Picture.Beside q q' ∧ l.grid.WallAt q'
  robot : ∃ q, item? l.grid q = some .empty ∧ l.robot.position = Position.ofIndex q.1 q.2
  heading : l.robot.heading ∈ [Heading.up, .right, .down, .left]

variable {l : Level} {p : Position}

/-- **A level that was loaded has been surveyed.** -/
theorem surveyed_of_load {o : Options} {feed : Feed} (h : load o feed = .ok l) : l.Surveyed := by
  obtain ⟨tiles, points, maxBytes, hreadable⟩ := exists_readable_of_load h
  obtain ⟨_, _, _, htiles, -, -⟩ := hreadable.parts
  obtain ⟨lines, -, -, rfl, -⟩ := (readTiles_eq_ok_iff (toInt_cols_pos hreadable.cols)
    (toInt_add_one hreadable.cols_ne_maxValue)).1 htiles
  have hdiagnosis := Picture.diagnosis_survey lines
  rw [Picture.grid] at hdiagnosis
  rw [hreadable.load_eq] at h
  generalize survey (lines.tiles.map (·.map Tile.toCell)) none .empty (indexedTiles lines.tiles) =
    result at h hdiagnosis
  rcases hdiagnosis with - | - | - | @⟨q, k, hproper, symbol, hsymbol, hitem⟩
  case robot =>
    obtain rfl := Except.ok.inj h
    refine ⟨rfl, rfl, fun q hq ↦ ?_, ⟨q, ?_, rfl⟩, ?_⟩
    · obtain ⟨q', hbeside, hq'⟩ := hproper.walls q (Picture.wallAt_grid_iff.1 hq)
      exact ⟨q', hbeside, Picture.wallAt_grid_iff.2 hq'⟩
    · show item? lines.grid q = some .empty
      rw [Picture.grid, Picture.tiles, item?_map, item?_map, hitem, Option.map_some,
        Tile.ofSymbol_eq_robot_iff.2 hsymbol]
      rfl
    · exact List.mem_map_of_mem (f := Prod.snd) hsymbol
  all_goals cases h

/-- A run is not longer than the grid is wide or high. -/
theorem Charted.run_lt (h : l.Charted) (o : Orientation) (q : ℕ × ℕ) :
    l.grid.run o q < 2 ^ 63 := by
  have hrows := h.rows_lt
  have hcols := h.cols_lt
  rcases Nat.eq_zero_or_pos (l.grid.run o q) with hzero | hpos
  · omega
  · -- its last cell is a cell of the grid
    have hlast : l.grid.WallAt (o.beyond q (l.grid.run o q - 1)) :=
      Grid.lt_run_iff.1 (Nat.sub_lt hpos Nat.one_pos) _ le_rfl
    have hinside := h.lt_of_item? hlast
    generalize l.grid.run o q = n at *
    unfold Orientation.beyond at hinside
    split at hinside <;> dsimp only at hinside <;> omega

/-- Two wall cells, one right behind the other, are covered by one wall. -/
theorem Charted.exists_wall (h : l.Charted) {o : Orientation}
    (ho : o ∈ [Orientation.horizontal, .vertical]) {q : ℕ × ℕ} (hq : l.grid.WallAt q)
    (hnext : l.grid.WallAt (o.beyond q 1)) : ∃ w ∈ l.grid.walls,
      Position.ofIndex q.1 q.2 ∈ w.cells ∧
      Position.ofIndex (o.beyond q 1).1 (o.beyond q 1).2 ∈ w.cells := by
  obtain ⟨q₀, i, horigin, hi, rfl⟩ := Grid.exists_origin o hq
  rw [Orientation.beyond_beyond] at hnext ⊢
  have hnext := Grid.succ_lt_run hi hnext
  have hrun := h.run_lt o q₀
  refine ⟨l.grid.wall o q₀, Grid.mem_walls_iff.2 ⟨o, ho, q₀, horigin, by omega, rfl⟩, ?_, ?_⟩
  · exact (Grid.mem_cells_wall_iff hrun).2 ⟨i, hi, rfl⟩
  · exact (Grid.mem_cells_wall_iff hrun).2 ⟨i + 1, hnext, rfl⟩

/-- **What the walls of a level cover**: the wall cells of its grid. -/
theorem Surveyed.mem_cells_iff (hcharted : l.Charted) (h : l.Surveyed) :
    p ∈ l.walls.flatMap Wall.cells ↔ p ∈ l.grid.positions .wall := by
  rw [List.mem_flatMap, h.walls, Charted.mem_positions]
  constructor
  · rintro ⟨w, hw, hp⟩
    obtain ⟨o, -, q, -, -, rfl⟩ := Grid.mem_walls_iff.1 hw
    obtain ⟨i, hi, rfl⟩ := (Grid.mem_cells_wall_iff (hcharted.run_lt o q)).1 hp
    exact ⟨o.beyond q i, Grid.lt_run_iff.1 hi i le_rfl, rfl⟩
  · rintro ⟨q, hq, rfl⟩
    -- the cell and the one beside it are covered together, whichever comes first
    obtain ⟨q', hbeside, hq'⟩ := h.joined q hq
    obtain ⟨o, ho, rfl | rfl⟩ := Picture.beside_iff.1 hbeside
    · obtain ⟨w, hw, hp, -⟩ := hcharted.exists_wall ho hq hq'
      exact ⟨w, hw, hp⟩
    · obtain ⟨w, hw, -, hp⟩ := hcharted.exists_wall ho hq' hq
      exact ⟨w, hw, hp⟩

/-- **Inaccessible are the wall cells of the grid**, and nothing else. -/
theorem Surveyed.isInaccessible_iff (hcharted : l.Charted) (h : l.Surveyed) :
    l.isInaccessible p = true ↔ l.cell? p = some .wall := by
  rw [isInaccessible, h.inaccessible, PositionSet.contains_ofList, h.mem_cells_iff hcharted,
    hcharted.mem_positions_iff]
  intro q hq
  exact hcharted.isIndex_of_mem ((h.mem_cells_iff hcharted).1 hq)

/-- The positions within the bounds are those with a cell. -/
theorem Charted.inBounds_iff (h : l.Charted) :
    l.inBounds p = true ↔ ∃ c, l.cell? p = some c := by
  simp only [inBounds, Bool.and_eq_true, decide_eq_true_eq, Int64.le_iff_toInt_le, Int64.toInt_zero]
  rw [cell?, Grid.cell?]
  constructor
  · rintro ⟨⟨⟨hrow, hrows⟩, hcol⟩, hcols⟩
    have hinside : ¬ (p.row < 0 ∨ p.col < 0) := by
      rw [Int64.lt_iff_toInt_lt, Int64.lt_iff_toInt_lt, Int64.toInt_zero]
      omega
    rw [if_neg hinside, Grid.at?]
    have hlt : p.row.toInt.toNat < l.grid.length := by
      rw [h.height]
      omega
    rw [List.getElem?_eq_getElem hlt, Option.bind_some]
    have hlt' : p.col.toInt.toNat < l.grid[p.row.toInt.toNat].length := by
      rw [h.width _ (List.getElem_mem hlt)]
      omega
    exact ⟨_, List.getElem?_eq_getElem hlt'⟩
  · rintro ⟨c, hcell⟩
    split at hcell
    · cases hcell
    rename_i hinside
    obtain ⟨hrows, hcols⟩ := h.lt_of_item? (q := (p.row.toInt.toNat, p.col.toInt.toNat)) hcell
    rw [Int64.lt_iff_toInt_lt, Int64.lt_iff_toInt_lt, Int64.toInt_zero] at hinside
    omega

end Level

end RobotGolf
