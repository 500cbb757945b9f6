import Mathlib.Data.List.Nodup
import RobotGolf.Proofs.Walls
/-!
# The walls of a level are its maximal runs

What the search finds has been told by the place where a run begins and the number of cells that
follow. Here this is said without the search. A run of wall cells is maximal if it cannot be
continued at either end, and the walls of a level are its maximal runs of two cells or more.

* **Runs from an origin are the maximal ones** (`Grid.maximalRun_iff`): no wall cell is in front of
  the first cell, and the run goes up to the first cell that is none.
* **Each has one wall** (`Level.Charted.count_walls`), because the walls are listed by their first
  cells in row-major order, the one to the right before the one downwards
  (`Level.Charted.pairwise_walls`).
* **The inaccessible positions are the wall cells, in row-major order**
  (`Level.Surveyed.mem_inaccessible_iff`, `Level.Surveyed.ascending_inaccessible`), however the
  walls cross or touch each other, and whatever the shape of the tree that holds them
  (`Level.Surveyed.toList_eq`).
-/

namespace RobotGolf

variable {g : Grid} {o : Orientation} {q : ℕ × ℕ} {n : ℕ}

/-! ### Runs that cannot be continued -/

/-- Two wall cells or more, one right behind the other, with no wall cell in front of the first and
none behind the last one. -/
structure Grid.MaximalRun (g : Grid) (o : Orientation) (q : ℕ × ℕ) (n : ℕ) : Prop where
  two_le : 2 ≤ n
  wallAt : ∀ i < n, g.WallAt (o.beyond q i)
  front : ∀ q', o.beyond q' 1 = q → ¬ g.WallAt q'
  behind : ¬ g.WallAt (o.beyond q n)

/-- No wall cell is behind a run. -/
theorem Grid.not_wallAt_run (hq : g.WallAt q) : ¬ g.WallAt (o.beyond q (g.run o q)) := by
  intro hbehind
  have hpos : 0 < g.run o q := lt_run_iff.2 fun j hj ↦ by
    rwa [Nat.le_zero.1 hj, Orientation.beyond_zero]
  -- a wall cell behind the last one of the run would have been followed as well
  rw [← Nat.sub_add_cancel hpos] at hbehind
  have hlt := succ_lt_run (Nat.sub_lt hpos Nat.one_pos) hbehind
  omega

/-- **Maximal are the runs from an origin**, and they are as long as they are followed. -/
theorem Grid.maximalRun_iff :
    g.MaximalRun o q n ↔ g.IsOrigin o q ∧ 1 < g.run o q ∧ n = g.run o q := by
  constructor
  · intro h
    have htwo := h.two_le
    have horigin : g.IsOrigin o q := by
      refine ⟨?_, h.front⟩
      rw [← o.beyond_zero q]
      exact h.wallAt 0 (by omega)
    have hle : n - 1 < g.run o q := lt_run_iff.2 fun j hj ↦ h.wallAt j (by omega)
    have hge : ¬ n < g.run o q := fun hlt ↦ h.behind (lt_run_iff.1 hlt n le_rfl)
    exact ⟨horigin, by omega, by omega⟩
  · intro h
    obtain ⟨horigin, hrun, rfl⟩ := h
    exact ⟨hrun, fun i hi ↦ lt_run_iff.1 hi i le_rfl, horigin.front,
      not_wallAt_run horigin.wallAt⟩

/-! ### One wall for each run -/

/-- A wall is a run of a grid: it has its direction, its first cell and its length. -/
structure Wall.Spans (w : Wall) (o : Orientation) (q : ℕ × ℕ) (n : ℕ) : Prop where
  orientation : w.orientation = o
  row : w.origin.row.toInt = q.1
  col : w.origin.col.toInt = q.2
  length : w.length.toInt = n

/-- The order in which walls are listed: by their origins in row-major order, and at one origin the
horizontal wall before the vertical one. -/
def Wall.Before (w w' : Wall) : Prop :=
  w.origin.place < w'.origin.place ∨
    w.origin = w'.origin ∧ w.orientation = .horizontal ∧ w'.orientation = .vertical

theorem Wall.Before.ne {w w' : Wall} (h : w.Before w') : w ≠ w' := by
  intro heq
  obtain hlt | ⟨-, hhorizontal, hvertical⟩ := h
  · exact hlt.ne (congrArg (·.origin.place) heq)
  · rw [heq, hvertical] at hhorizontal
    exact absurd hhorizontal (by decide)

/-- What begins at one place is in order. -/
theorem Grid.pairwise_wallsFrom (g : Grid) (q : ℕ × ℕ) :
    (g.wallsFrom .horizontal q ++ g.wallsFrom .vertical q).Pairwise Wall.Before := by
  have hone : ∀ o, (g.wallsFrom o q).Pairwise Wall.Before := by
    intro o
    rw [wallsFrom]
    split
    · exact List.pairwise_singleton ..
    · exact List.Pairwise.nil
  refine List.pairwise_append.2 ⟨hone _, hone _, fun w hw w' hw' ↦ Or.inr ?_⟩
  obtain ⟨-, rfl⟩ := mem_wallsFrom_iff.1 hw
  obtain ⟨-, rfl⟩ := mem_wallsFrom_iff.1 hw'
  exact ⟨rfl, rfl, rfl⟩

namespace Level

variable {l : Level} {p : Position}

namespace Charted

theorem spans_wall (h : l.Charted) (o : Orientation) (hq : l.grid.WallAt q) :
    (l.grid.wall o q).Spans o q (l.grid.run o q) := by
  obtain ⟨hrow, hcol⟩ := h.toInt_ofIndex hq
  exact ⟨rfl, hrow, hcol, Int64.toInt_ofNat_of_lt (h.run_lt o q)⟩

/-- **The walls are in order.** -/
theorem pairwise_walls (h : l.Charted) : l.grid.walls.Pairwise Wall.Before := by
  have horigin : ∀ {q w}, w ∈ l.grid.wallsFrom .horizontal q ++ l.grid.wallsFrom .vertical q →
      w.origin = Position.ofIndex q.1 q.2 := by
    intro q w hw
    obtain hw | hw := List.mem_append.1 hw <;> rw [(Grid.mem_wallsFrom_iff.1 hw).2] <;> rfl
  rw [Grid.walls_eq, List.pairwise_flatMap]
  refine ⟨fun q _ ↦ l.grid.pairwise_wallsFrom q, ?_⟩
  -- what begins at different cells is in the order of these
  refine l.grid.pairwise_wallCells.imp_of_mem fun {q q'} hq hq' hprecedes w hw w' hw' ↦ ?_
  have hlt := h.place_ofIndex_lt (Grid.mem_wallCells_iff.1 hq) (Grid.mem_wallCells_iff.1 hq')
    hprecedes
  exact Or.inl (by rwa [horigin hw, horigin hw'])

/-- **No wall is found twice.** -/
theorem count_walls (h : l.Charted) {w : Wall} (hw : w ∈ l.grid.walls) :
    l.grid.walls.count w = 1 :=
  List.count_eq_one_of_mem (h.pairwise_walls.imp Wall.Before.ne) hw

end Charted

/-! ### Inaccessible positions -/

theorem Surveyed.covered_iff (hcharted : l.Charted) (h : l.Surveyed) :
    (∃ w ∈ l.walls, p ∈ w.cells) ↔ l.cell? p = some .wall := by
  rw [← List.mem_flatMap, h.mem_cells_iff hcharted, hcharted.mem_positions_iff]

theorem Surveyed.mem_inaccessible_iff (hcharted : l.Charted) (h : l.Surveyed) :
    p ∈ l.inaccessible.toList ↔ l.cell? p = some .wall := by
  rw [h.inaccessible, PositionSet.mem_toList_ofList, List.mem_flatMap, h.covered_iff hcharted]

theorem Surveyed.ascending_inaccessible (hcharted : l.Charted) (h : l.Surveyed) :
    PositionSet.Ascending l.inaccessible.toList := by
  rw [h.inaccessible]
  refine PositionSet.ascending_toList_ofList fun q hq ↦ ?_
  exact hcharted.isIndex_of_mem ((h.mem_cells_iff hcharted).1 hq)

/-- **Any search tree of the cells that the walls cover** lists the same positions. -/
theorem Surveyed.toList_eq (hcharted : l.Charted) (h : l.Surveyed) {t : PositionSet}
    (ht : t.IsSearchTree) (hmem : ∀ p, p ∈ t.toList ↔ ∃ w ∈ l.walls, p ∈ w.cells) :
    t.toList = l.inaccessible.toList := by
  have hindex : ∀ q ∈ t.toList, q.IsIndex := fun q hq ↦
    hcharted.isIndex_of_mem ((h.mem_cells_iff hcharted).1 (List.mem_flatMap.2 ((hmem q).1 hq)))
  refine ((PositionSet.isSearchTree_iff_ascending hindex).1 ht).eq_of_mem_iff
    (h.ascending_inaccessible hcharted) fun p ↦ ?_
  rw [hmem, h.covered_iff hcharted, h.mem_inaccessible_iff hcharted]

/-! ### The result -/

/-- **The walls of a level that was loaded are its maximal runs**: every wall is one, to the right
or downwards, and every one is listed once. They are ordered by their first cells, the horizontal
before the vertical. The inaccessible positions are those that a wall covers, which are those whose
cell is a wall. They are listed in row-major order without repeats, and any search tree of them
would list them so. -/
theorem walls_are_maximal_runs (o : Options) (feed : Feed) (l : Level)
    (h : load o feed = .ok l) :
    (∀ w ∈ l.walls, ∃ d ∈ [Orientation.horizontal, .vertical], ∃ q n,
      l.grid.MaximalRun d q n ∧ w.Spans d q n) ∧
    (∀ d ∈ [Orientation.horizontal, .vertical], ∀ q n, l.grid.MaximalRun d q n →
      ∃ w, w.Spans d q n ∧ l.walls.count w = 1) ∧
    l.walls.Pairwise Wall.Before ∧
    (∀ p, (∃ w ∈ l.walls, p ∈ w.cells) ↔ l.cell? p = some .wall) ∧
    (∀ p, p ∈ l.inaccessible.toList ↔ l.cell? p = some .wall) ∧
    PositionSet.Ascending l.inaccessible.toList ∧
    (∀ t : PositionSet, t.IsSearchTree → (∀ p, p ∈ t.toList ↔ ∃ w ∈ l.walls, p ∈ w.cells) →
      t.toList = l.inaccessible.toList) := by
  have hcharted := charted_of_load h
  have hsurveyed := surveyed_of_load h
  refine ⟨fun w hw ↦ ?_, fun d hd q n hmaximal ↦ ?_, ?_, fun p ↦ hsurveyed.covered_iff hcharted,
    fun p ↦ hsurveyed.mem_inaccessible_iff hcharted, hsurveyed.ascending_inaccessible hcharted,
    fun t ht hmem ↦ hsurveyed.toList_eq hcharted ht hmem⟩
  · rw [hsurveyed.walls] at hw
    obtain ⟨d, hd, q, horigin, hrun, rfl⟩ := Grid.mem_walls_iff.1 hw
    exact ⟨d, hd, q, _, Grid.maximalRun_iff.2 ⟨horigin, hrun, rfl⟩,
      hcharted.spans_wall d horigin.wallAt⟩
  · obtain ⟨horigin, hrun, rfl⟩ := Grid.maximalRun_iff.1 hmaximal
    refine ⟨l.grid.wall d q, hcharted.spans_wall d horigin.wallAt, ?_⟩
    rw [hsurveyed.walls]
    exact hcharted.count_walls (Grid.mem_walls_iff.2 ⟨d, hd, q, horigin, hrun, rfl⟩)
  · rw [hsurveyed.walls]
    exact hcharted.pairwise_walls

/-- A yard with walls that share their first cell, cross and touch. -/
def yard : Level :=
  ofGrid "yard" 3 3 5 10 ⟨Position.ofIndex 0 2, .right⟩
    [[.wall, .wall, .empty], [.wall, .wall, .empty], [.empty, .wall, .wall]]

/-- The wall cells of the yard, in a tree that leans to the right. -/
def leaningTree : PositionSet :=
  [(0, 0), (0, 1), (1, 0), (1, 1), (2, 1), (2, 2)].foldr
    (fun q t ↦ .node .empty (Position.ofIndex q.1 q.2) t) .empty

/-- The middle column is one wall of three cells, though three others cross it. Any search tree
lists the cells in the same order. -/
theorem yard_middle_wall :
    load ⟨3, 3, "yard"⟩ (.ofBytes (Bytes.ofString "**r\n**.\n.**\n5\n10")) = .ok yard ∧
    yard.grid.MaximalRun .vertical (0, 1) 3 ∧
    (∃ w, w.Spans .vertical (0, 1) 3 ∧ yard.walls.count w = 1) ∧
    yard.walls.length = 5 ∧ yard.walls.Pairwise Wall.Before ∧
    PositionSet.Ascending yard.inaccessible.toList ∧
    leaningTree ≠ yard.inaccessible ∧ leaningTree.IsSearchTree ∧
    (∀ p, p ∈ leaningTree.toList ↔ ∃ w ∈ yard.walls, p ∈ w.cells) ∧
    leaningTree.toList = yard.inaccessible.toList := by
  have hload : load ⟨3, 3, "yard"⟩ (.ofBytes (Bytes.ofString "**r\n**.\n.**\n5\n10")) =
      .ok yard :=
    load_eq_ofWalls (by decide +kernel)
  obtain ⟨-, hruns, hbefore, -, -, hascending, htrees⟩ :=
    walls_are_maximal_runs _ _ _ hload
  have hmiddle : yard.grid.MaximalRun .vertical (0, 1) 3 := by
    refine ⟨by decide, ?_, ?_, ?_⟩
    · show ∀ i < 3, item? yard.grid (Orientation.vertical.beyond (0, 1) i) = some .wall
      decide
    · intro q' hq'
      exact absurd (congrArg Prod.fst hq') (Nat.succ_ne_zero q'.1)
    · show item? yard.grid (Orientation.vertical.beyond (0, 1) 3) ≠ some .wall
      decide
  have htree : leaningTree.IsSearchTree := by
    simp only [leaningTree, List.foldr, PositionSet.IsSearchTree, PositionSet.toList]
    decide
  have hcells : ∀ p, p ∈ leaningTree.toList ↔ ∃ w ∈ yard.walls, p ∈ w.cells := by
    have hsub : ∀ p ∈ leaningTree.toList, ∃ w ∈ yard.walls, p ∈ w.cells := by decide +kernel
    have hsup : ∀ w ∈ yard.walls, ∀ p ∈ w.cells, p ∈ leaningTree.toList := by decide +kernel
    refine fun p ↦ ⟨hsub p, ?_⟩
    rintro ⟨w, hw, hp⟩
    exact hsup w hw p hp
  have hlist := htrees _ htree hcells
  have hother : leaningTree ≠ yard.inaccessible := by
    have hsorted : yard.inaccessible = .ofSorted yard.inaccessible.toList := by
      show PositionSet.ofList _ = .ofSorted (PositionSet.ofList _).toList
      rw [PositionSet.ofList, PositionSet.toList_ofSorted]
    rw [hsorted, ← hlist]
    decide +kernel
  exact ⟨hload, hmiddle, hruns _ (by decide) _ _ hmiddle, by decide +kernel, hbefore, hascending,
    hother, htree, hcells, hlist⟩

end Level

end RobotGolf
