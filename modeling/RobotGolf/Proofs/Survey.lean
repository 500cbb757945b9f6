import RobotGolf.Proofs.WallSearch
/-!
# What the survey of a grid finds

Here a grid is given by the symbols that it is stored with, a `Picture`. What is asked of it is said
in terms of its cells: where a robot stands, which cells are walls, and which of them are next to
each other. `Picture.Proper` is what a level needs. A cell is at fault (`Picture.Faulty`) if it
holds a robot and an earlier cell does as well, or if it is a wall cell with no other beside it.

`Level.survey` looks at the cells one by one. While it has found nothing wrong, the robot that it
keeps in mind is the only one among the cells behind it, each wall cell among them has another one
next to it, and the search for walls has visited these cells in their order (`Survey.Passed`). A
visit tells of the next wall cell whether there is another one beside it (`Grid.Swept.visit_iff`),
which the survey does not look at itself. So when it stops, it stops at the first cell that is at
fault, and when it does not stop the picture is proper or has no robot (`Picture.diagnosis_survey`).
-/

namespace RobotGolf

/-! ### Pictures -/

/-- The lines of a stored grid. -/
abbrev Picture := List (List Char)

namespace Picture

/-- The symbols of a robot, with its headings. -/
def headings : List (Char × Heading) :=
  [('u', .up), ('r', .right), ('d', .down), ('l', .left)]

/-- A robot stands at `p`, with a heading. -/
def RobotAt (lines : Picture) (p : ℕ × ℕ) (h : Heading) : Prop :=
  ∃ symbol, (symbol, h) ∈ headings ∧ item? lines p = some symbol

/-- There is a wall cell at `p`. -/
def WallAt (lines : Picture) (p : ℕ × ℕ) : Prop := item? lines p = some '*'

/-- Two places are horizontally or vertically next to each other. -/
def Beside (p q : ℕ × ℕ) : Prop :=
  (p.1 = q.1 ∧ (p.2 = q.2 + 1 ∨ q.2 = p.2 + 1)) ∨ (p.2 = q.2 ∧ (p.1 = q.1 + 1 ∨ q.1 = p.1 + 1))

/-- A wall cell with no wall cell next to it. -/
def IsolatedAt (lines : Picture) (p : ℕ × ℕ) : Prop :=
  lines.WallAt p ∧ ∀ q, Beside p q → ¬ lines.WallAt q

/-- A robot that is not the first one. -/
def SecondRobotAt (lines : Picture) (p : ℕ × ℕ) : Prop :=
  (∃ h, lines.RobotAt p h) ∧ ∃ q k, Precedes q p ∧ lines.RobotAt q k

/-- A cell that makes a picture improper. -/
def Faulty (lines : Picture) (p : ℕ × ℕ) : Prop := lines.SecondRobotAt p ∨ lines.IsolatedAt p

/-- The first faulty cell in row-major order. -/
def FirstFault (lines : Picture) (p : ℕ × ℕ) : Prop :=
  lines.Faulty p ∧ ∀ q, Precedes q p → ¬ lines.Faulty q

/-- The picture of a level: there is exactly one robot, and all walls are joined. -/
structure Proper (lines : Picture) : Prop where
  robot : ∃! p, ∃ h, lines.RobotAt p h
  walls : ∀ p, lines.WallAt p → ∃ q, Beside p q ∧ lines.WallAt q

/-- No cell of a proper picture is at fault. -/
theorem Proper.not_faulty {lines : Picture} (h : lines.Proper) (p : ℕ × ℕ) : ¬ lines.Faulty p := by
  rintro (⟨hrobot, q, k, hprecedes, hq⟩ | ⟨hwall, hisolated⟩)
  · have hsame : q = p := h.robot.unique ⟨k, hq⟩ hrobot
    exact Precedes.irrefl p (hsame ▸ hprecedes)
  · obtain ⟨q, hbeside, hq⟩ := h.walls p hwall
    exact hisolated q hbeside hq

/-- A picture with a robot and no fault is proper. -/
theorem proper_of_not_faulty {lines : Picture} {p : ℕ × ℕ} {h : Heading}
    (hrobot : lines.RobotAt p h) (hfault : ∀ q, ¬ lines.Faulty q) : lines.Proper := by
  refine ⟨⟨p, ⟨h, hrobot⟩, fun q hq ↦ ?_⟩, fun q hq ↦ ?_⟩
  · rcases Precedes.trichotomy q p with hprecedes | hsame | hprecedes
    · exact absurd (Or.inl ⟨⟨h, hrobot⟩, q, _, hprecedes, hq.choose_spec⟩) (hfault p)
    · exact hsame
    · exact absurd (Or.inl ⟨hq, p, h, hprecedes, hrobot⟩) (hfault q)
  · by_contra hisolated
    push Not at hisolated
    exact hfault q (Or.inr ⟨hq, hisolated⟩)

end Picture

/-! ### Tiles -/

/-- The tile of a symbol, and an empty cell for a character that is no symbol. -/
def Tile.ofSymbol (symbol : Char) : Tile := (Tile.ofChar? symbol).getD (.cell .empty)

theorem Tile.ofSymbol_eq_wall_iff {symbol : Char} :
    Tile.ofSymbol symbol = .cell .wall ↔ symbol = '*' := by
  unfold ofSymbol ofChar?
  split <;> simp_all

theorem Tile.ofSymbol_eq_robot_iff {symbol : Char} {h : Heading} :
    Tile.ofSymbol symbol = .robot h ↔ (symbol, h) ∈ Picture.headings := by
  unfold ofSymbol ofChar? Picture.headings
  split <;> simp_all [eq_comm]

namespace Picture

/-- The tiles of a picture. -/
def tiles (lines : Picture) : List (List Tile) := lines.map (·.map Tile.ofSymbol)

/-- The grid of a picture: the robot has an empty cell under it. -/
def grid (lines : Picture) : Grid := lines.tiles.map (·.map Tile.toCell)

theorem mem_tiles_wall_iff {lines : Picture} {p : ℕ × ℕ} :
    (p, .cell .wall) ∈ indexedRows lines.tiles ↔ lines.WallAt p := by
  rw [mem_indexedRows, tiles, item?_map, Option.map_eq_some_iff, WallAt]
  simp only [Tile.ofSymbol_eq_wall_iff, exists_eq_right]

theorem mem_tiles_robot_iff {lines : Picture} {p : ℕ × ℕ} {h : Heading} :
    (p, .robot h) ∈ indexedRows lines.tiles ↔ lines.RobotAt p h := by
  rw [mem_indexedRows, tiles, item?_map, Option.map_eq_some_iff, RobotAt]
  simp only [Tile.ofSymbol_eq_robot_iff, and_comm]

theorem wallAt_grid_iff {lines : Picture} {p : ℕ × ℕ} :
    lines.grid.WallAt p ↔ lines.WallAt p := by
  rw [Grid.WallAt, grid, item?_map, ← mem_tiles_wall_iff, mem_indexedRows, Option.map_eq_some_iff]
  constructor
  · rintro ⟨c | h, htile, hcell⟩
    · rwa [show c = .wall from hcell] at htile
    · cases hcell
  · intro htile
    exact ⟨_, htile, rfl⟩

/-- Two places are next to each other if one is right behind the other in one of the directions. -/
theorem beside_iff {q q' : ℕ × ℕ} : Beside q q' ↔
    ∃ o ∈ [Orientation.horizontal, .vertical], o.beyond q 1 = q' ∨ o.beyond q' 1 = q := by
  have hne : Orientation.vertical ≠ .horizontal := by decide
  obtain ⟨r, c⟩ := q
  obtain ⟨r', c'⟩ := q'
  simp only [Beside, List.mem_cons, List.not_mem_nil, or_false, exists_eq_or_imp,
    exists_eq_left, Orientation.beyond, if_true, if_neg hne, Prod.mk.injEq]
  omega

end Picture

/-! ### The survey -/

namespace Survey

/-- The pose of a robot, if a tile is one. -/
def robot? : (ℕ × ℕ) × Tile → Option Pose
  | (p, .robot h) => some ⟨Position.ofIndex p.1 p.2, h⟩
  | (_, .cell _) => none

/-- The place of a wall cell, if a tile is one. -/
def wall? : (ℕ × ℕ) × Tile → Option (ℕ × ℕ)
  | (p, .cell .wall) => some p
  | _ => none

/-- The survey comes by the wall cells of the grid, in the order in which they are visited. -/
theorem wallCells_eq (tiles : List (List Tile)) :
    Grid.wallCells (tiles.map (·.map Tile.toCell)) = (indexedRows tiles).filterMap wall? := by
  show ((indexedRows (tiles.map (·.map Tile.toCell))).filter (·.2 == .wall)).map Prod.fst = _
  rw [indexedRows_map, ← List.filterMap_eq_filter, List.map_filterMap, List.filterMap_map]
  refine List.filterMap_congr fun x _ ↦ ?_
  obtain ⟨p, c | h⟩ := x
  · cases c <;> rfl
  · rfl

/-- Nothing was wrong with the cells so far. The robot among them is `found`, and the walls among
them have been visited. -/
structure Passed (grid : Grid) (cells : List ((ℕ × ℕ) × Tile)) (found : Option Pose)
    (search : Grid.Search) : Prop where
  walls : ∀ p, (p, .cell .wall) ∈ cells → ∃ q, Picture.Beside p q ∧ grid.WallAt q
  robots : cells.filterMap robot? = found.toList
  swept : grid.Swept (cells.filterMap wall?) search

variable {grid : Grid} {before : List ((ℕ × ℕ) × Tile)} {found : Option Pose}
  {search : Grid.Search}

/-- What is no wall cell is not visited. -/
theorem filterMap_wall?_concat {x : (ℕ × ℕ) × Tile} (hx : wall? x = none) :
    (before ++ [x]).filterMap wall? = before.filterMap wall? := by
  rw [List.filterMap_append, List.filterMap_cons_none hx, List.filterMap_nil, List.append_nil]

theorem passed_nil (grid : Grid) : Passed grid [] none .empty := ⟨by simp, rfl, grid.swept_nil⟩

theorem Passed.robot (h : Passed grid before none search) (p : ℕ × ℕ) (k : Heading) :
    Passed grid (before ++ [(p, .robot k)]) (some ⟨Position.ofIndex p.1 p.2, k⟩) search := by
  refine ⟨fun q hq ↦ h.walls q (by simpa using hq), ?_, ?_⟩
  · simp [List.filterMap_append, h.robots, robot?]
  · rw [filterMap_wall?_concat rfl]
    exact h.swept

theorem Passed.cell (h : Passed grid before found search) (p : ℕ × ℕ) {c : Cell}
    (hc : c ≠ .wall) : Passed grid (before ++ [(p, .cell c)]) found search := by
  refine ⟨fun q hq ↦ h.walls q ?_, ?_, ?_⟩
  · simpa [hc.symm] using hq
  · simp [List.filterMap_append, h.robots, robot?]
  · rw [filterMap_wall?_concat (by cases c <;> simp_all [wall?])]
    exact h.swept

/-- A wall cell is the next one to be visited. -/
theorem isNext_of_wallCells {p : ℕ × ℕ} {rest : List ((ℕ × ℕ) × Tile)}
    (hcells : grid.wallCells = (before ++ (p, .cell .wall) :: rest).filterMap wall?) :
    grid.IsNext (before.filterMap wall?) p := by
  have hvisited : grid.wallCells = before.filterMap wall? ++ p :: rest.filterMap wall? := by
    rw [hcells, List.filterMap_append]
    rfl
  exact Grid.isNext_of_wallCells hvisited

/-- **A visit tells whether a wall cell stands alone.** -/
theorem Passed.visit_iff (h : Passed grid before found search) {p : ℕ × ℕ}
    (hp : grid.IsNext (before.filterMap wall?) p) :
    (grid.visit search p).1 = true ↔ ∃ q, Picture.Beside p q ∧ grid.WallAt q := by
  rw [h.swept.visit_iff hp]
  simp only [Picture.beside_iff, Grid.Continues]
  constructor
  · rintro ⟨o, ho, q, hq, hwall⟩
    exact ⟨q, ⟨o, ho, hq⟩, hwall⟩
  · rintro ⟨q, ⟨o, ho, hq⟩, hwall⟩
    exact ⟨o, ho, q, hq, hwall⟩

theorem Passed.wall (h : Passed grid before found search) {p : ℕ × ℕ}
    (hp : grid.IsNext (before.filterMap wall?) p) (hproper : (grid.visit search p).1 = true) :
    Passed grid (before ++ [(p, .cell .wall)]) found (grid.visit search p).2 := by
  refine ⟨fun q hq ↦ ?_, ?_, ?_⟩
  · rcases List.mem_append.1 hq with hq | hq
    · exact h.walls q hq
    · obtain rfl : q = p := by simpa using hq
      exact (h.visit_iff hp).1 hproper
  · simp [List.filterMap_append, h.robots, robot?]
  · rw [List.filterMap_append]
    exact h.swept.visit hp

/-- No robot has been passed. -/
theorem Passed.not_mem_robot (h : Passed grid before none search) (p : ℕ × ℕ) (k : Heading) :
    (p, .robot k) ∉ before := by
  intro hmem
  have hnone := List.filterMap_eq_nil_iff.1 h.robots _ hmem
  simp [robot?] at hnone

/-- One robot has been passed, and it is the one that was found. -/
theorem Passed.exists_robot {pose : Pose} (h : Passed grid before (some pose) search) :
    ∃ p k, (p, .robot k) ∈ before ∧ pose = ⟨Position.ofIndex p.1 p.2, k⟩ ∧
      ∀ q k', (q, .robot k') ∈ before → q = p := by
  obtain ⟨front, ⟨p, tile⟩, back, rfl, hfront, htile, hback⟩ :=
    List.filterMap_eq_cons_iff.1 h.robots
  rcases tile with c | k
  · cases htile
  refine ⟨p, k, by simp, (Option.some.inj htile).symm, fun q k' hq ↦ ?_⟩
  rcases List.mem_append.1 hq with hq | hq
  · exact absurd (hfront _ hq) (by simp [robot?])
  · rcases List.mem_cons.1 hq with hq | hq
    · exact congrArg Prod.fst hq
    · exact absurd (List.filterMap_eq_nil_iff.1 hback _ hq) (by simp [robot?])

/-- How a survey of cells ends: at another robot, at a wall cell that stands alone, or behind them
all. -/
inductive Ends (grid : Grid) (cells : List ((ℕ × ℕ) × Tile)) :
    Except LevelError (Pose × List Wall) → Prop where
  | secondRobot {front back : List ((ℕ × ℕ) × Tile)} {p : ℕ × ℕ} {k : Heading} {pose : Pose}
      {search : Grid.Search} (split : cells = front ++ (p, .robot k) :: back)
      (passed : Passed grid front (some pose) search) :
      Ends grid cells (.error (.secondRobot (Position.ofIndex p.1 p.2)))
  | isolatedWall {front back : List ((ℕ × ℕ) × Tile)} {p : ℕ × ℕ} {found : Option Pose}
      {search : Grid.Search} (split : cells = front ++ (p, .cell .wall) :: back)
      (passed : Passed grid front found search)
      (alone : ∀ q, Picture.Beside p q → ¬ grid.WallAt q) :
      Ends grid cells (.error (.isolatedWall (Position.ofIndex p.1 p.2)))
  | noRobot {search : Grid.Search} (passed : Passed grid cells none search) :
      Ends grid cells (.error .noRobot)
  | robot {pose : Pose} {search : Grid.Search} (passed : Passed grid cells (some pose) search) :
      Ends grid cells (.ok (pose, search.walls))

/-- The survey goes on from what it has passed. -/
theorem ends_survey (hpassed : Passed grid before found search) (rest : List ((ℕ × ℕ) × Tile))
    (hcells : grid.wallCells = (before ++ rest).filterMap wall?) :
    Ends grid (before ++ rest) (Level.survey grid found search rest) := by
  induction rest generalizing before found search with
  | nil =>
    rw [List.append_nil]
    rcases found with - | pose
    · exact .noRobot hpassed
    · exact .robot hpassed
  | cons x rest ih =>
    -- What has been passed grows by `x`, unless `x` is where the survey stops.
    have hcons : before ++ x :: rest = (before ++ [x]) ++ rest := by simp
    obtain ⟨⟨r, c⟩, cell | h⟩ := x
    · cases cell with
      | wall =>
        have hnext := isNext_of_wallCells hcells
        rcases hvisit : grid.visit search (r, c) with ⟨proper, search'⟩
        rw [Level.survey, hvisit]
        cases proper with
        | true =>
          have hproper : (grid.visit search (r, c)).1 = true := by rw [hvisit]
          have hwall := hpassed.wall hnext hproper
          rw [hvisit] at hwall
          rw [hcons] at hcells ⊢
          exact ih hwall hcells
        | false =>
          refine .isolatedWall rfl hpassed fun q hbeside hq ↦ ?_
          have hproper := (hpassed.visit_iff hnext).2 ⟨q, hbeside, hq⟩
          simp [hvisit] at hproper
      | empty | gray | white =>
        rw [hcons] at hcells ⊢
        exact ih (hpassed.cell (r, c) (by simp)) hcells
    · rcases found with - | pose
      · rw [hcons] at hcells ⊢
        exact ih (hpassed.robot (r, c) h) hcells
      · exact .secondRobot rfl hpassed

end Survey

namespace Picture

variable {lines : Picture}

/-- The survey of a picture has passed all cells in front of a place: none of these is at fault. -/
theorem not_faulty_of_passed {cells : List ((ℕ × ℕ) × Tile)} {found : Option Pose}
    {search : Grid.Search} (hpassed : Survey.Passed lines.grid cells found search) {p : ℕ × ℕ}
    (hmem : ∀ q tile, (q, tile) ∈ indexedRows lines.tiles → q = p ∨ Precedes q p →
      (q, tile) ∈ cells) : ¬ lines.Faulty p := by
  rintro (⟨⟨h, hrobot⟩, q, k, hprecedes, hq⟩ | ⟨hwall, halone⟩)
  · have hp := hmem p _ (mem_tiles_robot_iff.2 hrobot) (Or.inl rfl)
    have hq := hmem q _ (mem_tiles_robot_iff.2 hq) (Or.inr hprecedes)
    rcases found with - | pose
    · exact hpassed.not_mem_robot p h hp
    · obtain ⟨_, _, -, -, hunique⟩ := hpassed.exists_robot
      have hsame : q = p := (hunique q k hq).trans (hunique p h hp).symm
      exact Precedes.irrefl p (hsame ▸ hprecedes)
  · have hp := hmem p _ (mem_tiles_wall_iff.2 hwall) (Or.inl rfl)
    obtain ⟨q, hbeside, hq⟩ := hpassed.walls p hp
    exact halone q hbeside (wallAt_grid_iff.1 hq)

/-- What the survey of a picture says about it. -/
inductive Diagnosis (lines : Picture) : Except LevelError (Pose × List Wall) → Prop where
  | secondRobot {p : ℕ × ℕ} (first : lines.FirstFault p) (robot : lines.SecondRobotAt p) :
      Diagnosis lines (.error (.secondRobot (Position.ofIndex p.1 p.2)))
  | isolatedWall {p : ℕ × ℕ} (first : lines.FirstFault p) (wall : lines.IsolatedAt p) :
      Diagnosis lines (.error (.isolatedWall (Position.ofIndex p.1 p.2)))
  | noRobot (faultless : ∀ p, ¬ lines.Faulty p) (absent : ∀ p h, ¬ lines.RobotAt p h) :
      Diagnosis lines (.error .noRobot)
  | robot {p : ℕ × ℕ} {h : Heading} (proper : lines.Proper) (robot : lines.RobotAt p h) :
      Diagnosis lines (.ok (⟨Position.ofIndex p.1 p.2, h⟩, lines.grid.walls))

/-- **The survey is right**: it reports the first fault, or that there is no robot, or finds the
robot and the walls of a proper picture. -/
theorem diagnosis_survey (lines : Picture) :
    lines.Diagnosis (Level.survey lines.grid none .empty (Level.indexedTiles lines.tiles)) := by
  rw [Level.indexedTiles_eq_indexedRows]
  have hcells : lines.grid.wallCells = (indexedRows lines.tiles).filterMap Survey.wall? :=
    Survey.wallCells_eq lines.tiles
  have hends := Survey.ends_survey (Survey.passed_nil lines.grid) (indexedRows lines.tiles) hcells
  rw [List.nil_append] at hends
  -- Whatever precedes the place where the survey stops has been passed.
  have hfront : ∀ {front back p tile found search},
      indexedRows lines.tiles = front ++ (p, tile) :: back →
      Survey.Passed lines.grid front found search → ∀ q, Precedes q p → ¬ lines.Faulty q := by
    intro front back p tile found search hsplit hpassed q hq
    refine not_faulty_of_passed hpassed fun q' tile' hmem hle ↦ ?_
    refine (mem_front_iff hsplit).2 ⟨mem_indexedRows.1 hmem, ?_⟩
    rcases hle with rfl | hle
    · exact hq
    · exact hle.trans hq
  generalize Level.survey lines.grid none .empty (indexedRows lines.tiles) = result at hends ⊢
  rcases hends with @⟨front, back, p, k, pose, search, hsplit, hpassed⟩ |
    @⟨front, back, p, found, search, hsplit, hpassed, halone⟩ | ⟨hpassed⟩ | ⟨hpassed⟩
  · have hrobot : lines.RobotAt p k := mem_tiles_robot_iff.1 (by simp [hsplit])
    obtain ⟨q, k', hq, -, -⟩ := hpassed.exists_robot
    obtain ⟨hitem, hprecedes⟩ := (mem_front_iff hsplit).1 hq
    have hsecond : lines.SecondRobotAt p :=
      ⟨⟨k, hrobot⟩, q, k', hprecedes, mem_tiles_robot_iff.1 (mem_indexedRows.2 hitem)⟩
    exact .secondRobot ⟨Or.inl hsecond, hfront hsplit hpassed⟩ hsecond
  · have hwall : lines.WallAt p := mem_tiles_wall_iff.1 (by simp [hsplit])
    have hisolated : lines.IsolatedAt p :=
      ⟨hwall, fun q hbeside hq ↦ halone q hbeside (wallAt_grid_iff.2 hq)⟩
    exact .isolatedWall ⟨Or.inr hisolated, hfront hsplit hpassed⟩ hisolated
  · exact .noRobot (fun p ↦ not_faulty_of_passed hpassed fun _ _ hmem _ ↦ hmem)
      fun p h hrobot ↦ hpassed.not_mem_robot p h (mem_tiles_robot_iff.2 hrobot)
  · obtain ⟨p, k, hp, rfl, -⟩ := hpassed.exists_robot
    have hrobot : lines.RobotAt p k := mem_tiles_robot_iff.1 hp
    have hwalls := hpassed.swept.walls
    rw [← hcells, ← Grid.walls_eq] at hwalls
    rw [hwalls]
    refine .robot (proper_of_not_faulty hrobot fun q ↦ ?_) hrobot
    exact not_faulty_of_passed hpassed fun _ _ hmem _ ↦ hmem

end Picture

end RobotGolf
