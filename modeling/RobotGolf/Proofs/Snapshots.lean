import RobotGolf.Proofs.Fingerprints
import RobotGolf.Proofs.Trail
import RobotGolf.Proofs.Views
/-!
# Snapshots show the state of a world

A snapshot is made cell by cell. The robot hides what is under it, a white button shows whether it
is pressed, and any other cell shows its own symbol. What all of this comes to is said about
pictures, where an entry has a place: `World.Stands.item?_picture` gives the symbol at each place,
and the rest is read off it.

* **A level that was loaded has a cell at every place** within its dimensions, so nothing is looked
  for outside of the grid (`World.display?_eq`).
* **The only robot in a snapshot is where it stands**, because no cell has the symbol of a robot
  (`World.Stands.eq_of_item?`).
* **With no button pressed and an empty cell under the robot**, every symbol reads as the cell that
  it was made from (`World.Stands.grid_picture`), so the snapshot can be stored and loaded again.
-/

namespace RobotGolf

variable {α β γ : Type}

/-! ### Entries by their places -/

/-- Changes the entries of some rows, each by its place. -/
def mapPlaces (f : ℕ × ℕ → α → β) (rows : List (List α)) : List (List β) :=
  rows.zipIdx.map fun row ↦ row.1.zipIdx.map fun x ↦ f (row.2, x.2) x.1

theorem item?_mapPlaces (f : ℕ × ℕ → α → β) (rows : List (List α)) (q : ℕ × ℕ) :
    item? (mapPlaces f rows) q = (item? rows q).map (f q) := by
  simp only [item?, mapPlaces, List.getElem?_map, List.getElem?_zipIdx, Nat.zero_add]
  rcases rows[q.1]? with - | row
  · rfl
  · simp only [Option.map_some, Option.bind_some, List.getElem?_map, List.getElem?_zipIdx,
      Nat.zero_add, Option.map_map]
    rfl

theorem map_mapPlaces (f : ℕ × ℕ → α → β) (g : β → γ) (rows : List (List α)) :
    (mapPlaces f rows).map (·.map g) = mapPlaces (fun q x ↦ g (f q x)) rows := by
  simp [mapPlaces, Function.comp_def]

theorem mapPlaces_congr {f g : ℕ × ℕ → α → β} {rows : List (List α)}
    (h : ∀ q x, item? rows q = some x → f q x = g q x) : mapPlaces f rows = mapPlaces g rows := by
  refine List.map_congr_left fun row hrow ↦ List.map_congr_left fun x hx ↦ h _ _ ?_
  exact Option.bind_eq_some_iff.2
    ⟨row.1, List.mem_zipIdx_iff_getElem?.1 hrow, List.mem_zipIdx_iff_getElem?.1 hx⟩

theorem mapPlaces_snd (rows : List (List α)) : mapPlaces (fun _ x ↦ x) rows = rows := by
  simp [mapPlaces, List.zipIdx_map_fst]

/-- If every member gives a value, a list of members gives the list of values. -/
theorem mapM_eq_some {xs : List α} {f : α → Option β} {g : α → β}
    (h : ∀ x ∈ xs, f x = some (g x)) : xs.mapM f = some (xs.map g) := by
  induction xs with
  | nil => rfl
  | cons x xs ih =>
    obtain ⟨hx, hxs⟩ := List.forall_mem_cons.1 h
    simp [List.mapM_cons, hx, ih hxs]

theorem map_range_getD (xs : List α) (d : α) :
    (List.range xs.length).map (fun i ↦ xs[i]?.getD d) = xs := by
  refine List.ext_getElem (by simp) fun i _ hi ↦ ?_
  simp [List.getElem?_eq_getElem hi]

/-! ### Cells by their positions -/

theorem Level.storedRows_eq (l : Level) : l.storedRows.map String.toList =
    mapPlaces (fun q c ↦ l.startSymbol (Position.ofIndex q.1 q.2) c) l.grid := by
  simp [Level.storedRows, mapPlaces, Function.comp_def]

namespace Level.Charted

variable {l : Level} {q q' : ℕ × ℕ} {c c' : Cell} {p : Position}

/-- The cell at a place of the grid is the one at its position. -/
theorem cell?_ofIndex (h : l.Charted) (hitem : item? l.grid q = some c) :
    l.cell? (Position.ofIndex q.1 q.2) = some c :=
  h.mem_positions_iff.1 (mem_positions.2 ⟨q, hitem, rfl⟩)

theorem exists_item? (h : l.Charted) (hcell : l.cell? p = some c) :
    ∃ q, item? l.grid q = some c ∧ Position.ofIndex q.1 q.2 = p :=
  mem_positions.1 (h.mem_positions_iff.2 hcell)

/-- Places of the grid are told from their positions. -/
theorem ofIndex_inj (h : l.Charted) (hq : item? l.grid q = some c) (hq' : item? l.grid q' = some c')
    (heq : Position.ofIndex q.1 q.2 = Position.ofIndex q'.1 q'.2) : q = q' := by
  obtain ⟨hrow, hcol⟩ := h.toInt_ofIndex hq
  obtain ⟨hrow', hcol'⟩ := h.toInt_ofIndex hq'
  rw [heq] at hrow hcol
  exact Prod.ext (by omega) (by omega)

/-- There is a cell at every place within the dimensions. -/
theorem exists_item?_of_lt (h : l.Charted) (hrow : q.1 < l.rows) (hcol : q.2 < l.cols) :
    ∃ c, item? l.grid q = some c := by
  have hlt : q.1 < l.grid.length := h.height ▸ hrow
  have hlt' : q.2 < l.grid[q.1].length := (h.width _ (List.getElem_mem hlt)).symm ▸ hcol
  exact ⟨l.grid[q.1][q.2], Option.bind_eq_some_iff.2
    ⟨_, List.getElem?_eq_getElem hlt, List.getElem?_eq_getElem hlt'⟩⟩

theorem isWhiteButton_ofIndex (h : l.Charted) (hitem : item? l.grid q = some c) :
    l.isWhiteButton (Position.ofIndex q.1 q.2) = true ↔ c = .white := by
  rw [h.isWhiteButton_iff, h.mem_whiteButtons_iff, h.cell?_ofIndex hitem, Option.some.injEq]

end Level.Charted

namespace World

/-! ### Symbols -/

/-- The lines of a snapshot. -/
def picture (w : World) : Picture := w.snapshot.map String.toList

theorem picture_eq (w : World) : w.picture =
    mapPlaces (fun q c ↦ w.symbolAt (Position.ofIndex q.1 q.2) c) w.level.grid := by
  simp [picture, snapshot, mapPlaces, Function.comp_def]

/-- A world of a level that was loaded, with the place on which the robot stands. -/
structure Stands (l : Level) (w : World) (q : ℕ × ℕ) : Prop where
  charted : l.Charted
  level_eq : w.level = l
  heading : w.robot.heading ∈ Heading.all
  position : w.robot.position = Position.ofIndex q.1 q.2
  cell : ∃ c, item? l.grid q = some c

variable {l : Level} {w : World} {q q' : ℕ × ℕ} {c : Cell}

theorem OnPath.exists_stands (hcharted : l.Charted) (h : w.OnPath l) : ∃ q, w.Stands l q := by
  obtain ⟨c, hcell, -⟩ := h.isOpen _ (List.mem_of_getLast? h.getLast?)
  obtain ⟨q, hitem, hposition⟩ := hcharted.exists_item? hcell
  exact ⟨q, hcharted, h.level_eq, h.heading, hposition.symm, c, hitem⟩

/-- The symbol that a cell is shown by. -/
def shown (w : World) (q q' : ℕ × ℕ) (c : Cell) : Char :=
  if q' = q then w.robot.heading.symbol
  else if c = .white then if w.isPressed (Position.ofIndex q'.1 q'.2) then 'W' else 'w'
  else c.symbol

namespace Stands

theorem symbolAt_eq (h : w.Stands l q) (hitem : item? l.grid q' = some c) :
    w.symbolAt (Position.ofIndex q'.1 q'.2) c = w.shown q q' c := by
  obtain ⟨c', hq⟩ := h.cell
  have hplace : Position.ofIndex q'.1 q'.2 = w.robot.position ↔ q' = q := by
    rw [h.position]
    exact ⟨h.charted.ofIndex_inj hitem hq, fun heq ↦ by rw [heq]⟩
  simp only [symbolAt, shown, hplace, h.level_eq, h.charted.isWhiteButton_ofIndex hitem]

theorem picture_eq (h : w.Stands l q) : w.picture = mapPlaces (w.shown q) l.grid := by
  rw [World.picture_eq, h.level_eq]
  exact mapPlaces_congr fun q' c ↦ h.symbolAt_eq

/-- **The symbol at each place of a snapshot.** -/
theorem item?_picture (h : w.Stands l q) (q' : ℕ × ℕ) :
    item? w.picture q' = (item? l.grid q').map (w.shown q q') := by
  rw [h.picture_eq, item?_mapPlaces]

end Stands

/-! ### Dimensions -/

theorem length_picture (hcharted : w.level.Charted) :
    w.picture.length = w.level.rows ∧ ∀ line ∈ w.picture, line.length = w.level.cols := by
  rw [World.picture_eq]
  refine ⟨by simp [mapPlaces, hcharted.height], fun line hline ↦ ?_⟩
  obtain ⟨row, hrow, rfl⟩ := List.mem_map.1 hline
  have hmem : row.1 ∈ w.level.grid := List.fst_mem_of_mem_zipIdx hrow
  simp [hcharted.width _ hmem]

/-- The symbol at a position. The grid is looked at only where there is neither the robot nor a
white button, and there may be no such cell. -/
def look? (w : World) (p : Position) : Option Char :=
  if p = w.robot.position then some w.robot.heading.symbol
  else if w.level.isWhiteButton p then some (if w.isPressed p then 'W' else 'w')
  else (w.level.cell? p).map Cell.symbol

/-- A snapshot that is made by going through all rows and columns that the level says it has, if
there is always something to be seen. -/
def display? (w : World) : Option (List String) :=
  (List.range w.level.rows).mapM fun r ↦
    ((List.range w.level.cols).mapM fun c ↦ w.look? (Position.ofIndex r c)).map String.ofList

theorem look?_eq {p : Position} (h : w.level.cell? p = some c) :
    w.look? p = some (w.symbolAt p c) := by
  unfold look? symbolAt
  rw [h]
  split
  · rfl
  split <;> rfl

/-- **Nothing is looked for outside of the grid.** -/
theorem display?_eq (hcharted : w.level.Charted) : w.display? = some w.snapshot := by
  obtain ⟨hrows, hcols⟩ := length_picture hcharted
  have hlook : ∀ r < w.level.rows, ∀ c < w.level.cols,
      w.look? (Position.ofIndex r c) = item? w.picture (r, c) := by
    intro r hr c hc
    obtain ⟨cell, hitem⟩ := hcharted.exists_item?_of_lt (q := (r, c)) hr hc
    rw [look?_eq (hcharted.cell?_ofIndex hitem), World.picture_eq, item?_mapPlaces, hitem]
    rfl
  have hline : ∀ line ∈ w.snapshot, line.toList.length = w.level.cols := fun line hline ↦
    hcols _ (List.mem_map_of_mem hline)
  have hsnapshot : w.snapshot.length = w.level.rows := by rw [← hrows, picture, List.length_map]
  have hrow : ∀ r ∈ List.range w.level.rows,
      ((List.range w.level.cols).mapM fun c ↦ w.look? (Position.ofIndex r c)).map String.ofList =
        some (w.snapshot[r]?.getD "") := by
    intro r hr
    have hr := List.mem_range.1 hr
    have hlt : r < w.snapshot.length := hsnapshot.symm ▸ hr
    have hwidth := hline _ (List.getElem_mem hlt)
    have hcells : ∀ c ∈ List.range w.level.cols, w.look? (Position.ofIndex r c) =
        some (w.snapshot[r].toList[c]?.getD ' ') := by
      intro c hc
      have hc := List.mem_range.1 hc
      have hlt' : c < w.snapshot[r].toList.length := hwidth.symm ▸ hc
      rw [hlook r hr c hc]
      simp [item?, picture, List.getElem?_eq_getElem hlt, List.getElem?_eq_getElem hlt']
    rw [mapM_eq_some hcells, ← hwidth, map_range_getD, Option.map_some, String.ofList_toList,
      List.getElem?_eq_getElem hlt, Option.getD_some]
  rw [display?, mapM_eq_some hrow, ← hsnapshot, map_range_getD]

/-! ### The robot -/

/-- No cell has the symbol of a robot. -/
theorem eq_of_shown (hshown : w.shown q q' c ∈ ['u', 'r', 'd', 'l']) : q' = q := by
  by_contra hne
  rw [shown, if_neg hne] at hshown
  split at hshown
  · split at hshown <;> exact absurd hshown (by decide)
  · cases c <;> exact absurd hshown (by decide)

namespace Stands

/-- **The robot is shown where it stands**, -/
theorem robotAt (h : w.Stands l q) : w.picture.RobotAt q w.robot.heading := by
  have hheadings : ∀ k ∈ Heading.all, (k.symbol, k) ∈ Picture.headings := by decide
  obtain ⟨c, hitem⟩ := h.cell
  refine ⟨_, hheadings _ h.heading, ?_⟩
  rw [h.item?_picture, hitem, Option.map_some, shown, if_pos rfl]

/-- and nowhere else. -/
theorem eq_of_item? (h : w.Stands l q) {symbol : Char} (hitem : item? w.picture q' = some symbol)
    (hsymbol : symbol ∈ ['u', 'r', 'd', 'l']) : q' = q := by
  rw [h.item?_picture, Option.map_eq_some_iff] at hitem
  obtain ⟨c, -, rfl⟩ := hitem
  exact eq_of_shown hsymbol

/-- All symbols are those of stored levels, pressed buttons apart. -/
theorem shown_mem (h : w.Stands l q) (q' : ℕ × ℕ) (c : Cell) :
    w.shown q q' c ∈ Level.symbols ∨
      (w.shown q q' c = 'W' ∧ w.isPressed (Position.ofIndex q'.1 q'.2) = true) := by
  have hheading : ∀ k ∈ Heading.all, k.symbol ∈ Level.symbols := by decide
  unfold shown
  split
  · exact Or.inl (hheading _ h.heading)
  split
  · split
    · rename_i hpressed
      exact Or.inr ⟨rfl, hpressed⟩
    · exact Or.inl (by decide)
  · exact Or.inl (by cases c <;> decide)

theorem exists_of_mem (h : w.Stands l q) {line : List Char} {symbol : Char}
    (hline : line ∈ w.picture) (hsymbol : symbol ∈ line) : ∃ q' c, symbol = w.shown q q' c := by
  rw [h.picture_eq] at hline
  obtain ⟨row, -, rfl⟩ := List.mem_map.1 hline
  obtain ⟨x, -, rfl⟩ := List.mem_map.1 hsymbol
  exact ⟨_, _, rfl⟩

theorem ascii_of_mem (h : w.Stands l q) {line : List Char} (hline : line ∈ w.picture) :
    ∀ symbol ∈ line, symbol.toNat ≤ 127 ∧ symbol ≠ '\n' := by
  have hsymbols : ∀ symbol ∈ Level.symbols, symbol.toNat ≤ 127 ∧ symbol ≠ '\n' := by
    simp [Level.symbols]
  intro symbol hsymbol
  obtain ⟨q', c, rfl⟩ := h.exists_of_mem hline hsymbol
  rcases h.shown_mem q' c with hmem | ⟨hpressed, -⟩
  · exact hsymbols _ hmem
  · rw [hpressed]
    decide

end Stands

/-! ### The cells around the robot -/

namespace Stands

/-- **A cell that the robot does not hide** is shown as a button or as it is stored, with nothing
where the robot started. -/
theorem shown_cases (h : w.Stands l q) (hsurveyed : l.Surveyed) (hne : q' ≠ q)
    (hitem : item? l.grid q' = some c) :
    (w.shown q q' c = 'W' ↔ c = .white ∧ w.isPressed (Position.ofIndex q'.1 q'.2) = true) ∧
      (w.shown q q' c = 'w' ↔ c = .white ∧ w.isPressed (Position.ofIndex q'.1 q'.2) = false) ∧
      (c ≠ .white → w.shown q q' c = if Position.ofIndex q'.1 q'.2 = l.robot.position then '.'
        else l.startSymbol (Position.ofIndex q'.1 q'.2) c) := by
  rw [shown, if_neg hne]
  by_cases hwhite : c = .white
  · rw [if_pos hwhite]
    cases w.isPressed (Position.ofIndex q'.1 q'.2) <;> simp [hwhite]
  · have hsymbol : c.symbol ≠ 'W' ∧ (c.symbol = 'w' ↔ c = .white) := by cases c <;> decide
    rw [if_neg hwhite]
    refine ⟨by simp [hsymbol, hwhite], by simp [hsymbol, hwhite], fun _ ↦ ?_⟩
    split
    · rename_i hstart
      have hempty := hsurveyed.cell?_robot h.charted
      rw [← hstart, h.charted.cell?_ofIndex hitem, Option.some.injEq] at hempty
      rw [hempty]
      rfl
    · rename_i hstart
      rw [Level.startSymbol, if_neg hstart]

end Stands

/-- **Before the first action a snapshot shows what is stored.** -/
theorem picture_start (hcharted : l.Charted) :
    (start l).picture = l.storedRows.map String.toList := by
  rw [World.picture_eq, Level.storedRows_eq]
  refine mapPlaces_congr fun q c hitem ↦ ?_
  have hwhite := hcharted.isWhiteButton_ofIndex hitem
  show symbolAt (start l) _ c = l.startSymbol _ c
  unfold symbolAt Level.startSymbol
  refine if_congr Iff.rfl rfl ?_
  split
  · rename_i hbutton
    rw [hwhite.1 hbutton, isPressed_start]
    rfl
  · rfl

/-! ### Storing a snapshot -/

/-- A snapshot in the format in which levels are stored, with the numbers of its level. -/
def stored (w : World) : String :=
  String.join ((w.snapshot ++ [toString w.level.points, toString w.level.maxBytes]).map (· ++ "\n"))

theorem toList_stored (w : World) : w.stored.toList =
    Level.ended w.picture ++ Nat.toDigits 10 w.level.points ++
      '\n' :: (Nat.toDigits 10 w.level.maxBytes ++ ['\n']) := by
  simp [stored, picture, Level.ended, String.toList_join, List.flatMap_map]

namespace Stands

section Released

variable (h : w.Stands l q) (hreleased : ∀ p, w.isPressed p = false)
  (hempty : item? l.grid q = some .empty)

include h hreleased

theorem legal_of_mem {line : List Char} (hline : line ∈ w.picture) :
    ∀ symbol ∈ line, symbol ∈ Level.symbols := by
  intro symbol hsymbol
  obtain ⟨q', c, rfl⟩ := h.exists_of_mem hline hsymbol
  rcases h.shown_mem q' c with hmem | ⟨-, hpressed⟩
  · exact hmem
  · rw [hreleased] at hpressed
    cases hpressed

include hempty

/-- **Every symbol reads as the cell that it was made from.** -/
theorem grid_picture : w.picture.grid = l.grid := by
  have hread : ∀ q' c, item? l.grid q' = some c →
      (Tile.ofSymbol (w.shown q q' c)).toCell = c := by
    intro q' c hitem
    unfold shown
    split
    · rename_i hplace
      rw [hplace, hempty, Option.some.injEq] at hitem
      have hrobot : ∀ k ∈ Heading.all, (Tile.ofSymbol k.symbol).toCell = .empty := by decide
      rw [hrobot _ h.heading, hitem]
    · rw [hreleased]
      cases c <;> rfl
  calc w.picture.grid = mapPlaces (fun q' c ↦ (Tile.ofSymbol (w.shown q q' c)).toCell) l.grid := by
        rw [h.picture_eq, Picture.grid, Picture.tiles, map_mapPlaces, map_mapPlaces]
    _ = mapPlaces (fun _ c ↦ c) l.grid := mapPlaces_congr hread
    _ = l.grid := mapPlaces_snd l.grid

/-- So the picture is that of a level. -/
theorem proper_picture (hsurveyed : l.Surveyed) : w.picture.Proper := by
  have hwallAt : ∀ q', l.grid.WallAt q' ↔ w.picture.WallAt q' := by
    intro q'
    rw [← h.grid_picture hreleased hempty]
    exact Picture.wallAt_grid_iff
  refine ⟨⟨q, ⟨_, h.robotAt⟩, ?_⟩, fun q' hq' ↦ ?_⟩
  · rintro q' ⟨k, symbol, hsymbol, hitem⟩
    have hletter : ∀ x ∈ Picture.headings, x.1 ∈ ['u', 'r', 'd', 'l'] := by decide
    exact h.eq_of_item? hitem (hletter _ hsymbol)
  · obtain ⟨q'', hbeside, hq''⟩ := hsurveyed.joined q' ((hwallAt q').2 hq')
    exact ⟨q'', hbeside, (hwallAt q'').1 hq''⟩

/-- **A snapshot with all buttons released, and the robot on an empty cell, is loaded as the level
with the robot there.** -/
theorem parse_stored {o : Level.Options} {feed : Feed} (hl : Level.load o feed = .ok l) :
    Level.parse o (Bytes.ofString w.stored) = .ok { l with robot := w.robot } := by
  have hparse := Level.parse_content_of_load hl
  obtain ⟨ho, lines, points, budget, hstored, -⟩ := Level.exists_stored_of_parse hparse
  obtain ⟨-, -, p, k, -, hlevel⟩ := hstored.exists_pose hparse
  have hpoints : l.points = Level.decimal points := by rw [hlevel]; rfl
  have hbudget : l.maxBytes = Level.decimal budget := by rw [hlevel]; rfl
  have hrows : l.rows = o.rows.toInt.toNat := by rw [hlevel]; rfl
  have hcols : l.cols = o.cols.toInt.toNat := by rw [hlevel]; rfl
  obtain ⟨hheight, hwidth⟩ := length_picture (w := w) (h.level_eq ▸ h.charted)
  rw [h.level_eq] at hheight hwidth
  have hagain : Level.Stored o w.picture (Nat.toDigits 10 l.points) (Nat.toDigits 10 l.maxBytes)
      (Bytes.ofString w.stored) := by
    refine ⟨?_, fun line hline ↦ ⟨?_, h.legal_of_mem hreleased hline⟩, ?_, ?_, [Place.newline], ?_,
      Or.inr ⟨[], rfl⟩⟩
    · have := Int64.le_iff_toInt_le.1 ho.rows
      rw [hheight, hrows]
      exact Int.toNat_of_nonneg (Int.le_trans (by decide) this)
    · have := Int64.le_iff_toInt_le.1 ho.cols
      rw [hwidth line hline, hcols]
      exact Int.toNat_of_nonneg (Int.le_trans (by decide) this)
    · exact Level.isNumeral_toDigits (hpoints ▸ hstored.pointsNumeral.pos)
        (hpoints ▸ hstored.pointsNumeral.lt)
    · exact Level.isNumeral_toDigits (hbudget ▸ hstored.budgetNumeral.pos)
        (hbudget ▸ hstored.budgetNumeral.lt)
    · have hend : Bytes.ofChars ['\n'] = [Place.newline] := by decide
      rw [Bytes.ofString, toList_stored, h.level_eq, ← hend, ← Bytes.ofChars_append]
      simp
  have hproper := h.proper_picture hreleased hempty (Level.surveyed_of_load hl)
  obtain ⟨q', k', hrobot', hagain⟩ := hagain.exists_parse ho hproper
  obtain ⟨rfl, rfl⟩ := hproper.robot_unique h.robotAt hrobot'
  rw [hagain, h.grid_picture hreleased hempty, Level.decimal_toDigits, Level.decimal_toDigits,
    ← h.position, hlevel]
  rfl

end Released

end Stands

/-! ### The lines of a stored level -/

/-- Lines that are ended are the first ones of a text. -/
theorem splitOn_ended {lines : Picture} (h : ∀ line ∈ lines, '\n' ∉ line) (rest : List Char) :
    (Level.ended lines ++ rest).splitOn '\n' = lines ++ rest.splitOn '\n' := by
  induction lines with
  | nil => rfl
  | cons line lines ih =>
    obtain ⟨hline, hlines⟩ := List.forall_mem_cons.1 h
    have hother : ∀ c ∈ line, (c == '\n') = false := fun c hc ↦
      beq_eq_false_iff_ne.2 fun heq ↦ hline (heq ▸ hc)
    have hended : Level.ended (line :: lines) ++ rest =
        line ++ '\n' :: (Level.ended lines ++ rest) := by
      simp [Level.ended]
    rw [hended, List.splitOn, List.splitOnP_append_cons_of_forall_mem hother _ rfl]
    exact congrArg (line :: ·) (ih hlines)

/-- **The first lines of a stored level are the snapshot before the first action.** -/
theorem take_splitOn_render (hcharted : l.Charted) (hsurveyed : l.Surveyed) :
    (l.render.toList.splitOn '\n').take l.rows = (start l).picture := by
  obtain ⟨hheight, -⟩ := length_picture (w := start l) hcharted
  obtain ⟨q, h⟩ := (onPath_start hcharted hsurveyed).exists_stands hcharted
  have hlines : ∀ line ∈ (start l).picture, '\n' ∉ line := fun line hline hmem ↦
    (h.ascii_of_mem hline _ hmem).2 rfl
  rw [Level.toList_render, ← picture_start hcharted, List.append_assoc, splitOn_ended hlines]
  exact List.take_left' hheight

/-! ### Runs -/

/-- **A snapshot shows the state.** Behind any actions in a level that was loaded, nothing is looked
for outside of the grid, and there is a line of the right length for each row. The only letter of a
robot is at the place where the robot stands, and it is that of its heading. At any other place `W`
is a white button that is pressed, `w` is one that is not, and everything else is shown as it is
stored, with a dot where the robot started. So the snapshot before the first action consists of the
first lines that are stored. With no button pressed and the robot on an empty cell, the snapshot
with the two numbers is loaded as a level in which nothing but the robot is another one. -/
theorem snapshot_shows_state {o : Level.Options} {feed : Feed} {l : Level}
    (hl : Level.load o feed = .ok l) (actions : List Action) (w : World)
    (hw : w = (start l).run actions) :
    w.display? = some w.snapshot ∧ w.snapshot.length = l.rows ∧
      (∀ line ∈ w.snapshot, line.length = l.cols ∧ (Bytes.ofString line).length = l.cols) ∧
      (∃ q : ℕ × ℕ, w.robot.position.row.toInt = q.1 ∧ w.robot.position.col.toInt = q.2 ∧
        w.picture.RobotAt q w.robot.heading ∧
        (∀ q' symbol, item? w.picture q' = some symbol → symbol ∈ ['u', 'r', 'd', 'l'] → q' = q) ∧
        ∀ q' : ℕ × ℕ, q'.1 < l.rows → q'.2 < l.cols → q' ≠ q → ∃ symbol c,
          item? w.picture q' = some symbol ∧ l.cell? (Position.ofIndex q'.1 q'.2) = some c ∧
          (symbol = 'W' ↔ c = .white ∧ w.isPressed (Position.ofIndex q'.1 q'.2) = true) ∧
          (symbol = 'w' ↔ c = .white ∧ w.isPressed (Position.ofIndex q'.1 q'.2) = false) ∧
          (c ≠ .white → some symbol = if Position.ofIndex q'.1 q'.2 = l.robot.position then some '.'
            else item? (l.storedRows.map String.toList) q')) ∧
      (actions = [] → w.picture = (l.render.toList.splitOn '\n').take l.rows) ∧
      ((∀ p, w.isPressed p = false) → l.cell? w.robot.position = some .empty →
        Level.parse o (Bytes.ofString w.stored) = .ok { l with robot := w.robot }) := by
  have hcharted := Level.charted_of_load hl
  have hsurveyed := Level.surveyed_of_load hl
  have hpath : w.OnPath l := hw ▸ (onPath_start hcharted hsurveyed).run hcharted hsurveyed actions
  obtain ⟨q, h⟩ := hpath.exists_stands hcharted
  obtain ⟨c, hitem⟩ := h.cell
  obtain ⟨hrow, hcol⟩ := hcharted.toInt_ofIndex hitem
  have hlevel : w.level.Charted := h.level_eq ▸ hcharted
  obtain ⟨hheight, hwidth⟩ := length_picture hlevel
  rw [h.level_eq] at hheight hwidth
  refine ⟨display?_eq hlevel, by rwa [picture, List.length_map] at hheight, fun line hline ↦ ?_,
    ⟨q, h.position ▸ hrow, h.position ▸ hcol, h.robotAt, fun _ _ ↦ h.eq_of_item?,
      fun q' hrow' hcol' hne ↦ ?_⟩, ?_, fun hreleased hempty ↦ ?_⟩
  · have hline : line.toList ∈ w.picture := List.mem_map_of_mem hline
    have hlength := hwidth _ hline
    refine ⟨hlength, ?_⟩
    rw [Bytes.ofString, Bytes.ofChars_eq_map fun c hc ↦ (h.ascii_of_mem hline c hc).1,
      List.length_map, hlength]
  · obtain ⟨c', hitem'⟩ := hcharted.exists_item?_of_lt hrow' hcol'
    obtain ⟨hpressed, hreleased, hother⟩ := h.shown_cases hsurveyed hne hitem'
    refine ⟨_, c', by rw [h.item?_picture, hitem', Option.map_some], hcharted.cell?_ofIndex hitem',
      hpressed, hreleased, fun hwhite ↦ ?_⟩
    rw [hother hwhite, Level.storedRows_eq, item?_mapPlaces, hitem', Option.map_some,
      apply_ite some]
  · rintro rfl
    exact hw ▸ (take_splitOn_render hcharted hsurveyed).symm
  · rw [h.position, hcharted.cell?_ofIndex hitem] at hempty
    exact h.parse_stored hreleased (hempty ▸ hitem) hl

/-- A passage with a white button and a gray one. -/
def passage : Level :=
  Level.ofGrid "passage" 1 5 5 10 ⟨Position.ofIndex 0 0, .right⟩
    [[.empty, .white, .empty, .gray, .empty]]

/-- The white button is passed by and pressed. Later the gray one releases it, and what is seen from
then on is a level again. -/
theorem passage_shown :
    Level.load ⟨1, 5, "passage"⟩ (.ofBytes (Bytes.ofString "rw.g.\n5\n10")) = .ok passage ∧
    ((start passage).run (.replicate 2 (.command .forward))).display? = some [".Wrg."] ∧
    ((start passage).run (.replicate 4 (.command .forward))).display? = some [".w.gr"] ∧
    Level.parse ⟨1, 5, "passage"⟩ (Bytes.ofString ".w.gr\n5\n10\n") =
      .ok { passage with robot := ⟨Position.ofIndex 0 4, .right⟩ } := by
  have hl : Level.load ⟨1, 5, "passage"⟩ (.ofBytes (Bytes.ofString "rw.g.\n5\n10")) =
      .ok passage := by
    decide +kernel
  obtain ⟨hpressed, -⟩ := snapshot_shows_state hl (.replicate 2 (.command .forward)) _ rfl
  obtain ⟨hreleased, -, -, -, -, hagain⟩ :=
    snapshot_shows_state hl (.replicate 4 (.command .forward)) _ rfl
  have hflags : ((start passage).run (.replicate 4 (.command .forward))).flags =
      [(Position.ofIndex 0 1, false)] := by
    decide +kernel
  have hstored : ((start passage).run (.replicate 4 (.command .forward))).stored =
      ".w.gr\n5\n10\n" := by
    decide +kernel
  have hrobot : ((start passage).run (.replicate 4 (.command .forward))).robot =
      ⟨Position.ofIndex 0 4, .right⟩ := by
    decide +kernel
  rw [hstored, hrobot] at hagain
  refine ⟨hl, hpressed.trans (by decide +kernel), hreleased.trans (by decide +kernel),
    hagain (fun p ↦ ?_) (by decide +kernel)⟩
  rw [isPressed, hflags]
  exact ButtonFlags.isSet_eq_false (by simp)

end World

end RobotGolf
