import RobotGolf.Proofs.PositionSets
import RobotGolf.Proofs.StoredFormat
/-!
# The buttons of a level are those of its grid

A level lists its buttons and keeps sets of them, and both have been made from its grid. For a level
that was loaded (`Level.charted_of_load`) they can be asked instead of the grid, for any position at
all: a list of buttons holds the positions whose cell is such a button (`Charted.mem_positions_iff`)
in ascending order (`Charted.ascending_positions`), and a set of them answers like the list
(`Charted.isWhiteButton_iff`, `Charted.isGrayButton_iff`).
-/

namespace RobotGolf

namespace Level

/-- The grid has the dimensions of the level, these can be counted in words, and buttons are found
in the grid. -/
structure Charted (l : Level) : Prop where
  height : l.grid.length = l.rows
  width : ∀ row ∈ l.grid, row.length = l.cols
  rows_lt : l.rows < 2 ^ 63
  cols_lt : l.cols < 2 ^ 63
  grayButtons : l.grayButtons = l.grid.positions .gray
  whiteButtons : l.whiteButtons = l.grid.positions .white
  gray : l.gray = .ofList l.grayButtons
  white : l.white = .ofList l.whiteButtons

variable {l : Level} {p : Position} {kind : Cell}

/-- **A level that was loaded is charted.** -/
theorem charted_of_load {o : Options} {feed : Feed} (h : load o feed = .ok l) : l.Charted := by
  obtain ⟨tiles, points, maxBytes, hreadable⟩ := exists_readable_of_load h
  obtain ⟨_, _, _, htiles, -, -⟩ := hreadable.parts
  obtain ⟨lines, hcount, hlines, rfl, -⟩ := (readTiles_eq_ok_iff (toInt_cols_pos hreadable.cols)
    (toInt_add_one hreadable.cols_ne_maxValue)).1 htiles
  rw [hreadable.load_eq] at h
  split at h
  · cases h
  obtain rfl := Except.ok.inj h
  have hrows := o.rows.toInt_lt
  have hcols := o.cols.toInt_lt
  refine ⟨?_, ?_, ?_, ?_, rfl, rfl, rfl, rfl⟩
  · simpa [ofWalls, Picture.tiles] using hcount
  · intro row hrow
    obtain ⟨_, hmem, rfl⟩ := List.mem_map.1 hrow
    obtain ⟨line, hline, rfl⟩ := List.mem_map.1 hmem
    have hwidth := (hlines line hline).width
    rw [List.length_map, List.length_map]
    show line.length = o.cols.toInt.toNat
    omega
  · show o.rows.toInt.toNat < 2 ^ 63
    omega
  · show o.cols.toInt.toNat < 2 ^ 63
    omega

namespace Charted

/-- The cells of the grid are within its dimensions. -/
theorem lt_of_item? (h : l.Charted) {q : ℕ × ℕ} {c : Cell} (hitem : item? l.grid q = some c) :
    q.1 < l.rows ∧ q.2 < l.cols := by
  obtain ⟨row, hrow, hcell⟩ := Option.bind_eq_some_iff.1 hitem
  obtain ⟨hlt, -⟩ := List.getElem?_eq_some_iff.1 hrow
  obtain ⟨hlt', -⟩ := List.getElem?_eq_some_iff.1 hcell
  exact ⟨h.height ▸ hlt, h.width row (List.mem_of_getElem? hrow) ▸ hlt'⟩

/-- So their coordinates do not wrap around. -/
theorem toInt_ofIndex (h : l.Charted) {q : ℕ × ℕ} {c : Cell} (hitem : item? l.grid q = some c) :
    (Position.ofIndex q.1 q.2).row.toInt = q.1 ∧ (Position.ofIndex q.1 q.2).col.toInt = q.2 := by
  obtain ⟨hrow, hcol⟩ := h.lt_of_item? hitem
  have hrows := h.rows_lt
  have hcols := h.cols_lt
  exact ⟨Int64.toInt_ofNat_of_lt (by omega), Int64.toInt_ofNat_of_lt (by omega)⟩

theorem mem_positions : p ∈ l.grid.positions kind ↔
    ∃ q : ℕ × ℕ, item? l.grid q = some kind ∧ Position.ofIndex q.1 q.2 = p := by
  simp only [Grid.positions, List.mem_map, List.mem_filter, beq_iff_eq, Prod.exists]
  constructor
  · rintro ⟨r, c, _, ⟨hmem, rfl⟩, rfl⟩
    exact ⟨r, c, mem_indexedRows.1 hmem, rfl⟩
  · rintro ⟨r, c, hitem, rfl⟩
    exact ⟨r, c, kind, ⟨mem_indexedRows.2 hitem, rfl⟩, rfl⟩

theorem isIndex_of_mem (h : l.Charted) (hp : p ∈ l.grid.positions kind) : p.IsIndex := by
  obtain ⟨q, hitem, rfl⟩ := mem_positions.1 hp
  obtain ⟨hrow, hcol⟩ := h.toInt_ofIndex hitem
  exact ⟨by omega, by omega⟩

/-- **The positions of one kind are those with such a cell.** -/
theorem mem_positions_iff (h : l.Charted) :
    p ∈ l.grid.positions kind ↔ l.cell? p = some kind := by
  rw [mem_positions]
  constructor
  · rintro ⟨q, hitem, rfl⟩
    obtain ⟨hrow, hcol⟩ := h.toInt_ofIndex hitem
    have hinside : ¬ ((Position.ofIndex q.1 q.2).row < 0 ∨ (Position.ofIndex q.1 q.2).col < 0) := by
      rw [Int64.lt_iff_toInt_lt, Int64.lt_iff_toInt_lt, hrow, hcol, Int64.toInt_zero]
      omega
    rw [cell?, Grid.cell?, if_neg hinside, hrow, hcol]
    exact hitem
  · intro hcell
    rw [cell?, Grid.cell?] at hcell
    split at hcell
    · cases hcell
    rename_i hinside
    -- inside of the grid a position is given back by its own row and column
    refine ⟨(p.row.toInt.toNat, p.col.toInt.toNat), hcell, ?_⟩
    obtain ⟨hrow, hcol⟩ := h.toInt_ofIndex (q := (p.row.toInt.toNat, p.col.toInt.toNat)) hcell
    rw [Int64.lt_iff_toInt_lt, Int64.lt_iff_toInt_lt, Int64.toInt_zero] at hinside
    apply Position.place_injective
    rw [Position.place, Position.place, hrow, hcol]
    congr 2 <;> omega

/-- Positions are ordered like the places of their cells. -/
theorem place_ofIndex_lt (h : l.Charted) {q q' : ℕ × ℕ} {c c' : Cell}
    (hq : item? l.grid q = some c) (hq' : item? l.grid q' = some c') (hprecedes : Precedes q q') :
    (Position.ofIndex q.1 q.2).place < (Position.ofIndex q'.1 q'.2).place := by
  obtain ⟨hrow, hcol⟩ := h.toInt_ofIndex hq
  obtain ⟨hrow', hcol'⟩ := h.toInt_ofIndex hq'
  rw [Position.place, Position.place, Prod.Lex.toLex_lt_toLex, hrow, hcol, hrow', hcol']
  unfold Precedes at hprecedes
  omega

/-- **The positions of one kind ascend.** -/
theorem ascending_positions (h : l.Charted) (kind : Cell) :
    PositionSet.Ascending (l.grid.positions kind) := by
  have hpairwise : (l.grid.indexed.filter (·.2 == kind)).Pairwise fun x y ↦ Precedes x.1 y.1 :=
    (pairwise_indexedRows l.grid).filter _
  refine List.pairwise_map.2 (hpairwise.imp_of_mem fun {x y} hx hy hprecedes ↦ ?_)
  exact h.place_ofIndex_lt (mem_indexedRows.1 (List.mem_filter.1 hx).1)
    (mem_indexedRows.1 (List.mem_filter.1 hy).1) hprecedes

theorem nodup_positions (h : l.Charted) (kind : Cell) : (l.grid.positions kind).Nodup :=
  (h.ascending_positions kind).imp fun hlt heq ↦ hlt.ne (congrArg Position.place heq)

theorem isWhiteButton_iff (h : l.Charted) : l.isWhiteButton p = true ↔ p ∈ l.whiteButtons := by
  rw [isWhiteButton, h.white]
  refine PositionSet.contains_ofList fun q hq ↦ ?_
  exact h.isIndex_of_mem (h.whiteButtons ▸ hq)

theorem isGrayButton_iff (h : l.Charted) : l.isGrayButton p = true ↔ p ∈ l.grayButtons := by
  rw [isGrayButton, h.gray]
  refine PositionSet.contains_ofList fun q hq ↦ ?_
  exact h.isIndex_of_mem (h.grayButtons ▸ hq)

end Charted

end Level

end RobotGolf
