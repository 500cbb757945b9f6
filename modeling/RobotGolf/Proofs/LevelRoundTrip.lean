import Mathlib.Tactic.IntervalCases
import RobotGolf.Proofs.Loading
/-!
# Rendering a level and loading it again

`Level.render` shows a level in the format that it is loaded from. The lines of the grid come back
unchanged, since every symbol is the symbol of what it was read as: a robot hides an empty cell, and
no other cell is hidden because there is one robot only (`Level.Stored.map_toList_storedRows`). Of
the two numbers only the values are kept, so they come back without zeros in front. So what is
rendered has the right layout again (`Level.Stored.render`), with the same grid, and is loaded as
the same level (`Level.parse_inverts_render`).
-/

namespace RobotGolf

/-- The first lines of a text, each with its end. -/
def Bytes.firstLines : ℕ → Bytes → Bytes
  | 0, _ => []
  | _, [] => []
  | n + 1, b :: rest =>
    if b = Place.newline then b :: firstLines n rest else b :: firstLines (n + 1) rest

/-! ### Symbols -/

namespace Picture

variable {lines : Picture} {p q : ℕ × ℕ} {h k : Heading} {c : Char}

theorem symbol_of_mem_headings (hmem : (c, h) ∈ headings) : h.symbol = c := by
  simp only [headings, List.mem_cons, Prod.mk.injEq, List.not_mem_nil, or_false] at hmem
  rcases hmem with ⟨rfl, rfl⟩ | ⟨rfl, rfl⟩ | ⟨rfl, rfl⟩ | ⟨rfl, rfl⟩ <;> rfl

theorem eq_of_mem_headings (hh : (c, h) ∈ headings) (hk : (c, k) ∈ headings) : h = k := by
  have htile : Tile.robot h = .robot k :=
    (Tile.ofSymbol_eq_robot_iff.2 hh).symm.trans (Tile.ofSymbol_eq_robot_iff.2 hk)
  exact Tile.robot.inj htile

/-- There is only one robot in a proper picture. -/
theorem Proper.robot_unique (hproper : lines.Proper) (hp : lines.RobotAt p h)
    (hq : lines.RobotAt q k) : p = q ∧ h = k := by
  obtain rfl : p = q := hproper.robot.unique ⟨h, hp⟩ ⟨k, hq⟩
  obtain ⟨symbol, hh, hp⟩ := hp
  obtain ⟨symbol', hk, hq⟩ := hq
  obtain rfl : symbol = symbol' := Option.some.inj (hp.symm.trans hq)
  exact ⟨rfl, eq_of_mem_headings hh hk⟩

/-- A symbol that is not that of a robot is the symbol of the cell that it is read as. -/
theorem symbol_toCell_ofSymbol (hc : c ∈ Level.symbols) (hrobot : ∀ h, (c, h) ∉ headings) :
    (Tile.ofSymbol c).toCell.symbol = c := by
  rcases htile : Tile.ofSymbol c with cell | h
  · have hread : Tile.ofChar? c = some (.cell cell) :=
      Level.ofChar?_eq_some_iff.2 ⟨hc, htile.symm⟩
    unfold Tile.ofChar? at hread
    split at hread <;> cases hread <;> rfl
  · exact absurd (Tile.ofSymbol_eq_robot_iff.1 htile) (hrobot h)

end Picture

namespace Level

variable {o : Options} {lines : Picture} {points budget : List Char} {text : Bytes} {l : Level}

/-! ### The numbers -/

theorem decimal_toDigits (n : ℕ) : decimal (Nat.toDigits 10 n) = n :=
  Nat.ofDigitChars_ten_toDigits

theorem isNumeral_toDigits {n limit : ℕ} (hpos : 1 ≤ n) (hlt : n < limit) :
    IsNumeral limit (Nat.toDigits 10 n) where
  ne_nil := Nat.toDigits_ne_nil
  legal _ hc := Nat.isDigit_of_mem_toDigits (by omega) (by omega) hc
  pos := by rwa [decimal_toDigits]
  lt := by rwa [decimal_toDigits]

/-- The digits of a positive number do not start with a zero. -/
theorem head?_toDigits_ne_zero {n : ℕ} (hpos : 1 ≤ n) :
    (Nat.toDigits 10 n).head? ≠ some '0' := by
  induction n using Nat.strongRecOn with
  | ind n ih =>
    rcases Nat.lt_or_ge n 10 with hlt | hge
    · rw [Nat.toDigits_of_lt_base hlt]
      interval_cases n <;> decide
    · rw [Nat.toDigits_of_base_le (by omega) hge, List.head?_append_of_ne_nil _ Nat.toDigits_ne_nil]
      exact ih (n / 10) (by omega) (by omega)

/-! ### The grid -/

theorem toList_render (l : Level) : l.render.toList =
    ended (l.storedRows.map String.toList) ++ Nat.toDigits 10 l.points ++
      '\n' :: (Nat.toDigits 10 l.maxBytes ++ ['\n']) := by
  simp [Level.render, ended, String.toList_join, List.flatMap_map]

section Grid

variable {p : ℕ × ℕ} {k : Heading} (h : Stored o lines points budget text)
  (hproper : lines.Proper) (hrobot : lines.RobotAt p k)
  (hpose : l.robot = ⟨Position.ofIndex p.1 p.2, k⟩)

include h hproper hrobot hpose

/-- The symbol that a cell is stored with is the one that it was read from. -/
theorem Stored.startSymbol_eq {q : ℕ × ℕ} {c : Char} (hitem : item? lines q = some c) :
    l.startSymbol (Position.ofIndex q.1 q.2) (Tile.ofSymbol c).toCell = c := by
  obtain ⟨symbol, hheading, hp⟩ := id hrobot
  rw [startSymbol, hpose]
  by_cases hplace : q = p
  · obtain rfl := hplace
    obtain rfl : symbol = c := Option.some.inj (hp.symm.trans hitem)
    rw [if_pos rfl]
    exact Picture.symbol_of_mem_headings hheading
  · -- Places within the dimensions differ as positions, and the robot is at one of them only.
    have hposition : Position.ofIndex q.1 q.2 ≠ Position.ofIndex p.1 p.2 := by
      intro heq
      have hq := h.names hitem
      have hp := h.names hp
      rw [heq] at hq
      exact hplace (Prod.ext (by exact_mod_cast hq.row.symm.trans hp.row)
        (by exact_mod_cast hq.col.symm.trans hp.col))
    rw [if_neg hposition]
    obtain ⟨line, hline, hc⟩ := Option.bind_eq_some_iff.1 hitem
    have hlegal : c ∈ symbols :=
      (h.row line (List.mem_of_getElem? hline)).legal c (List.mem_of_getElem? hc)
    refine Picture.symbol_toCell_ofSymbol hlegal fun k' hk' ↦ hplace ?_
    exact (hproper.robot_unique ⟨c, hk', hitem⟩ hrobot).1

/-- **The rows of the grid are stored as they were read.** -/
theorem Stored.map_toList_storedRows (hgrid : l.grid = lines.grid) :
    l.storedRows.map String.toList = lines := by
  have hcells : ∀ row ∈ lines.zipIdx, (row.1.zipIdx.map fun cell ↦
      l.startSymbol (Position.ofIndex row.2 cell.2) (Tile.ofSymbol cell.1).toCell) = row.1 := by
    rintro ⟨line, r⟩ hrow
    calc (line.zipIdx.map fun cell ↦
          l.startSymbol (Position.ofIndex r cell.2) (Tile.ofSymbol cell.1).toCell)
        = line.zipIdx.map Prod.fst := by
          refine List.map_congr_left fun ⟨c, i⟩ hcell ↦ ?_
          have hitem : item? lines (r, i) = some c := Option.bind_eq_some_iff.2
            ⟨line, List.mem_zipIdx_iff_getElem?.1 hrow, List.mem_zipIdx_iff_getElem?.1 hcell⟩
          exact h.startSymbol_eq hproper hrobot hpose hitem
      _ = line := List.zipIdx_map_fst ..
  calc l.storedRows.map String.toList
      = lines.zipIdx.map fun row ↦ row.1.zipIdx.map fun cell ↦
          l.startSymbol (Position.ofIndex row.2 cell.2) (Tile.ofSymbol cell.1).toCell := by
        simp [storedRows, hgrid, Picture.grid, Picture.tiles, List.zipIdx_map, Function.comp_def]
    _ = lines.zipIdx.map Prod.fst := List.map_congr_left hcells
    _ = lines := List.zipIdx_map_fst ..

/-- What is rendered has the layout of a level again, and the grid is the same. -/
theorem Stored.render (hgrid : l.grid = lines.grid) (hpoints : l.points = decimal points)
    (hbudget : l.maxBytes = decimal budget) :
    Stored o lines (Nat.toDigits 10 l.points) (Nat.toDigits 10 l.maxBytes)
      (Bytes.ofString l.render) := by
  refine ⟨h.count, h.row, ?_, ?_, [Place.newline], ?_, Or.inr ⟨[], rfl⟩⟩
  · exact isNumeral_toDigits (hpoints ▸ h.pointsNumeral.pos) (hpoints ▸ h.pointsNumeral.lt)
  · exact isNumeral_toDigits (hbudget ▸ h.budgetNumeral.pos) (hbudget ▸ h.budgetNumeral.lt)
  · have hend : Bytes.ofChars ['\n'] = [Place.newline] := by decide
    rw [Bytes.ofString, toList_render, h.map_toList_storedRows hproper hrobot hpose hgrid, ← hend,
      ← Bytes.ofChars_append, List.append_assoc, List.append_assoc, List.append_assoc,
      List.cons_append]

end Grid

/-! ### The text -/

theorem firstLines_line {line : List Char} (h : ∀ c ∈ line, c ∈ symbols) (n : ℕ) (rest : Bytes) :
    Bytes.firstLines (n + 1) (Bytes.ofChars (line ++ ['\n']) ++ rest) =
      Bytes.ofChars (line ++ ['\n']) ++ Bytes.firstLines n rest := by
  induction line with
  | nil =>
    have hnewline : Bytes.ofChars ['\n'] = [Place.newline] := by decide
    rw [List.nil_append, hnewline, List.singleton_append, Bytes.firstLines, if_pos rfl]
    rfl
  | cons c line ih =>
    obtain ⟨hc, hline⟩ := List.forall_mem_cons.1 h
    have hsymbols : ∀ c ∈ symbols, c.toNat ≤ 127 ∧ UInt8.ofNat c.toNat ≠ Place.newline := by
      simp [symbols, Place.newline]
    obtain ⟨hascii, hne⟩ := hsymbols c hc
    rw [List.cons_append, Bytes.ofChars_cons_ascii hascii, List.cons_append, Bytes.firstLines,
      if_neg hne, ih hline, List.cons_append]

/-- The lines of the grid are the first ones of a text that begins with them. -/
theorem firstLines_ended (h : ∀ line ∈ lines, IsRow o line) (rest : Bytes) :
    Bytes.firstLines lines.length (Bytes.ofChars (ended lines) ++ rest) =
      Bytes.ofChars (ended lines) := by
  induction lines with
  | nil => rw [List.length_nil, Bytes.firstLines]; rfl
  | cons line lines ih =>
    obtain ⟨hline, hlines⟩ := List.forall_mem_cons.1 h
    have hended : Bytes.ofChars (ended (line :: lines)) =
        Bytes.ofChars (line ++ ['\n']) ++ Bytes.ofChars (ended lines) := Bytes.ofChars_append ..
    rw [hended, List.append_assoc, List.length_cons, firstLines_line hline.legal, ih hlines]

/-- Dimensions are not changed by being counted. -/
theorem Options.Usable.eq (ho : o.Usable) :
    ⟨Int64.ofNat o.rows.toInt.toNat, Int64.ofNat o.cols.toInt.toNat, o.name⟩ = o := by
  have hword : ∀ x : Int64, 1 ≤ x → Int64.ofNat x.toInt.toNat = x := by
    intro x hx
    have hpos : 1 ≤ x.toInt := Int64.le_iff_toInt_le.1 hx
    have hle := Int64.toInt_le x
    rw [Int64.toInt_maxValue] at hle
    rw [← Int64.toInt_inj, Int64.toInt_ofNat_of_lt (by omega)]
    omega
  rw [hword o.rows ho.rows, hword o.cols ho.cols]

/-- **Rendering and loading are inverse.** A level that has been loaded is loaded from its rendering
again, which is the first lines of the text unchanged and the two numbers without zeros in front. -/
theorem parse_inverts_render (o : Options) (text : Bytes) (l : Level) (h : parse o text = .ok l) :
    parse ⟨Int64.ofNat l.rows, Int64.ofNat l.cols, l.name⟩ (Bytes.ofString l.render) = .ok l ∧
      Bytes.ofString l.render = Bytes.firstLines l.rows text ++
        Bytes.ofString (toString l.points ++ "\n" ++ toString l.maxBytes ++ "\n") ∧
      (toString l.points).toList.head? ≠ some '0' ∧
      (toString l.maxBytes).toList.head? ≠ some '0' := by
  obtain ⟨ho, lines, points, budget, hstored, hproper⟩ := exists_stored_of_parse h
  obtain ⟨p, k, hrobot, hparse⟩ := hstored.exists_parse ho hproper
  have hl := Except.ok.inj (hparse.symm.trans h)
  have hpose : l.robot = ⟨Position.ofIndex p.1 p.2, k⟩ := by rw [← hl]; rfl
  have hgrid : l.grid = lines.grid := by rw [← hl]; rfl
  have hpoints : l.points = decimal points := by rw [← hl]; rfl
  have hbudget : l.maxBytes = decimal budget := by rw [← hl]; rfl
  refine ⟨?_, ?_, ?_, ?_⟩
  · have hoptions : ⟨Int64.ofNat l.rows, Int64.ofNat l.cols, l.name⟩ = o := by
      rw [← hl]
      exact ho.eq
    have hrendered := hstored.render hproper hrobot hpose hgrid hpoints hbudget
    obtain ⟨q, k', hrobot', hparse'⟩ := hrendered.exists_parse ho hproper
    obtain ⟨rfl, rfl⟩ := hproper.robot_unique hrobot hrobot'
    rw [hoptions, hparse', decimal_toDigits, decimal_toDigits, hpoints, hbudget, hl]
  · have hrows : l.rows = lines.length := by
      have hcount := hstored.count
      rw [← hl]
      show o.rows.toInt.toNat = lines.length
      omega
    obtain ⟨rest, rfl, -⟩ := hstored.layout
    have hfirst : Bytes.firstLines l.rows
        (Bytes.ofChars (ended lines ++ points ++ '\n' :: budget) ++ rest) =
          Bytes.ofChars (ended lines) := by
      rw [hrows, List.append_assoc, Bytes.ofChars_append, List.append_assoc]
      exact firstLines_ended hstored.row _
    rw [hfirst, Bytes.ofString, toList_render,
      hstored.map_toList_storedRows hproper hrobot hpose hgrid, List.append_assoc,
      Bytes.ofChars_append, Bytes.ofString]
    simp [String.toList_append]
  · rw [Nat.toString_eq_ofList_toDigits, String.toList_ofList, hpoints]
    exact head?_toDigits_ne_zero hstored.pointsNumeral.pos
  · rw [Nat.toString_eq_ofList_toDigits, String.toList_ofList, hbudget]
    exact head?_toDigits_ne_zero hstored.budgetNumeral.pos

/-- A small level with a wall and two buttons. -/
def pen : Level :=
  ofGrid "pen" 2 3 500 40 ⟨⟨0, 0⟩, .right⟩ [[.empty, .empty, .gray], [.wall, .wall, .white]]

/-- The level as it may be stored, with zeros in front of the numbers and a note behind them. -/
def penText : Bytes := Bytes.ofString "r.g\n**w\n0500\n040\nto be tested"

/-- The zeros and the note are gone from the rendering, and the level is the same. -/
theorem pen_restored : parse ⟨2, 3, "pen"⟩ penText = .ok pen ∧
    parse ⟨2, 3, "pen"⟩ (Bytes.ofString pen.render) = .ok pen ∧
    Bytes.ofString pen.render = Bytes.firstLines 2 penText ++ Bytes.ofString "500\n40\n" := by
  have hparse : parse ⟨2, 3, "pen"⟩ penText = .ok pen :=
    load_eq_ofWalls (by decide +kernel)
  obtain ⟨hagain, hrender, -⟩ := parse_inverts_render ⟨2, 3, "pen"⟩ penText pen hparse
  exact ⟨hparse, hagain, hrender⟩

end Level

end RobotGolf
