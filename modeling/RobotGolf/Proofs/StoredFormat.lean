import Mathlib.Data.List.TakeDrop
import RobotGolf.Proofs.Glyphs
import RobotGolf.Proofs.Survey
import RobotGolf.Proofs.Words
/-!
# The format of stored levels

`Level.Stored` says which texts are laid out like a level: lines of symbols, two numbers, and
whatever comes behind them. It is about octets and does not mention a reader. Whether the grid in
such a text is one of a level is another question, which `Picture.Proper` answers.

Each of the readers that `Level.load` is made of accepts exactly its part of the format, and leaves
exactly what is behind it: `readTiles_eq_ok_iff` and `readNumber_eq_ok_iff`. A text that is not laid
out like a level is therefore refused before its grid is looked at (`Readable.exists_stored`),
and for one that is, loading comes down to the survey of its grid (`Readable.load_eq`).
-/

namespace RobotGolf.Level

open Glyph (Begins begins_nil begins_append begins_cons begins_glyphs_iff)

/-! ### The format -/

/-- The symbols of a grid. -/
def symbols : List Char := ['.', '*', 'g', 'w', 'u', 'r', 'd', 'l']

/-- A line of the grid, without its end: a symbol for every column. -/
structure IsRow (o : Options) (line : List Char) : Prop where
  width : (line.length : ℤ) = o.cols.toInt
  legal : ∀ c ∈ line, c ∈ symbols

/-- Lines of text, each with its end. -/
def ended (lines : Picture) : List Char := lines.flatMap (· ++ ['\n'])

/-- The value of a string of digits. -/
def decimal (digits : List Char) : ℕ := Nat.ofDigitChars 10 digits 0

/-- A non-empty string of digits whose value is positive and below a limit. -/
structure IsNumeral (limit : ℕ) (digits : List Char) : Prop where
  ne_nil : digits ≠ []
  legal : ∀ c ∈ digits, c.isDigit = true
  pos : 1 ≤ decimal digits
  lt : decimal digits < limit

/-- A text that is laid out like a level: the lines of the grid, the points, and the budget of
bytes, with the end of the text or the end of a line behind it. -/
structure Stored (o : Options) (lines : Picture) (points budget : List Char) (text : Bytes) :
    Prop where
  count : (lines.length : ℤ) = o.rows.toInt
  row : ∀ line ∈ lines, IsRow o line
  pointsNumeral : IsNumeral 1000000 points
  budgetNumeral : IsNumeral 1000 budget
  layout : ∃ rest, text = Bytes.ofChars (ended lines ++ points ++ '\n' :: budget) ++ rest ∧
    (rest = [] ∨ ∃ more, rest = Place.newline :: more)

variable {o : Options} {failure : Option String} {glyphs rest : List Glyph}

/-! ### Lines -/

theorem begins_of_readLine {limit : ℕ} {line : List Char}
    (h : readLine failure limit glyphs = .ok (line, rest)) : Begins glyphs line rest := by
  induction limit generalizing glyphs line with
  | zero =>
    obtain ⟨rfl, rfl⟩ : [] = line ∧ glyphs = rest := by simpa [readLine] using h
    exact begins_nil.2 rfl
  | succ limit ih =>
    rcases glyphs with - | ⟨g, glyphs⟩
    · rcases failure with - | reason
      · obtain ⟨rfl, rfl⟩ : [] = line ∧ [] = rest := by simpa [readLine] using h
        exact begins_nil.2 rfl
      · simp [readLine] at h
    · rw [readLine] at h
      by_cases hend : g.char = '\n'
      · obtain ⟨rfl, rfl⟩ : ['\n'] = line ∧ glyphs = rest := by simpa [hend] using h
        exact begins_cons.2 ⟨g, glyphs, hend, rfl, begins_nil.2 rfl⟩
      · rw [if_neg (by simpa using hend)] at h
        rcases hread : readLine failure limit glyphs with e | ⟨line', rest'⟩ <;> rw [hread] at h
        · cases h
        · obtain ⟨rfl, rfl⟩ : g.char :: line' = line ∧ rest' = rest := by simpa using h
          exact begins_cons.2 ⟨g, glyphs, rfl, rfl, ih hread⟩

theorem readLine_of_begins {limit : ℕ} {line : List Char} (hline : '\n' ∉ line)
    (hlimit : line.length < limit) (h : Begins glyphs (line ++ ['\n']) rest) :
    readLine failure limit glyphs = .ok (line ++ ['\n'], rest) := by
  induction line generalizing limit glyphs with
  | nil =>
    obtain ⟨limit, rfl⟩ := Nat.exists_eq_add_one_of_ne_zero (Nat.ne_of_gt hlimit)
    obtain ⟨g, behind, hg, rfl, hbehind⟩ := begins_cons.1 h
    obtain rfl := begins_nil.1 hbehind
    simp [readLine, hg]
  | cons c line ih =>
    obtain ⟨limit, rfl⟩ :=
      Nat.exists_eq_add_one_of_ne_zero (Nat.ne_of_gt (Nat.zero_lt_of_lt hlimit))
    obtain ⟨g, behind, rfl, rfl, hbehind⟩ := begins_cons.1 h
    obtain ⟨hg, hline⟩ := not_or.1 (mt List.mem_cons.2 hline)
    rw [readLine, if_neg (by simpa using Ne.symm hg),
      ih hline (Nat.lt_of_succ_lt_succ hlimit) hbehind]
    rfl

/-! ### The grid -/

theorem ofChar?_eq_some_iff {c : Char} {tile : Tile} :
    Tile.ofChar? c = some tile ↔ c ∈ symbols ∧ tile = Tile.ofSymbol c := by
  constructor
  · intro h
    refine ⟨?_, by rw [Tile.ofSymbol, h]; rfl⟩
    unfold Tile.ofChar? at h
    split at h <;> simp_all [symbols]
  · rintro ⟨hc, rfl⟩
    simp only [symbols, List.mem_cons, List.not_mem_nil, or_false] at hc
    rcases hc with rfl | rfl | rfl | rfl | rfl | rfl | rfl | rfl <;> rfl

theorem mapM_ofChar?_eq_some_iff {cs : List Char} {tiles : List Tile} :
    cs.mapM Tile.ofChar? = some tiles ↔ (∀ c ∈ cs, c ∈ symbols) ∧ tiles = cs.map Tile.ofSymbol := by
  induction cs generalizing tiles with
  | nil => simp [eq_comm]
  | cons c cs ih =>
    simp only [List.mapM_cons, Option.bind_eq_bind, Option.bind_eq_some_iff, ofChar?_eq_some_iff,
      ih, Option.pure_def, Option.some.injEq, List.forall_mem_cons, List.map_cons]
    constructor
    · rintro ⟨_, ⟨hc, rfl⟩, _, ⟨hcs, rfl⟩, rfl⟩
      exact ⟨⟨hc, hcs⟩, rfl⟩
    · rintro ⟨⟨hc, hcs⟩, rfl⟩
      exact ⟨_, ⟨hc, rfl⟩, _, ⟨hcs, rfl⟩, rfl⟩

/-- A line of the grid is a row with its end. -/
theorem tilesOfLine_eq_ok_iff (hcols : 1 ≤ o.cols.toInt) {n : ℕ} {chars : List Char}
    {tiles : List Tile} : tilesOfLine o n chars = .ok tiles ↔
      ∃ line, chars = line ++ ['\n'] ∧ IsRow o line ∧ tiles = line.map Tile.ofSymbol := by
  constructor
  · intro h
    unfold tilesOfLine at h
    split at h
    · cases h
    split at h
    · cases h
    dsimp only at h
    split at h
    · cases h
    rename_i _ _ tiles' hsymbols
    split at h
    · rename_i hwidth
      obtain ⟨hwidth, hended⟩ := hwidth
      obtain rfl : tiles' = tiles := by simpa using h
      rw [if_pos hended, mapM_ofChar?_eq_some_iff] at hsymbols
      obtain ⟨hlegal, rfl⟩ := hsymbols
      refine ⟨chars.dropLast, ?_, ⟨by simpa using hwidth, hlegal⟩, rfl⟩
      exact (List.dropLast_append_getLast? _ (by simpa using hended)).symm
    · cases h
  · rintro ⟨line, rfl, hrow, rfl⟩
    have hne : line ≠ [] := by
      rintro rfl
      have := hrow.width
      simp at this
      omega
    have hsymbols := mapM_ofChar?_eq_some_iff.2 ⟨hrow.legal, rfl⟩
    simp [tilesOfLine, hne, hsymbols, hrow.width]

/-- **The grid is read from lines that are rows**, as many as there are, and from nothing else. -/
theorem readTiles_eq_ok_iff (hcols : 1 ≤ o.cols.toInt)
    (hlimit : (o.cols + 1).toInt = o.cols.toInt + 1) {count n : ℕ} {tiles : List (List Tile)} :
    readTiles o failure count n glyphs = .ok (tiles, rest) ↔
      ∃ lines : Picture, lines.length = count ∧ (∀ line ∈ lines, IsRow o line) ∧
        tiles = lines.tiles ∧ Begins glyphs (ended lines) rest := by
  induction count generalizing n glyphs tiles with
  | zero =>
    simp only [readTiles, Except.ok.injEq, Prod.mk.injEq, List.length_eq_zero_iff]
    constructor
    · rintro ⟨rfl, rfl⟩
      exact ⟨[], rfl, by simp, rfl, begins_nil.2 rfl⟩
    · rintro ⟨_, rfl, -, rfl, hbegins⟩
      exact ⟨rfl, begins_nil.1 hbegins⟩
  | succ count ih =>
    rw [readTiles]
    constructor
    · intro h
      rcases hread : readLine failure (o.cols + 1).toInt.toNat glyphs with e | ⟨chars, behind⟩ <;>
        rw [hread] at h
      · cases h
      dsimp only at h
      rcases hline : tilesOfLine o n chars with e | row <;> rw [hline] at h
      · cases h
      dsimp only at h
      rcases hmore : readTiles o failure count (n + 1) behind with e | ⟨more, rest'⟩ <;>
        rw [hmore] at h
      · cases h
      obtain ⟨rfl, rfl⟩ : row :: more = tiles ∧ rest' = rest := by simpa using h
      obtain ⟨line, rfl, hrow, rfl⟩ := (tilesOfLine_eq_ok_iff hcols).1 hline
      obtain ⟨lines, rfl, hrows, rfl, hbehind⟩ := ih.1 hmore
      refine ⟨line :: lines, rfl, List.forall_mem_cons.2 ⟨hrow, hrows⟩, rfl, ?_⟩
      exact begins_append.2 ⟨behind, begins_of_readLine hread, hbehind⟩
    · rintro ⟨_ | ⟨line, lines⟩, hcount, hrows, rfl, hbegins⟩
      · cases hcount
      obtain ⟨hrow, hrows⟩ := List.forall_mem_cons.1 hrows
      obtain ⟨behind, hline, hbehind⟩ := begins_append.1 hbegins
      have hshort : line.length < (o.cols + 1).toInt.toNat := by
        have := hrow.width
        omega
      have hends : '\n' ∉ line := fun hmem ↦ absurd (hrow.legal _ hmem) (by decide)
      rw [readLine_of_begins hends hshort hline]
      dsimp only
      rw [(tilesOfLine_eq_ok_iff hcols).2 ⟨line, rfl, hrow, rfl⟩]
      dsimp only
      rw [ih.2 ⟨lines, Nat.succ.inj hcount, hrows, rfl, hbehind⟩]
      rfl

/-! ### Numbers -/

theorem digitsValue?_eq_some_iff {digits : List Char} {n : ℕ} : digitsValue? digits = some n ↔
    digits ≠ [] ∧ (∀ c ∈ digits, c.isDigit = true) ∧ decimal digits = n := by
  rw [digitsValue?, decimal, Nat.ofDigitChars_eq_foldl]
  by_cases hne : digits = []
  · simp [hne]
  · by_cases hlegal : ∀ c ∈ digits, c.isDigit = true
    · simp_all
    · have hall : digits.all Char.isDigit = false := by
        rw [← Bool.not_eq_true, List.all_eq_true]
        exact hlegal
      simp [hall, hlegal]

theorem span_newline_of_begins {digits : List Char} {behind : List Glyph}
    (hdigits : ∀ c ∈ digits, c.isDigit = true) (hbegins : Begins glyphs digits behind)
    (hhead : ∀ g ∈ behind.head?, g.char = '\n') :
    ∃ found, glyphs.span (·.char != '\n') = (found, behind) ∧ found.map Glyph.char = digits := by
  obtain ⟨found, rfl, rfl⟩ := hbegins
  refine ⟨found, ?_, rfl⟩
  have hfound : ∀ g ∈ found, (g.char != '\n') = true := by
    intro g hg
    rw [bne_iff_ne]
    intro hend
    have hdigit := hdigits _ (List.mem_map_of_mem hg)
    rw [hend] at hdigit
    exact absurd hdigit (by decide)
  rw [List.span_eq_takeWhile_dropWhile, List.takeWhile_append_of_pos hfound,
    List.dropWhile_append_of_pos hfound]
  rcases behind with - | ⟨g, behind⟩
  · simp
  · have hg : g.char = '\n' := hhead g rfl
    simp [hg]

/-- **A number is read from a numeral** and the end of its line. Behind a numeral at the end of what
there is, there must be nothing to wait for. -/
theorem readNumber_eq_ok_iff {limit n value : ℕ} :
    readNumber failure limit n glyphs = .ok (value, rest) ↔
      ∃ digits behind, IsNumeral limit digits ∧ decimal digits = value ∧
        Begins glyphs digits behind ∧ (behind = [] → failure = none) ∧
        (∀ g ∈ behind.head?, g.char = '\n') ∧ behind.tail = rest := by
  constructor
  · intro h
    rw [readNumber, List.span_eq_takeWhile_dropWhile] at h
    dsimp only at h
    have hfailure : glyphs.dropWhile (·.char != '\n') = [] → failure = none := by
      intro hnil
      rcases failure with - | reason
      · rfl
      · simp [hnil] at h
    split at h
    · cases h
    split at h
    · cases h
    rename_i m hdigits
    split at h
    · rename_i hm
      obtain ⟨rfl, rfl⟩ : m = value ∧ (glyphs.dropWhile (·.char != '\n')).tail = rest := by
        simpa using h
      obtain ⟨hne, hlegal, rfl⟩ := digitsValue?_eq_some_iff.1 hdigits
      refine ⟨_, _, ⟨hne, hlegal, hm.1, hm.2⟩, rfl,
        ⟨_, rfl, List.takeWhile_append_dropWhile.symm⟩, hfailure, fun g hg ↦ ?_, rfl⟩
      have hnot := List.head?_dropWhile_not (fun g : Glyph ↦ g.char != '\n') glyphs
      rw [Option.mem_def.1 hg] at hnot
      simpa using hnot
    · cases h
  · rintro ⟨digits, behind, hnumeral, rfl, hbegins, hfailure, hhead, rfl⟩
    obtain ⟨found, hspan, rfl⟩ := span_newline_of_begins hnumeral.legal hbegins hhead
    rw [readNumber, hspan]
    dsimp only
    have hvalue := digitsValue?_eq_some_iff.2 ⟨hnumeral.ne_nil, hnumeral.legal, rfl⟩
    rcases behind with - | ⟨g, behind⟩
    · rw [hfailure rfl]
      simp only [hvalue]
      rw [if_pos ⟨hnumeral.pos, hnumeral.lt⟩]
    · simp only [hvalue]
      rw [if_pos ⟨hnumeral.pos, hnumeral.lt⟩]

/-! ### Octets -/

variable {text : Bytes}

theorem head_newline_iff : (∀ g ∈ (Bytes.glyphs text).head?, g.char = '\n') ↔
    text = [] ∨ ∃ more, text = Place.newline :: more := by
  constructor
  · intro h
    rcases hglyphs : Bytes.glyphs text with - | ⟨g, glyphs⟩
    · have hoctets := Bytes.octets_glyphs text
      rw [hglyphs] at hoctets
      exact Or.inl hoctets.symm
    · have hg : g.char = '\n' := h g (by simp [hglyphs])
      have hbegins : Begins (Bytes.glyphs text) ['\n'] glyphs :=
        begins_cons.2 ⟨g, glyphs, hg, hglyphs, begins_nil.2 rfl⟩
      obtain ⟨more, rfl, -⟩ := (begins_glyphs_iff (by simp)).1 hbegins
      exact Or.inr ⟨more, rfl⟩
  · rintro (rfl | ⟨more, rfl⟩) g hg
    · simp [Bytes.glyphs_nil] at hg
    · rw [Bytes.glyphs_cons, Bytes.uncons_of_lt (by decide)] at hg
      obtain rfl : ⟨Char.ofNat Place.newline.toNat, [Place.newline]⟩ = g := by simpa using hg
      decide

/-- The layout of a text, in glyphs. -/
theorem layout_iff {cs : List Char} (hascii : ∀ c ∈ cs, c.toNat ≤ 127) :
    (∃ rest, text = Bytes.ofChars cs ++ rest ∧
      (rest = [] ∨ ∃ more, rest = Place.newline :: more)) ↔
    ∃ behind, Begins (Bytes.glyphs text) cs behind ∧ ∀ g ∈ behind.head?, g.char = '\n' := by
  simp only [begins_glyphs_iff hascii, ← head_newline_iff]
  constructor
  · rintro ⟨rest, htext, hhead⟩
    exact ⟨_, ⟨rest, htext, rfl⟩, hhead⟩
  · rintro ⟨_, ⟨rest, htext, rfl⟩, hhead⟩
    exact ⟨rest, htext, hhead⟩

theorem IsNumeral.ascii {limit : ℕ} {digits : List Char} (h : IsNumeral limit digits) :
    ∀ c ∈ digits, c.toNat ≤ 127 := by
  intro c hc
  have hrange := charIsDigit_iff.1 (h.legal c hc)
  omega

theorem ascii_ended {lines : Picture} (h : ∀ line ∈ lines, IsRow o line) :
    ∀ c ∈ ended lines, c.toNat ≤ 127 := by
  have hsymbols : ∀ c ∈ symbols, c.toNat ≤ 127 := by simp [symbols]
  intro c hc
  obtain ⟨line, hline, hc⟩ := List.mem_flatMap.1 hc
  rcases List.mem_append.1 hc with hc | hc
  · exact hsymbols c ((h line hline).legal c hc)
  · obtain rfl := List.mem_singleton.1 hc
    decide

theorem ascii_layout {lines : Picture} {points budget : List Char} {limit limit' : ℕ}
    (hrows : ∀ line ∈ lines, IsRow o line) (hpoints : IsNumeral limit points)
    (hbudget : IsNumeral limit' budget) :
    ∀ c ∈ ended lines ++ points ++ '\n' :: budget, c.toNat ≤ 127 := by
  refine List.forall_mem_append.2 ⟨List.forall_mem_append.2 ⟨ascii_ended hrows, hpoints.ascii⟩, ?_⟩
  exact List.forall_mem_cons.2 ⟨by decide, hbudget.ascii⟩

/-! ### Loading -/

/-- The readers find all parts of a level in a feed. -/
structure Readable (o : Options) (feed : Feed) (tiles : List (List Tile)) (points maxBytes : ℕ) :
    Prop where
  rows : 1 ≤ o.rows
  cols : 1 ≤ o.cols
  room : o.rows.toInt ≤ capacity
  parts : ∃ behindGrid behindPoints behind,
    readTiles o feed.failure o.rows.toInt.toNat 1 (Bytes.glyphs feed.content) =
        .ok (tiles, behindGrid) ∧
      readNumber feed.failure pointsLimit (o.rows.toInt.toNat + 1) behindGrid =
        .ok (points, behindPoints) ∧
      readNumber feed.failure maxBytesLimit (o.rows.toInt.toNat + 2) behindPoints =
        .ok (maxBytes, behind)

variable {feed : Feed} {tiles : List (List Tile)} {points maxBytes : ℕ} {l : Level}

/-- A level is loaded only if all of its parts are found. -/
theorem exists_readable_of_load (h : load o feed = .ok l) :
    ∃ tiles points maxBytes, Readable o feed tiles points maxBytes := by
  rw [load] at h
  split at h
  · cases h
  rename_i hrows
  split at h
  · cases h
  rename_i hcols
  split at h
  · cases h
  rename_i hroom
  dsimp only at h
  split at h
  · cases h
  rename_i tiles behindGrid htiles
  split at h
  · cases h
  rename_i points behindPoints hpoints
  split at h
  · cases h
  rename_i maxBytes behind hmaxBytes
  exact ⟨tiles, points, maxBytes, Int64.not_lt.1 hrows, Int64.not_lt.1 hcols, Int.not_lt.1 hroom,
    behindGrid, behindPoints, behind, htiles, hpoints, hmaxBytes⟩

/-- Then its grid decides. -/
theorem Readable.load_eq (h : Readable o feed tiles points maxBytes) : load o feed =
    match survey (tiles.map (·.map Tile.toCell)) none .empty (indexedTiles tiles) with
    | .error e => .error (.malformed e)
    | .ok (robot, walls) => .ok (ofWalls o.name o.rows.toInt.toNat o.cols.toInt.toNat points
        maxBytes robot (tiles.map (·.map Tile.toCell)) walls) := by
  obtain ⟨behindGrid, behindPoints, behind, htiles, hpoints, hmaxBytes⟩ := h.parts
  rw [load, if_neg (Int64.not_lt.2 h.rows), if_neg (Int64.not_lt.2 h.cols),
    if_neg (Int.not_lt.2 h.room)]
  rcases hsurvey : survey (tiles.map (·.map Tile.toCell)) none .empty (indexedTiles tiles) with
    e | ⟨robot, walls⟩
  · simp only [htiles, hpoints, hmaxBytes, hsurvey]
  · simp only [htiles, hpoints, hmaxBytes, hsurvey]

/-- The sets of a loaded level are made from its grid and its walls. A result of loading is
therefore known from its other parts. -/
theorem load_eq_ofWalls {robot : Pose} {grid : Grid} {walls : List Wall}
    (h : (load o feed).map (fun l ↦ ((l.points, l.maxBytes, l.robot), l.grid, l.walls)) =
      .ok ((points, maxBytes, robot), grid, walls)) :
    load o feed = .ok (ofWalls o.name o.rows.toInt.toNat o.cols.toInt.toNat points maxBytes robot
      grid walls) := by
  rcases hload : load o feed with e | l
  · rw [hload] at h
    cases h
  · rw [hload] at h
    obtain ⟨_, _, _, hreadable⟩ := exists_readable_of_load hload
    rw [hreadable.load_eq] at hload
    split at hload
    · cases hload
    · cases hload
      cases h
      rfl

theorem toInt_cols_pos (h : 1 ≤ o.cols) : 1 ≤ o.cols.toInt := Int64.le_iff_toInt_le.1 h

/-- With as many columns as can be counted, there is no room for the end of a line. -/
theorem Readable.cols_ne_maxValue (h : Readable o feed tiles points maxBytes) :
    o.cols ≠ Int64.maxValue := by
  intro hmax
  obtain ⟨_, _, _, htiles, -, -⟩ := h.parts
  have hpos : 1 ≤ o.rows.toInt := Int64.le_iff_toInt_le.1 h.rows
  obtain ⟨count, hcount⟩ := Nat.exists_eq_add_one_of_ne_zero (n := o.rows.toInt.toNat) (by omega)
  have hlimit : (o.cols + 1).toInt.toNat = 0 := by
    rw [hmax]
    decide
  rw [hcount, readTiles, hlimit, readLine] at htiles
  simp [tilesOfLine] at htiles

/-- Dimensions with which levels can be loaded. -/
structure Options.Usable (o : Options) : Prop where
  rows : 1 ≤ o.rows
  cols : 1 ≤ o.cols
  wrap : o.cols ≠ Int64.maxValue
  room : o.rows.toInt ≤ capacity

theorem Readable.usable (h : Readable o feed tiles points maxBytes) : o.Usable :=
  ⟨h.rows, h.cols, h.cols_ne_maxValue, h.room⟩

/-- **What is read is stored**: every text in which all parts are found is laid out like a level. -/
theorem Readable.exists_stored (h : Readable o (.ofBytes text) tiles points maxBytes) :
    ∃ lines pointsDigits budget, Stored o lines pointsDigits budget text ∧ tiles = lines.tiles ∧
      points = decimal pointsDigits ∧ maxBytes = decimal budget := by
  obtain ⟨behindGrid, behindPoints, behind, htiles, hpoints, hbudget⟩ := h.parts
  have hcols := toInt_cols_pos h.cols
  have hlimit := toInt_add_one h.cols_ne_maxValue
  obtain ⟨lines, hcount, hrows, rfl, hgrid⟩ := (readTiles_eq_ok_iff hcols hlimit).1 htiles
  obtain ⟨digits, afterPoints, hnumeral, rfl, hdigits, -, hend, htail⟩ :=
    readNumber_eq_ok_iff.1 hpoints
  obtain ⟨digits', afterBudget, hnumeral', rfl, hdigits', -, hend', -⟩ :=
    readNumber_eq_ok_iff.1 hbudget
  refine ⟨lines, digits, digits', ⟨?_, hrows, hnumeral, hnumeral', ?_⟩, rfl, rfl, rfl⟩
  · have hpos : 1 ≤ o.rows.toInt := Int64.le_iff_toInt_le.1 h.rows
    omega
  rw [layout_iff (ascii_layout hrows hnumeral hnumeral')]
  have hfront : Begins (Bytes.glyphs text) (ended lines ++ digits) afterPoints :=
    begins_append.2 ⟨behindGrid, hgrid, hdigits⟩
  refine ⟨afterBudget, begins_append.2 ⟨afterPoints, hfront, ?_⟩, hend'⟩
  -- The line of the points has an end, because there are digits of the budget behind it.
  rcases afterPoints with - | ⟨g, afterPoints⟩
  · obtain rfl : [] = behindPoints := htail
    obtain ⟨found, rfl, hnil⟩ := hdigits'
    rw [eq_comm, List.append_eq_nil_iff] at hnil
    exact absurd (by simp [hnil.1]) hnumeral'.ne_nil
  · obtain rfl : afterPoints = behindPoints := htail
    exact begins_cons.2 ⟨g, afterPoints, hend g rfl, rfl, hdigits'⟩

/-- **What is stored is read.** -/
theorem Stored.readable {lines : Picture} {pointsDigits budget : List Char}
    (h : Stored o lines pointsDigits budget text) (ho : o.Usable) :
    Readable o (.ofBytes text) lines.tiles (decimal pointsDigits) (decimal budget) := by
  obtain ⟨behind, hbegins, hend⟩ :=
    (layout_iff (ascii_layout h.row h.pointsNumeral h.budgetNumeral)).1 h.layout
  obtain ⟨afterPoints, hfront, hback⟩ := begins_append.1 hbegins
  obtain ⟨behindGrid, hgrid, hpoints⟩ := begins_append.1 hfront
  obtain ⟨g, behindPoints, hg, rfl, hbudget⟩ := begins_cons.1 hback
  have hcount : lines.length = o.rows.toInt.toNat := by
    have := h.count
    omega
  refine ⟨ho.rows, ho.cols, ho.room, behindGrid, behindPoints, behind.tail, ?_, ?_, ?_⟩
  · exact (readTiles_eq_ok_iff (toInt_cols_pos ho.cols) (toInt_add_one ho.wrap)).2
      ⟨lines, hcount, h.row, rfl, hgrid⟩
  · exact readNumber_eq_ok_iff.2 ⟨pointsDigits, g :: behindPoints, h.pointsNumeral, rfl, hpoints,
      by simp, by simpa using hg, rfl⟩
  · exact readNumber_eq_ok_iff.2 ⟨budget, behind, h.budgetNumeral, rfl, hbudget, fun _ ↦ rfl, hend,
      rfl⟩

end RobotGolf.Level
