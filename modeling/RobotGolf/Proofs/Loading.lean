import Mathlib.Data.Int.Order.Basic
import RobotGolf.Proofs.StoredFormat
/-!
# Which texts are levels

A text is loaded as a level if and only if it is laid out like one (`Level.Stored`) and its grid is
proper (`Picture.Proper`). `Level.parse_accepts_format` says so, and what is loaded then. It also
says what a text with the right layout is refused for: the first cell in row-major order that is at
fault, and the lack of a robot only if there is no such cell.

There is one more reason to refuse a text, which has nothing to do with the format: no room can be
reserved for more rows than `Level.capacity`. Since a row takes two octets at least, this makes a
difference to texts only that are longer than 23 terabytes (`Level.Stored.two_mul_rows_le`).
-/

namespace RobotGolf

/-- A position is the one of a cell, and messages show it as such, counted from one. -/
structure Position.Names (position : Position) (p : ℕ × ℕ) : Prop where
  row : position.row.toInt = p.1
  col : position.col.toInt = p.2
  shown : position.render = "(" ++ toString (p.1 + 1) ++ ", " ++ toString (p.2 + 1) ++ ")"

theorem toInt_ofNat_succ {n : ℕ} (h : n < 2 ^ 63 - 1) :
    (Int64.ofNat n + 1).toInt = ((n + 1 : ℕ) : ℤ) := by
  have hword : (Int64.ofNat n).toInt = n := Int64.toInt_ofNat_of_lt (by omega)
  have hne : Int64.ofNat n ≠ Int64.maxValue := by
    intro heq
    rw [heq, Int64.toInt_maxValue] at hword
    omega
  rw [toInt_add_one hne, hword]
  rfl

/-- Coordinates that can be counted from one do not wrap around. -/
theorem Position.names_ofIndex {p : ℕ × ℕ} (hrow : p.1 < 2 ^ 63 - 1) (hcol : p.2 < 2 ^ 63 - 1) :
    (Position.ofIndex p.1 p.2).Names p where
  row := Int64.toInt_ofNat_of_lt (by omega)
  col := Int64.toInt_ofNat_of_lt (by omega)
  shown := by
    rw [Position.render, Position.ofIndex]
    dsimp only
    rw [toInt_ofNat_succ hrow, toInt_ofNat_succ hcol]
    rfl

namespace Picture

variable {lines : Picture} {result : Except LevelError (Pose × List Wall)}

/-- In a proper picture the survey finds the robot and the walls. -/
theorem Diagnosis.exists_robot (h : lines.Diagnosis result) (hproper : lines.Proper) :
    ∃ p k, lines.RobotAt p k ∧ result = .ok (⟨Position.ofIndex p.1 p.2, k⟩, lines.grid.walls) := by
  cases h with
  | secondRobot first _ => exact absurd first.1 (hproper.not_faulty _)
  | isolatedWall first _ => exact absurd first.1 (hproper.not_faulty _)
  | noRobot _ absent =>
    obtain ⟨p, ⟨k, hrobot⟩, -⟩ := hproper.robot
    exact absurd hrobot (absent p k)
  | robot _ hrobot => exact ⟨_, _, hrobot, rfl⟩

theorem append_ne_of_length_lt {s t : String} (h : t.length < s.length) (u : String) :
    s ++ u ≠ t := by
  rintro rfl
  rw [String.length_append] at h
  omega

/-- The message that there is no robot is shorter than what all others begin with, and is given only
if it is true. -/
theorem Diagnosis.of_message {e : LevelError} (h : lines.Diagnosis (.error e))
    (hmessage : e.message = "no robot found") :
    (∀ p, ¬ lines.Faulty p) ∧ ∀ p k, ¬ lines.RobotAt p k := by
  cases h with
  | secondRobot _ _ => exact absurd hmessage (append_ne_of_length_lt (by decide) _)
  | isolatedWall _ _ => exact absurd hmessage (append_ne_of_length_lt (by decide) _)
  | noRobot faultless absent => exact ⟨faultless, absent⟩

end Picture

namespace Level

variable {o : Options} {lines : Picture} {points budget : List Char} {text : Bytes}

/-! ### The size of a stored level -/

theorem length_le_length_ofChars (cs : List Char) : cs.length ≤ (Bytes.ofChars cs).length := by
  induction cs with
  | nil => simp
  | cons c cs ih =>
    have hpos := c.utf8Size_pos
    rw [Bytes.ofChars, List.flatMap_cons, List.length_append, String.length_utf8EncodeChar]
    rw [Bytes.ofChars] at ih
    simp only [List.length_cons]
    omega

theorem two_mul_length_le_ended (hcols : 1 ≤ o.cols) (h : ∀ line ∈ lines, IsRow o line) :
    2 * lines.length ≤ (ended lines).length := by
  induction lines with
  | nil => simp
  | cons line lines ih =>
    obtain ⟨hline, hlines⟩ := List.forall_mem_cons.1 h
    have hwidth := hline.width
    have hpos := toInt_cols_pos hcols
    have ih := ih hlines
    rw [ended, List.flatMap_cons, List.length_append, List.length_append]
    rw [ended] at ih
    simp only [List.length_cons, List.length_nil]
    omega

/-- Every row takes a symbol and the end of a line. -/
theorem Stored.two_mul_rows_le (hcols : 1 ≤ o.cols) (h : Stored o lines points budget text) :
    2 * o.rows.toInt ≤ text.length := by
  obtain ⟨rest, rfl, -⟩ := h.layout
  have hrows := two_mul_length_le_ended hcols h.row
  have hoctets := length_le_length_ofChars (ended lines ++ points ++ '\n' :: budget)
  have hcount := h.count
  simp only [List.length_append] at hoctets ⊢
  omega

/-- The cells of a stored level are within its dimensions. -/
theorem Stored.lt_of_item? (h : Stored o lines points budget text) {p : ℕ × ℕ} {symbol : Char}
    (hitem : item? lines p = some symbol) :
    (p.1 : ℤ) < o.rows.toInt ∧ (p.2 : ℤ) < o.cols.toInt := by
  obtain ⟨line, hline, hsymbol⟩ := Option.bind_eq_some_iff.1 hitem
  obtain ⟨hrow, -⟩ := List.getElem?_eq_some_iff.1 hline
  obtain ⟨hcol, -⟩ := List.getElem?_eq_some_iff.1 hsymbol
  have hcount := h.count
  have hwidth := (h.row line (List.mem_of_getElem? hline)).width
  omega

theorem Stored.names (h : Stored o lines points budget text) {p : ℕ × ℕ} {symbol : Char}
    (hitem : item? lines p = some symbol) : (Position.ofIndex p.1 p.2).Names p := by
  obtain ⟨hrow, hcol⟩ := h.lt_of_item? hitem
  have hrows := Int64.toInt_le o.rows
  have hcols := Int64.toInt_le o.cols
  rw [Int64.toInt_maxValue] at hrows hcols
  exact Position.names_ofIndex (by omega) (by omega)

/-! ### Loading -/

/-- A text with the right layout is loaded or refused as the survey of its grid says. -/
theorem Stored.exists_diagnosis (h : Stored o lines points budget text) (ho : o.Usable) :
    ∃ result, lines.Diagnosis result ∧ parse o text =
      match result with
      | .error e => .error (.malformed e)
      | .ok (robot, walls) => .ok (ofWalls o.name o.rows.toInt.toNat o.cols.toInt.toNat
          (decimal points) (decimal budget) robot lines.grid walls) :=
  ⟨_, lines.diagnosis_survey, (h.readable ho).load_eq⟩

/-- If the grid is proper, it is loaded. -/
theorem Stored.exists_parse (h : Stored o lines points budget text) (ho : o.Usable)
    (hproper : lines.Proper) : ∃ p k, lines.RobotAt p k ∧ parse o text =
      .ok (ofGrid o.name o.rows.toInt.toNat o.cols.toInt.toNat (decimal points) (decimal budget)
        ⟨Position.ofIndex p.1 p.2, k⟩ lines.grid) := by
  obtain ⟨result, hdiagnosis, hparse⟩ := h.exists_diagnosis ho
  obtain ⟨p, k, hrobot, rfl⟩ := hdiagnosis.exists_robot hproper
  exact ⟨p, k, hrobot, hparse⟩

/-- If the grid is not proper, it is refused. -/
theorem Stored.exists_refusal (h : Stored o lines points budget text) (ho : o.Usable)
    (himproper : ¬ lines.Proper) :
    ∃ e, parse o text = .error (.malformed e) ∧ lines.Diagnosis (.error e) := by
  obtain ⟨e | ⟨robot, walls⟩, hdiagnosis, hparse⟩ := h.exists_diagnosis ho
  · exact ⟨e, hparse, hdiagnosis⟩
  · cases hdiagnosis with
    | robot hproper _ => exact absurd hproper himproper

/-- If a text with the right layout is loaded, its grid is proper. -/
theorem Stored.proper_of_parse {l : Level} (h : Stored o lines points budget text) (ho : o.Usable)
    (hl : parse o text = .ok l) : lines.Proper := by
  by_contra himproper
  obtain ⟨e, hparse, -⟩ := h.exists_refusal ho himproper
  rw [hparse] at hl
  cases hl

/-- A text that is loaded has the right layout, and a proper grid. -/
theorem exists_stored_of_parse {l : Level} (h : parse o text = .ok l) : o.Usable ∧
    ∃ lines points budget, Stored o lines points budget text ∧ lines.Proper := by
  obtain ⟨_, _, _, hreadable⟩ := exists_readable_of_load h
  obtain ⟨lines, points, budget, hstored, -, -, -⟩ := hreadable.exists_stored
  have hproper := hstored.proper_of_parse hreadable.usable h
  exact ⟨hreadable.usable, lines, points, budget, hstored, hproper⟩

theorem parse_of_capacity_lt (hrows : 1 ≤ o.rows) (hcols : 1 ≤ o.cols)
    (hroom : capacity < o.rows.toInt) (text : Bytes) : parse o text = .error .oversized := by
  rw [parse, load, if_neg (Int64.not_lt.2 hrows), if_neg (Int64.not_lt.2 hcols), if_pos hroom]

/-- **Loading accepts exactly the format.** A text is loaded if and only if it has the layout of a
level, with a proper grid, and the level has the numbers and the robot that the text shows. A text
with the right layout and another grid is refused for the first cell that is at fault, or for the
lack of a robot if there is none. -/
theorem parse_accepts_format (o : Options) (text : Bytes) (hrows : 1 ≤ o.rows) (hcols : 1 ≤ o.cols)
    (hwrap : o.cols ≠ Int64.maxValue) :
    (capacity < o.rows.toInt ∧ 2 * capacity < text.length ∧ parse o text = .error .oversized) ∨
      ((∃ l, parse o text = .ok l) ↔
          ∃ lines points budget, Stored o lines points budget text ∧ lines.Proper) ∧
        ∀ lines points budget, Stored o lines points budget text →
          (∀ l, parse o text = .ok l → l.points = decimal points ∧ l.maxBytes = decimal budget ∧
            ∃ p, lines.RobotAt p l.robot.heading ∧ l.robot.position.Names p) ∧
          (¬ lines.Proper → ∃ e, parse o text = .error (.malformed e) ∧
            lines.Diagnosis (.error e) ∧ (e.message = "no robot found" →
              (∀ p, ¬ lines.Faulty p) ∧ ∀ p h, ¬ lines.RobotAt p h)) ∧
          ∀ p symbol, item? lines p = some symbol → (Position.ofIndex p.1 p.2).Names p := by
  rcases lt_or_ge capacity o.rows.toInt with hroom | hroom
  · -- Only a text of more than `2 * capacity` octets could have so many rows.
    have hparse := parse_of_capacity_lt hrows hcols hroom text
    rcases lt_or_ge (2 * capacity) text.length with hlong | hshort
    · exact Or.inl ⟨hroom, hlong, hparse⟩
    have hnot : ∀ lines points budget, ¬ Stored o lines points budget text := by
      intro lines points budget hstored
      have hle := hstored.two_mul_rows_le hcols
      omega
    refine Or.inr ⟨⟨?_, ?_⟩, fun lines points budget hstored ↦ absurd hstored (hnot _ _ _)⟩
    · rintro ⟨l, hl⟩
      rw [hparse] at hl
      cases hl
    · rintro ⟨lines, points, budget, hstored, -⟩
      exact absurd hstored (hnot _ _ _)
  · have ho : o.Usable := ⟨hrows, hcols, hwrap, hroom⟩
    refine Or.inr ⟨⟨?_, ?_⟩, fun lines points budget hstored ↦ ⟨fun l hl ↦ ?_, fun himproper ↦ ?_,
      fun p symbol ↦ hstored.names⟩⟩
    · rintro ⟨l, hl⟩
      exact (exists_stored_of_parse hl).2
    · rintro ⟨lines, points, budget, hstored, hproper⟩
      obtain ⟨p, k, -, hparse⟩ := hstored.exists_parse ho hproper
      exact ⟨_, hparse⟩
    · have hproper := hstored.proper_of_parse ho hl
      obtain ⟨p, k, hrobot, hparse⟩ := hstored.exists_parse ho hproper
      rw [hparse] at hl
      obtain rfl := Except.ok.inj hl
      obtain ⟨symbol, -, hitem⟩ := id hrobot
      exact ⟨rfl, rfl, p, hrobot, hstored.names hitem⟩
    · obtain ⟨e, hparse, hdiagnosis⟩ := hstored.exists_refusal ho himproper
      exact ⟨e, hparse, hdiagnosis, hdiagnosis.of_message⟩

/-- A grid with two faults. -/
def draft : Picture := [['u', '.', '*'], ['*', 'd', '.']]

/-- The draft as it is stored, with zeros in front of the numbers and a note behind them. -/
def draftText : Bytes := Bytes.ofString "u.*\n*d.\n010\n099\nto do"

/-- Of the two faults, the one in the first row is reported. -/
theorem draft_refused :
    parse ⟨2, 3, "draft"⟩ draftText = .error (.malformed (.isolatedWall ⟨0, 2⟩)) ∧
      draft.Diagnosis (.error (.isolatedWall ⟨0, 2⟩)) := by
  have hrows : ∀ line ∈ draft, (line.length : ℤ) = 3 ∧ ∀ c ∈ line, c ∈ symbols := by
    simp [draft, symbols]
  have hstored : Stored ⟨2, 3, "draft"⟩ draft ['0', '1', '0'] ['0', '9', '9'] draftText :=
    ⟨by decide, fun line hline ↦ ⟨(hrows line hline).1, (hrows line hline).2⟩,
      ⟨by simp, by simp, by decide, by decide⟩, ⟨by simp, by simp, by decide, by decide⟩,
      Bytes.ofString "\nto do", by decide, Or.inr ⟨_, rfl⟩⟩
  have himproper : ¬ draft.Proper := by
    intro h
    have hsame : ((0, 0) : ℕ × ℕ) = (1, 1) :=
      h.robot.unique ⟨.up, 'u', by decide, rfl⟩ ⟨.down, 'd', by decide, rfl⟩
    exact absurd hsame (by decide)
  have hparse : parse ⟨2, 3, "draft"⟩ draftText = .error (.malformed (.isolatedWall ⟨0, 2⟩)) := by
    decide +kernel
  refine ⟨hparse, ?_⟩
  rcases parse_accepts_format ⟨2, 3, "draft"⟩ draftText (by decide) (by decide) (by decide) with
    ⟨hroom, -⟩ | ⟨-, h⟩
  · exact absurd hroom (by decide)
  · obtain ⟨-, hrefused, -⟩ := h _ _ _ hstored
    obtain ⟨e, he, hdiagnosis, -⟩ := hrefused himproper
    rw [hparse] at he
    cases he
    exact hdiagnosis

end Level

end RobotGolf
