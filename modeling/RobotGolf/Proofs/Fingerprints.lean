import RobotGolf.Level.Fingerprint
import RobotGolf.Proofs.LevelRoundTrip
/-!
# What a fingerprint tells of a level

The fingerprint of a level is a digest of its content, a line of text with the rendering of the
level between quotation marks. Nothing in that line is escaped, though the rendering has ends of
lines in it. The line can be taken apart all the same:

* **Each field ends where the next label begins** (`Level.fields_of_content`), because a number has
  only digits in it, and the rendering of a level that was loaded has no quotation mark
  (`Level.Stored.quote_not_mem_render`).
* **The fields are enough to have the level back** (`Level.Stored.eq_of_decimal`): the lines of the
  grid are its rendering, and robot, buttons and walls are found in these. Only the name is in no
  field.

So contents are equal for levels that are equal but for their names. In terms of the texts that such
levels were loaded from, these show the same grid and the same numbers (`Level.Alike`). They may
differ in the zeros in front of the numbers, and in what is behind the second one. Digests of
different contents are equal only by a collision (`Md5.Collide`).
-/

namespace RobotGolf

/-- Different messages with one digest. -/
def Md5.Collide (message message' : Bytes) : Prop :=
  message ≠ message' ∧ hexDigest message = hexDigest message'

namespace Level

/-! ### Zeros in front of a number -/

/-- A numeral without the zeros in front. -/
def significant (digits : List Char) : List Char := digits.dropWhile (· == '0')

theorem decimal_append_singleton (digits : List Char) (c : Char) :
    decimal (digits ++ [c]) = 10 * decimal digits + (c.toNat - 48) := by
  rw [decimal, Nat.ofDigitChars_append]
  rfl

/-- A digit is written as itself. -/
theorem toDigits_of_isDigit {c : Char} (h : c.isDigit = true) :
    Nat.toDigits 10 (c.toNat - 48) = [c] := by
  have hrange := charIsDigit_iff.1 h
  have hlt : c.toNat - 48 < 10 := by omega
  have hchar : Nat.digitChar (c.toNat - 48) = c := by
    apply Char.toNat_inj.1
    rw [Nat.toNat_digitChar_of_lt_ten hlt]
    omega
  rw [Nat.toDigits_of_lt_base hlt, hchar]

/-- The significant digits are those of the value. -/
theorem significant_eq {digits : List Char} (h : ∀ c ∈ digits, c.isDigit = true) :
    significant digits = if decimal digits = 0 then [] else Nat.toDigits 10 (decimal digits) := by
  induction digits using List.reverseRecOn with
  | nil => rfl
  | append_singleton digits c ih =>
    obtain ⟨hdigits, hc⟩ := List.forall_mem_append.1 h
    have hc := hc c (List.mem_singleton_self c)
    have hrange := charIsDigit_iff.1 hc
    have ih := ih hdigits
    rw [significant] at ih
    rw [decimal_append_singleton, significant, List.dropWhile_append, ih]
    obtain hzero | hpos := Nat.eq_zero_or_pos (decimal digits)
    · -- only zeros so far, so the last digit decides
      rw [if_pos hzero, hzero, Nat.mul_zero, Nat.zero_add, if_pos List.isEmpty_nil]
      obtain rfl | hne := eq_or_ne c '0'
      · rfl
      · have hvalue : c.toNat - 48 ≠ 0 := by
          have hcode : c.toNat ≠ 48 := fun heq ↦ hne (Char.toNat_inj.1 heq)
          omega
        rw [if_neg hvalue, toDigits_of_isDigit hc]
        simp [hne]
    · rw [if_neg hpos.ne', if_neg (by simp), if_neg (by omega),
        ← Nat.toDigits_append_toDigits (by omega) hpos (by omega), toDigits_of_isDigit hc]

/-- **Numerals have the same value if they differ in zeros in front only.** -/
theorem IsNumeral.significant_eq_iff {limit limit' : ℕ} {digits digits' : List Char}
    (h : IsNumeral limit digits) (h' : IsNumeral limit' digits') :
    significant digits = significant digits' ↔ decimal digits = decimal digits' := by
  have hpos := h.pos
  have hpos' := h'.pos
  rw [significant_eq h.legal, significant_eq h'.legal, if_neg (by omega), if_neg (by omega)]
  constructor
  · intro heq
    rw [← decimal_toDigits (decimal digits), heq, decimal_toDigits]
  · exact congrArg (Nat.toDigits 10)

/-! ### Fields of a line -/

/-- What ends at the first character of a kind ends at the same place in both. -/
theorem append_inj_of_head {p : Char → Bool} {front front' back back' : List Char}
    (hfront : ∀ c ∈ front, p c = true) (hfront' : ∀ c ∈ front', p c = true)
    (hback : ∀ c ∈ back.head?, p c = false) (hback' : ∀ c ∈ back'.head?, p c = false)
    (h : front ++ back = front' ++ back') : front = front' ∧ back = back' := by
  have hstop : ∀ {back : List Char}, (∀ c ∈ back.head?, p c = false) → back.takeWhile p = [] := by
    intro back hback
    cases back with
    | nil => rfl
    | cons c back =>
      rw [List.takeWhile_cons, hback c rfl]
      rfl
  have hsame : front = front' := by
    have htake := congrArg (List.takeWhile p) h
    rwa [List.takeWhile_append_of_pos hfront, List.takeWhile_append_of_pos hfront', hstop hback,
      hstop hback', List.append_nil, List.append_nil] at htake
  subst hsame
  exact ⟨rfl, List.append_cancel_left h⟩

theorem toDigits_append_inj {m n : ℕ} {back back' : List Char}
    (hback : ∀ c ∈ back.head?, c.isDigit = false) (hback' : ∀ c ∈ back'.head?, c.isDigit = false)
    (h : Nat.toDigits 10 m ++ back = Nat.toDigits 10 n ++ back') : m = n ∧ back = back' := by
  have hdigits : ∀ n, ∀ c ∈ Nat.toDigits 10 n, c.isDigit = true := fun n c hc ↦
    Nat.isDigit_of_mem_toDigits (by omega) (by omega) hc
  obtain ⟨heq, hrest⟩ := append_inj_of_head (hdigits m) (hdigits n) hback hback' h
  refine ⟨?_, hrest⟩
  rw [← decimal_toDigits m, heq, decimal_toDigits]

theorem toList_content (l : Level) : l.content.toList =
    "\x7bCols:".toList ++ (Nat.toDigits 10 l.cols ++ (",Grid:\"".toList ++ (l.render.toList ++
      ("\",MaxBytes:".toList ++ (Nat.toDigits 10 l.maxBytes ++ (",Points:".toList ++
        (Nat.toDigits 10 l.points ++ (",Rows:".toList ++ (Nat.toDigits 10 l.rows ++
          "\x7d".toList))))))))) := by
  delta content
  simp only [String.toList_append, Nat.toString_eq_ofList_toDigits, String.toList_ofList,
    List.append_assoc]

/-- **The fields of a content can be told**, if there is no quotation mark in the rendering. -/
theorem fields_of_content {l l' : Level} (hquote : '"' ∉ l.render.toList)
    (hquote' : '"' ∉ l'.render.toList) (h : l.content = l'.content) :
    l.cols = l'.cols ∧ l.render = l'.render ∧ l.maxBytes = l'.maxBytes ∧ l.points = l'.points ∧
      l.rows = l'.rows := by
  have hother : ∀ {s : String}, '"' ∉ s.toList → ∀ c ∈ s.toList, (c != '"') = true := by
    intro s hs c hc
    rw [bne_iff_ne]
    exact fun heq ↦ hs (heq ▸ hc)
  have h := congrArg String.toList h
  rw [toList_content, toList_content] at h
  -- the labels are the same in both, and what follows a label ends where the next one begins
  obtain ⟨hcols, h⟩ := toDigits_append_inj (by simp) (by simp) (List.append_cancel_left h)
  obtain ⟨hrender, h⟩ := append_inj_of_head (hother hquote) (hother hquote') (by simp) (by simp)
    (List.append_cancel_left h)
  obtain ⟨hmaxBytes, h⟩ := toDigits_append_inj (by simp) (by simp) (List.append_cancel_left h)
  obtain ⟨hpoints, h⟩ := toDigits_append_inj (by simp) (by simp) (List.append_cancel_left h)
  obtain ⟨hrows, -⟩ := toDigits_append_inj (by simp) (by simp) (List.append_cancel_left h)
  exact ⟨hcols, String.toList_inj.1 hrender, hmaxBytes, hpoints, hrows⟩

/-- Lines of one width are told from the text that they make. -/
theorem ended_inj {lines lines' : Picture} {n : ℕ} (h : ∀ line ∈ lines, line.length = n)
    (h' : ∀ line ∈ lines', line.length = n) (heq : ended lines = ended lines') :
    lines = lines' := by
  induction lines generalizing lines' with
  | nil =>
    cases lines' with
    | nil => rfl
    | cons line' lines' => simp [ended] at heq
  | cons line lines ih =>
    cases lines' with
    | nil => simp [ended] at heq
    | cons line' lines' =>
      obtain ⟨hline, hlines⟩ := List.forall_mem_cons.1 h
      obtain ⟨hline', hlines'⟩ := List.forall_mem_cons.1 h'
      have hsplit : (line ++ ['\n']) ++ ended lines = (line' ++ ['\n']) ++ ended lines' := heq
      obtain ⟨hfirst, hrest⟩ := List.append_inj hsplit (by simp [hline, hline'])
      rw [List.append_cancel_right hfirst, ih hlines hlines' hrest]

/-! ### Levels that were loaded -/

variable {o o' : Options} {lines lines' : Picture} {points points' budget budget' : List Char}
  {text text' : Bytes} {l l' : Level}

theorem IsRow.length_eq {line : List Char} (h : IsRow o line) :
    line.length = o.cols.toInt.toNat := by
  have hwidth := h.width
  omega

/-- What is loaded depends on the text only, not on what happens behind it. -/
theorem parse_content_of_load {feed : Feed} (h : load o feed = .ok l) :
    parse o feed.content = .ok l := by
  obtain ⟨tiles, points, maxBytes, hreadable⟩ := exists_readable_of_load h
  obtain ⟨behindGrid, behindPoints, behind, htiles, hpoints, hmaxBytes⟩ := hreadable.parts
  have hcols := toInt_cols_pos hreadable.cols
  have hlimit := toInt_add_one hreadable.cols_ne_maxValue
  have hnumber : ∀ {limit n value : ℕ} {glyphs rest : List Glyph},
      readNumber feed.failure limit n glyphs = .ok (value, rest) →
        readNumber none limit n glyphs = .ok (value, rest) := by
    -- a failure is noticed by a reader only that comes to the end of the text
    intro limit n value glyphs rest hread
    obtain ⟨digits, after, hnumeral, hvalue, hbegins, -, hrest⟩ := readNumber_eq_ok_iff.1 hread
    exact readNumber_eq_ok_iff.2 ⟨digits, after, hnumeral, hvalue, hbegins, fun _ ↦ rfl, hrest⟩
  have hagain : Readable o (.ofBytes feed.content) tiles points maxBytes :=
    ⟨hreadable.rows, hreadable.cols, hreadable.room, behindGrid, behindPoints, behind,
      (readTiles_eq_ok_iff hcols hlimit).2 ((readTiles_eq_ok_iff hcols hlimit).1 htiles),
      hnumber hpoints, hnumber hmaxBytes⟩
  rw [parse, hagain.load_eq, ← hreadable.load_eq, h]

/-- A level is made of what its text shows. -/
theorem Stored.exists_pose (h : Stored o lines points budget text) (hl : parse o text = .ok l) :
    o.Usable ∧ lines.Proper ∧ ∃ p k, lines.RobotAt p k ∧
      l = ofGrid o.name o.rows.toInt.toNat o.cols.toInt.toNat (decimal points) (decimal budget)
        ⟨Position.ofIndex p.1 p.2, k⟩ lines.grid := by
  obtain ⟨ho, -⟩ := exists_stored_of_parse hl
  have hproper := h.proper_of_parse ho hl
  obtain ⟨p, k, hrobot, hparse⟩ := h.exists_parse ho hproper
  exact ⟨ho, hproper, p, k, hrobot, Except.ok.inj (hl.symm.trans hparse)⟩

theorem Stored.toList_render_eq (h : Stored o lines points budget text)
    (hl : parse o text = .ok l) : l.render.toList = ended lines ++ Nat.toDigits 10 l.points ++
      '\n' :: (Nat.toDigits 10 l.maxBytes ++ ['\n']) := by
  obtain ⟨-, hproper, p, k, hrobot, rfl⟩ := h.exists_pose hl
  rw [toList_render, h.map_toList_storedRows hproper hrobot rfl rfl]

theorem Stored.quote_not_mem_render (h : Stored o lines points budget text)
    (hl : parse o text = .ok l) : '"' ∉ l.render.toList := by
  have hdigits : ∀ n, '"' ∉ Nat.toDigits 10 n := fun n hmem ↦
    absurd (Nat.isDigit_of_mem_toDigits (by omega) (by omega) hmem) (by decide)
  have hended : '"' ∉ ended lines := by
    intro hmem
    obtain ⟨line, hline, hmem⟩ := List.mem_flatMap.1 hmem
    obtain hmem | hmem := List.mem_append.1 hmem
    · exact absurd ((h.row line hline).legal _ hmem) (by decide)
    · exact absurd hmem (by decide)
  rw [h.toList_render_eq hl]
  simp [hdigits, hended]

/-- Texts that show the same grid have the same dimensions. -/
theorem Stored.dimensions (h : Stored o lines points budget text)
    (h' : Stored o' lines points' budget' text') (hrows : 1 ≤ o.rows) :
    o.rows = o'.rows ∧ o.cols = o'.cols := by
  have hpos : 1 ≤ o.rows.toInt := Int64.le_iff_toInt_le.1 hrows
  have hcount := h.count
  obtain ⟨line, hline⟩ := List.exists_mem_of_length_pos (l := lines) (by omega)
  exact ⟨Int64.toInt_inj.1 (h.count.symm.trans h'.count),
    Int64.toInt_inj.1 ((h.row line hline).width.symm.trans (h'.row line hline).width)⟩

/-- **A level is determined by its lines and numbers**, up to its name. -/
theorem Stored.eq_of_decimal (h : Stored o lines points budget text) (hl : parse o text = .ok l)
    (h' : Stored o' lines points' budget' text') (hl' : parse o' text' = .ok l')
    (hpoints : decimal points = decimal points') (hbudget : decimal budget = decimal budget') :
    l' = { l with name := l'.name } := by
  obtain ⟨ho, hproper, p, k, hrobot, rfl⟩ := h.exists_pose hl
  obtain ⟨-, -, p', k', hrobot', rfl⟩ := h'.exists_pose hl'
  -- there is one robot in the lines, so both levels have the same one
  obtain ⟨rfl, rfl⟩ := hproper.robot_unique hrobot hrobot'
  obtain ⟨hrows, hcols⟩ := h.dimensions h' ho.rows
  rw [hpoints, hbudget, hrows, hcols]
  rfl

/-- **Lines and numbers are determined by the content.** -/
theorem Stored.eq_of_content (h : Stored o lines points budget text) (hl : parse o text = .ok l)
    (h' : Stored o' lines' points' budget' text') (hl' : parse o' text' = .ok l')
    (hcontent : l.content = l'.content) :
    lines = lines' ∧ decimal points = decimal points' ∧ decimal budget = decimal budget' := by
  obtain ⟨hcols, hrender, hmaxBytes, hpoints, -⟩ := fields_of_content (h.quote_not_mem_render hl)
    (h'.quote_not_mem_render hl') hcontent
  have hended : ended lines = ended lines' := by
    have htext := congrArg String.toList hrender
    rw [h.toList_render_eq hl, h'.toList_render_eq hl', hpoints, hmaxBytes] at htext
    -- behind the lines there are the same numbers in both
    exact List.append_cancel_right (List.append_cancel_right htext)
  obtain ⟨-, -, _, _, -, rfl⟩ := h.exists_pose hl
  obtain ⟨-, -, _, _, -, rfl⟩ := h'.exists_pose hl'
  have hlines : lines = lines' := by
    refine ended_inj (fun line hline ↦ (h.row line hline).length_eq) (fun line hline ↦ ?_) hended
    exact (h'.row line hline).length_eq.trans hcols.symm
  exact ⟨hlines, hpoints, hmaxBytes⟩

/-! ### The result -/

/-- Two texts show the same grid and the same numbers: they differ in zeros in front of the numbers,
and in what is behind the second one, at most. -/
def Alike (o : Options) (text : Bytes) (o' : Options) (text' : Bytes) : Prop :=
  ∃ lines points budget points' budget', Stored o lines points budget text ∧
    Stored o' lines points' budget' text' ∧ significant points = significant points' ∧
    significant budget = significant budget'

theorem eq_of_alike (h : Alike o text o' text') (hl : parse o text = .ok l)
    (hl' : parse o' text' = .ok l') : l' = { l with name := l'.name } := by
  obtain ⟨lines, points, budget, points', budget', hstored, hstored', hpoints, hbudget⟩ := h
  exact hstored.eq_of_decimal hl hstored' hl'
    ((hstored.pointsNumeral.significant_eq_iff hstored'.pointsNumeral).1 hpoints)
    ((hstored.budgetNumeral.significant_eq_iff hstored'.budgetNumeral).1 hbudget)

theorem alike_of_content (hl : parse o text = .ok l) (hl' : parse o' text' = .ok l')
    (h : l.content = l'.content) : Alike o text o' text' := by
  obtain ⟨-, lines, points, budget, hstored, -⟩ := exists_stored_of_parse hl
  obtain ⟨-, lines', points', budget', hstored', -⟩ := exists_stored_of_parse hl'
  obtain ⟨rfl, hpoints, hbudget⟩ := hstored.eq_of_content hl hstored' hl' h
  exact ⟨lines, points, budget, points', budget', hstored, hstored',
    (hstored.pointsNumeral.significant_eq_iff hstored'.pointsNumeral).2 hpoints,
    (hstored.budgetNumeral.significant_eq_iff hstored'.budgetNumeral).2 hbudget⟩

/-- The name is in no field. -/
theorem content_eq_of_eq (h : l' = { l with name := l'.name }) : l.content = l'.content := by
  rw [h]
  rfl

/-- A text like that of a level is one of a level too. -/
theorem exists_parse_of_alike (h : Alike o text o' text') (hl : parse o text = .ok l) :
    ∃ l', parse o' text' = .ok l' := by
  obtain ⟨lines, points, budget, points', budget', hstored, hstored', -, -⟩ := h
  obtain ⟨ho, hproper, -⟩ := hstored.exists_pose hl
  obtain ⟨hrows, hcols⟩ := hstored.dimensions hstored' ho.rows
  have ho' : o'.Usable := ⟨hrows ▸ ho.rows, hcols ▸ ho.cols, hcols ▸ ho.wrap, hrows ▸ ho.room⟩
  obtain ⟨p, k, -, hparse⟩ := hstored'.exists_parse ho' hproper
  exact ⟨_, hparse⟩

theorem fingerprint_eq_iff : l.fingerprint = l'.fingerprint ↔
    l.content = l'.content ∨
      Md5.Collide (Bytes.ofString l.content) (Bytes.ofString l'.content) := by
  rw [fingerprint, fingerprint, String.append_right_inj, digest, digest]
  constructor
  · intro h
    obtain hsame | hdifferent := em (l.content = l'.content)
    · exact Or.inl hsame
    · exact Or.inr ⟨mt Bytes.ofString_inj.1 hdifferent, h⟩
  · intro h
    obtain hsame | hcollide := h
    · rw [hsame]
    · exact hcollide.2

/-- **The content identifies a level.** For two levels that were loaded, the digested contents are
equal if and only if the levels agree in everything but their names, and this is if and only if they
were loaded from texts that show the same grid and numbers. Then they share a fingerprint, and
otherwise only if their contents collide. A text like the one of a level can be loaded as well. -/
theorem content_identifies_level (o : Options) (feed : Feed) (l : Level)
    (h : load o feed = .ok l) :
    (∀ o' feed' l', load o' feed' = .ok l' →
      (Bytes.ofString l.content = Bytes.ofString l'.content ↔ l' = { l with name := l'.name }) ∧
      (Bytes.ofString l.content = Bytes.ofString l'.content ↔
        Alike o feed.content o' feed'.content) ∧
      (l.fingerprint = l'.fingerprint ↔ Alike o feed.content o' feed'.content ∨
        Md5.Collide (Bytes.ofString l.content) (Bytes.ofString l'.content))) ∧
    ∀ o' text', Alike o feed.content o' text' →
      ∃ l', parse o' text' = .ok l' ∧ l'.fingerprint = l.fingerprint := by
  have hl := parse_content_of_load h
  have halike : ∀ {o' text' l'}, parse o' text' = .ok l' →
      (l.content = l'.content ↔ Alike o feed.content o' text') := fun hl' ↦
    ⟨alike_of_content hl hl', fun ha ↦ content_eq_of_eq (eq_of_alike ha hl hl')⟩
  refine ⟨fun o' feed' l' h' ↦ ?_, fun o' text' ha ↦ ?_⟩
  · have hl' := parse_content_of_load h'
    rw [Bytes.ofString_inj, fingerprint_eq_iff, halike hl']
    exact ⟨⟨fun ha ↦ eq_of_alike ha hl hl', fun heq ↦ (halike hl').1 (content_eq_of_eq heq)⟩,
      Iff.rfl, Iff.rfl⟩
  · obtain ⟨l', hl'⟩ := exists_parse_of_alike ha hl
    exact ⟨l', hl', fingerprint_eq_iff.2 (Or.inl ((halike hl').2 ha).symm)⟩

/-- The level `pen` under another name, with other zeros and nothing behind the numbers. -/
def penCopy : Bytes := Bytes.ofString "r.g\n**w\n500\n00040"

/-- The copy shares the fingerprint. With one more byte to spend, the content is another one. -/
theorem pen_copied :
    load ⟨2, 3, "pen"⟩ (.ofBytes penText) = .ok pen ∧
    load ⟨2, 3, "copy"⟩ (.ofBytes penCopy) = .ok { pen with name := "copy" } ∧
    Alike ⟨2, 3, "pen"⟩ penText ⟨2, 3, "copy"⟩ penCopy ∧
    pen.fingerprint = fingerprint { pen with name := "copy" } ∧
    load ⟨2, 3, "pen"⟩ (.ofBytes (Bytes.ofString "r.g\n**w\n500\n41\n")) =
      .ok { pen with maxBytes := 41 } ∧
    Bytes.ofString pen.content ≠ Bytes.ofString (content { pen with maxBytes := 41 }) := by
  have hpen : load ⟨2, 3, "pen"⟩ (.ofBytes penText) = .ok pen :=
    load_eq_ofWalls (by decide +kernel)
  have hcopy : load ⟨2, 3, "copy"⟩ (.ofBytes penCopy) = .ok { pen with name := "copy" } :=
    load_eq_ofWalls (by decide +kernel)
  have hother : load ⟨2, 3, "pen"⟩ (.ofBytes (Bytes.ofString "r.g\n**w\n500\n41\n")) =
      .ok { pen with maxBytes := 41 } :=
    load_eq_ofWalls (by decide +kernel)
  obtain ⟨hpairs, -⟩ := content_identifies_level _ _ _ hpen
  obtain ⟨hlevel, htexts, hfingerprint⟩ := hpairs _ _ _ hcopy
  have halike := htexts.1 (hlevel.2 rfl)
  refine ⟨hpen, hcopy, halike, hfingerprint.2 (Or.inl halike), hother, fun hcontent ↦ ?_⟩
  have hbudget := congrArg Level.maxBytes ((hpairs _ _ _ hother).1.1 hcontent)
  exact absurd hbudget (by decide)

end Level

end RobotGolf
