import Mathlib.Data.List.TakeWhile
import RobotGolf.Proofs.ErrorOffsets
import RobotGolf.Proofs.StoredFormat
/-!
# Feeds that fail

A feed may fail behind some octets, and then nobody knows how its text would have gone on. Loading a
level from it must not depend on that. Either the failure is reported, or the verdict is the one
that **every** text gets which begins with these octets (`Level.load_foretells`).

## Where the octets stop

Texts are read glyph by glyph, and what is read at the end of the octets need not be what is read
there once they go on: a sequence of octets may have been torn apart, and its octets are strays
then. `Glyph.Continues` compares the glyphs of some octets with those of a text that begins with
them. They are the same up to the end, or up to a torn sequence, and a torn sequence reaches to the
end (`Bytes.continues_glyphs`). Neither its octets nor the glyph that they would have become read as
an ASCII character. This is all that the readers have to know:

* A line of the grid is complete if its end was seen, or as many characters as a row may have. The
  second may happen within a torn sequence, but then the line is refused for an illegal character,
  and the line that the text would have had there is refused for the same reason.
* A number is complete if the end of its line was seen, and this is never behind a torn sequence.
-/

namespace RobotGolf

/-! ### Glyphs of a text that goes on -/

/-- The character of the glyph is not ASCII. -/
def Glyph.Foreign (g : Glyph) : Prop := 128 ≤ g.char.toNat

theorem Glyph.Foreign.ne_newline {g : Glyph} (h : g.Foreign) : g.char ≠ '\n' := by
  intro hchar
  rw [Foreign, hchar] at h
  exact absurd h (by decide)

/-- The first glyphs are those of some octets, the second ones those of a text that begins with
these: all the same, or the same up to a sequence that was torn apart. -/
inductive Glyph.Continues : List Glyph → List Glyph → Prop where
  | ended (gs' : List Glyph) : Continues [] gs'
  | same (g : Glyph) {gs gs' : List Glyph} (h : Continues gs gs') : Continues (g :: gs) (g :: gs')
  | torn {g g' : Glyph} {gs gs' : List Glyph} (h : ∀ x ∈ g :: gs, x.Foreign) (h' : g'.Foreign) :
      Continues (g :: gs) (g' :: gs')

namespace Bytes

open Glyph (Continues)

theorem foreign_uncons {b : UInt8} (h : ¬ b < 0x80) (rest : Bytes) : (uncons b rest).1.Foreign :=
  le_charToNat_uncons h rest

theorem not_lt_of_isTail {b : UInt8} (h : isTail b = true) : ¬ b < 0x80 := by
  intro hlt
  rw [isTail_eq_false_of_lt hlt] at h
  cases h

/-- Octets that are no ASCII characters read as none. -/
theorem foreign_of_mem_glyphs {text : Bytes} (h : ∀ b ∈ text, ¬ b < 0x80) :
    ∀ g ∈ glyphs text, g.Foreign := by
  fun_induction glyphs text with
  | case1 => simp
  | case2 b rest ih =>
    refine List.forall_mem_cons.2 ⟨foreign_uncons (h b (List.mem_cons_self ..)) rest, ih ?_⟩
    intro c hc
    refine h c ?_
    rw [← octets_append_uncons b rest]
    exact List.mem_append_right _ hc

/-- **The first glyph of a text stays the same when the text goes on**, unless it may be a part of
what is spelled by all octets of the text together with others. -/
theorem uncons_append (b : UInt8) (rest more : Bytes) :
    uncons b (rest ++ more) = ((uncons b rest).1, (uncons b rest).2 ++ more) ∨
      ∀ c ∈ b :: rest, ¬ c < 0x80 := by
  by_cases hb : b < 0x80
  · rw [uncons_of_lt hb, uncons_of_lt hb]
    exact Or.inl rfl
  rcases uncons_cases b rest with hstray | ⟨b', tail, hoctets, -, -, hread⟩
  · rcases uncons_cases b (rest ++ more) with hstray' | ⟨b', tail, hoctets, -, htail, hread⟩
    · rw [hstray, hstray']
      exact Or.inl rfl
    have hsplit := octets_append_uncons b (rest ++ more)
    rw [hoctets, List.cons_append, List.cons.injEq] at hsplit
    obtain ⟨rfl, hrest⟩ := hsplit
    rcases List.append_eq_append_iff.1 hrest with ⟨after, rfl, -⟩ | ⟨after, rfl, -⟩
    · -- the sequence is complete before the text goes on
      rw [List.append_assoc, hread, hread]
      exact Or.inl rfl
    · refine Or.inr (List.forall_mem_cons.2 ⟨hb, fun c hc ↦ ?_⟩)
      exact not_lt_of_isTail (htail c (List.mem_append_left _ hc))
  · have hsplit := octets_append_uncons b rest
    rw [hoctets, List.cons_append, List.cons.injEq] at hsplit
    obtain ⟨rfl, hrest⟩ := hsplit
    have hgoes := hread ((uncons b' rest).2 ++ more)
    rw [← List.append_assoc, hrest] at hgoes
    exact Or.inl hgoes

/-- **The glyphs of a text that goes on.** -/
theorem continues_glyphs (text more : Bytes) : Continues (glyphs text) (glyphs (text ++ more)) := by
  fun_induction glyphs text with
  | case1 => exact .ended _
  | case2 b rest ih =>
    rw [List.cons_append, glyphs_cons]
    rcases uncons_append b rest more with hsame | hforeign
    · rw [hsame]
      exact .same _ ih
    · have hglyphs := foreign_of_mem_glyphs hforeign
      rw [glyphs_cons] at hglyphs
      exact .torn hglyphs (foreign_uncons (hforeign b (List.mem_cons_self ..)) (rest ++ more))

end Bytes

namespace Level

open Glyph (Continues)

/-! ### Results of readers -/

/-- The result of reading from a feed that fails, and the result of reading from a text that goes on
where the feed fails: the former is the failure, or both are the same error, or both are values that
are related by `R`. -/
inductive Foretells (reason : String) {α : Type} (R : α → α → Prop) :
    Except LoadError α → Except LoadError α → Prop where
  | unreadable (r : Except LoadError α) : Foretells reason R (.error (.unreadable reason)) r
  | malformed (e : LevelError) : Foretells reason R (.error (.malformed e)) (.error (.malformed e))
  | read {a a' : α} (h : R a a') : Foretells reason R (.ok a) (.ok a')

theorem Foretells.bind {reason : String} {α β : Type} {R : α → α → Prop} {S : β → β → Prop}
    {r r' : Except LoadError α} {k k' : α → Except LoadError β} (h : Foretells reason R r r')
    (hk : ∀ a a', R a a' → Foretells reason S (k a) (k' a')) :
    Foretells reason S (r.bind k) (r'.bind k') := by
  cases h with
  | unreadable => exact .unreadable _
  | malformed e => exact .malformed e
  | read h => exact hk _ _ h

/-- The same was read, and what is left are glyphs of a text that goes on. -/
def SameRead {α : Type} (x x' : α × List Glyph) : Prop := x.1 = x'.1 ∧ Continues x.2 x'.2

variable {o : Options} {reason : String} {gs gs' : List Glyph}

/-! ### Lines -/

theorem unreadable_of_readLine {limit : ℕ} {e : LoadError}
    (h : readLine (some reason) limit gs = .error e) : e = .unreadable reason := by
  induction limit generalizing gs with
  | zero => simp [readLine] at h
  | succ limit ih =>
    rcases gs with - | ⟨g, gs⟩
    · simpa [readLine, eq_comm] using h
    · rw [readLine] at h
      split at h
      · cases h
      rcases hread : readLine (some reason) limit gs with e' | ⟨line, rest⟩ <;> rw [hread] at h
      · obtain rfl : e' = e := by simpa using h
        exact ih hread
      · cases h

theorem exists_readLine_none (limit : ℕ) (gs : List Glyph) :
    ∃ line rest, readLine none limit gs = .ok (line, rest) := by
  induction limit generalizing gs with
  | zero => exact ⟨_, _, rfl⟩
  | succ limit ih =>
    rcases gs with - | ⟨g, gs⟩
    · exact ⟨_, _, rfl⟩
    · obtain ⟨line, rest, hread⟩ := ih gs
      rw [readLine, hread]
      split
      · exact ⟨_, _, rfl⟩
      · exact ⟨_, _, rfl⟩

/-- A character of the line is not ASCII. -/
def HasForeign (line : List Char) : Prop := ∃ c ∈ line, 128 ≤ c.toNat

/-- The same line was read, or two lines with something that is not ASCII. -/
def SameLine (x x' : List Char × List Glyph) : Prop :=
  SameRead x x' ∨ HasForeign x.1 ∧ HasForeign x'.1

theorem HasForeign.cons {line : List Char} (h : HasForeign line) (c : Char) :
    HasForeign (c :: line) := by
  obtain ⟨x, hx, hforeign⟩ := h
  exact ⟨x, List.mem_cons_of_mem _ hx, hforeign⟩

/-- **Reading a line does not depend on what follows the octets that were seen.** -/
theorem readLine_foretells (h : Continues gs gs') (limit : ℕ) :
    Foretells reason SameLine (readLine (some reason) limit gs) (readLine none limit gs') := by
  induction limit generalizing gs gs' with
  | zero => exact .read (Or.inl ⟨rfl, h⟩)
  | succ limit ih =>
    cases h with
    | ended => exact .unreadable _
    | same g h =>
      rw [readLine, readLine]
      split
      · exact .read (Or.inl ⟨rfl, h⟩)
      · have hrest := ih h
        generalize readLine (some reason) limit _ = r at hrest ⊢
        generalize readLine none limit _ = r' at hrest ⊢
        cases hrest with
        | unreadable => exact .unreadable _
        | malformed e => exact .malformed e
        | read hline =>
          rcases hline with ⟨hline, hrest⟩ | ⟨hline, hline'⟩
          · exact .read (Or.inl ⟨congrArg (g.char :: ·) hline, hrest⟩)
          · exact .read (Or.inr ⟨hline.cons g.char, hline'.cons g.char⟩)
    | @torn g g' gs gs' hgs hg' =>
      have hg : g.Foreign := hgs g (List.mem_cons_self ..)
      obtain ⟨line', rest', hread'⟩ := exists_readLine_none limit gs'
      rw [readLine, readLine, if_neg (by simpa using hg.ne_newline),
        if_neg (by simpa using hg'.ne_newline), hread']
      rcases hread : readLine (some reason) limit gs with e | ⟨line, rest⟩
      · rw [unreadable_of_readLine hread]
        exact .unreadable _
      · exact .read (Or.inr ⟨⟨g.char, List.mem_cons_self .., hg⟩,
          ⟨g'.char, List.mem_cons_self .., hg'⟩⟩)

/-- A line of the grid with something that is not ASCII is refused for that reason. -/
theorem tilesOfLine_of_hasForeign {n : ℕ} {line : List Char} (h : HasForeign line) :
    tilesOfLine o n line = .error (.illegalCharacter n) := by
  obtain ⟨c, hc, hforeign⟩ := h
  have hne : c ≠ '\n' := by
    rintro rfl
    exact absurd hforeign (by decide)
  have hsymbol : c ∉ symbols := by
    have hascii : ∀ c ∈ symbols, c.toNat ≤ 127 := by simp [symbols]
    intro hmem
    exact absurd (hascii c hmem) (by omega)
  have hdropped : c ∈ if line.getLast? == some '\n' then line.dropLast else line := by
    split
    · next hlast =>
      have hsplit := List.dropLast_append_getLast? _ (beq_iff_eq.1 hlast)
      rw [← hsplit] at hc
      simpa [hne] using hc
    · exact hc
  have hsymbols : (if line.getLast? == some '\n' then line.dropLast else line).mapM Tile.ofChar? =
      none := by
    rw [Option.eq_none_iff_forall_ne_some]
    intro tiles htiles
    exact hsymbol ((mapM_ofChar?_eq_some_iff.1 htiles).1 c hdropped)
  have hnil : line ≠ [] := List.ne_nil_of_mem hc
  have hempty : line ≠ ['\n'] := by
    rintro rfl
    exact hne (List.mem_singleton.1 hc)
  rw [tilesOfLine, if_neg hnil, if_neg hempty]
  dsimp only
  rw [hsymbols]

/-! ### The grid, and the numbers behind it -/

/-- **Reading the grid does not depend on what follows.** -/
theorem readTiles_foretells (h : Continues gs gs') (count n : ℕ) :
    Foretells reason SameRead (readTiles o (some reason) count n gs)
      (readTiles o none count n gs') := by
  induction count generalizing n gs gs' with
  | zero => exact .read ⟨rfl, h⟩
  | succ count ih =>
    have hline : Foretells reason SameLine _ _ := readLine_foretells h (o.cols + 1).toInt.toNat
    rw [readTiles, readTiles]
    generalize readLine (some reason) _ gs = r at hline ⊢
    generalize readLine none _ gs' = r' at hline ⊢
    cases hline with
    | unreadable => exact .unreadable _
    | malformed e => exact .malformed e
    | @read x x' hline =>
      obtain ⟨line, rest⟩ := x
      obtain ⟨line', rest'⟩ := x'
      rcases hline with ⟨rfl, hrest⟩ | ⟨hline, hline'⟩
      · dsimp only
        rcases tilesOfLine o n line with e | tiles
        · exact .malformed e
        have hmore := ih hrest (n + 1)
        dsimp only at hmore ⊢
        generalize readTiles o (some reason) count _ rest = r at hmore ⊢
        generalize readTiles o none count _ rest' = r' at hmore ⊢
        cases hmore with
        | unreadable => exact .unreadable _
        | malformed e => exact .malformed e
        | read hmore => exact .read ⟨congrArg (tiles :: ·) hmore.1, hmore.2⟩
      · simp only [tilesOfLine_of_hasForeign hline, tilesOfLine_of_hasForeign hline']
        exact .malformed _

/-- The end of a line that is seen is seen as well when the text goes on, with the same in front of
it. -/
theorem span_continues (h : Continues gs gs') {found : List Glyph} {g : Glyph}
    {behind : List Glyph} (hspan : gs.span (·.char != '\n') = (found, g :: behind)) :
    ∃ behind', gs'.span (·.char != '\n') = (found, g :: behind') ∧ Continues behind behind' := by
  simp only [List.span_eq_takeWhile_dropWhile, Prod.mk.injEq] at hspan ⊢
  induction h generalizing found with
  | ended => simp at hspan
  | @same x gs gs' h ih =>
    by_cases hx : x.char = '\n'
    · obtain ⟨rfl, rfl, rfl⟩ : [] = found ∧ x = g ∧ gs = behind := by simpa [hx] using hspan
      exact ⟨gs', by simp [hx], h⟩
    · simp only [List.takeWhile_cons, List.dropWhile_cons, bne_iff_ne.2 hx, if_true] at hspan ⊢
      obtain ⟨rfl, hdrop⟩ := hspan
      obtain ⟨behind', ⟨htake', hdrop'⟩, hbehind⟩ := ih ⟨rfl, hdrop⟩
      exact ⟨behind', ⟨by rw [htake'], hdrop'⟩, hbehind⟩
  | @torn x _ gs _ hgs _ =>
    -- a torn sequence reaches to the end, and no line ends in it
    have hdrop : (x :: gs).dropWhile (·.char != '\n') = [] :=
      List.dropWhile_eq_nil_iff.2 fun y hy ↦ bne_iff_ne.2 (hgs y hy).ne_newline
    rw [hdrop] at hspan
    cases hspan.2

/-- **Reading a number does not depend on what follows.** -/
theorem readNumber_foretells (h : Continues gs gs') (limit n : ℕ) :
    Foretells reason SameRead (readNumber (some reason) limit n gs)
      (readNumber none limit n gs') := by
  rcases hspan : gs.span (·.char != '\n') with ⟨found, - | ⟨g, behind⟩⟩
  · rw [readNumber, hspan]
    exact .unreadable _
  · obtain ⟨behind', hspan', hbehind⟩ := span_continues h hspan
    rw [readNumber, readNumber, hspan, hspan']
    dsimp only
    rcases digitsValue? (found.map Glyph.char) with - | value
    · exact .malformed _
    · dsimp only
      split
      · exact .read ⟨rfl, hbehind⟩
      · exact .malformed _

/-! ### Loading -/

/-- What becomes of a grid and two numbers that have been read. -/
def judged (o : Options) (tiles : List (List Tile)) (points budget : ℕ) :
    Except LoadError Level :=
  match survey (tiles.map (·.map Tile.toCell)) none .empty (indexedTiles tiles) with
  | .error e => .error (.malformed e)
  | .ok (robot, walls) => .ok (ofWalls o.name o.rows.toInt.toNat o.cols.toInt.toNat points budget
      robot (tiles.map (·.map Tile.toCell)) walls)

/-- Loading reads the grid and the numbers one after the other. -/
theorem load_eq_bind (hrows : ¬ o.rows < 1) (hcols : ¬ o.cols < 1)
    (hroom : ¬ capacity < o.rows.toInt) (feed : Feed) : load o feed =
      (readTiles o feed.failure o.rows.toInt.toNat 1 (Bytes.glyphs feed.content)).bind fun x ↦
      (readNumber feed.failure pointsLimit (o.rows.toInt.toNat + 1) x.2).bind fun y ↦
      (readNumber feed.failure maxBytesLimit (o.rows.toInt.toNat + 2) y.2).bind fun z ↦
      judged o x.1 y.1 z.1 := by
  rw [load, if_neg hrows, if_neg hcols, if_neg hroom]
  dsimp only
  rcases readTiles o _ _ _ _ with e | ⟨tiles, behindGrid⟩
  · rfl
  dsimp only [Except.bind]
  rcases readNumber _ _ _ behindGrid with e | ⟨points, behindPoints⟩
  · rfl
  dsimp only [Except.bind]
  rcases readNumber _ _ _ behindPoints with e | ⟨budget, behind⟩
  · rfl
  · rfl

theorem judged_foretells (o : Options) (tiles : List (List Tile)) (points budget : ℕ) :
    Foretells reason Eq (judged o tiles points budget) (judged o tiles points budget) := by
  unfold judged
  rcases survey _ none .empty (indexedTiles tiles) with e | ⟨robot, walls⟩
  · exact .malformed e
  · exact .read rfl

/-- **Either a feed reports its failure, or it gets the verdict that every text gets which goes on
where it fails.** -/
theorem load_foretells (hroom : ¬ capacity < o.rows.toInt) (text more : Bytes) (reason : String) :
    Foretells reason Eq (load o ⟨text, some reason⟩) (parse o (text ++ more)) := by
  by_cases hrows : o.rows < 1
  · rw [parse, load, load, if_pos hrows, if_pos hrows]
    exact .malformed _
  by_cases hcols : o.cols < 1
  · rw [parse, load, load, if_neg hrows, if_neg hrows, if_pos hcols, if_pos hcols]
    exact .malformed _
  rw [parse, load_eq_bind hrows hcols hroom, load_eq_bind hrows hcols hroom]
  refine .bind (readTiles_foretells (Bytes.continues_glyphs text more) _ _) ?_
  rintro ⟨tiles, behindGrid⟩ ⟨_, behindGrid'⟩ ⟨rfl, hgrid⟩
  refine .bind (readNumber_foretells hgrid _ _) ?_
  rintro ⟨points, behindPoints⟩ ⟨_, behindPoints'⟩ ⟨rfl, hpoints⟩
  refine .bind (readNumber_foretells hpoints _ _) ?_
  rintro ⟨budget, behind⟩ ⟨_, behind'⟩ ⟨rfl, -⟩
  exact judged_foretells o tiles points budget

/-- For more rows than there can be room for, nothing is read at all. -/
theorem load_of_capacity_lt (hroom : capacity < o.rows.toInt) (feed : Feed) :
    load o feed =
      if o.cols < 1 then .error (.malformed (.cols o.cols)) else .error .oversized := by
  have hrows : ¬ o.rows < 1 := by
    rw [Int64.lt_iff_toInt_lt, Int64.toInt_one]
    have hcapacity : 1 ≤ capacity := by decide
    omega
  rw [load, if_neg hrows, if_pos hroom]

/-- **A feed that fails gets no verdict that depends on what was not read.** Let a feed deliver the
first octets of a text and fail then. If a level is loaded from it, then the same level is loaded
from every text that begins with these octets. If it is refused as malformed, then every such text
is refused with the same error. In all other cases the failure is reported, as one of reading the
level, unless there can be no room for as many rows as were asked for. -/
theorem verdict_of_failing_feed (o : Options) (text : Bytes) (n : ℕ) (reason : String) :
    (∀ l, load o (.failing text n reason) = .ok l →
      ∀ text', text.take n <+: text' → parse o text' = .ok l) ∧
    (∀ e, load o (.failing text n reason) = .error (.malformed e) →
      ∀ text', text.take n <+: text' → parse o text' = .error (.malformed e)) ∧
    ((∀ l, load o (.failing text n reason) ≠ .ok l) →
      (∀ e, load o (.failing text n reason) ≠ .error (.malformed e)) →
      load o (.failing text n reason) =
        if capacity < o.rows.toInt then .error .oversized else .error (.unreadable reason)) ∧
    (LoadError.unreadable reason).message = "cannot read level: " ++ reason := by
  rw [Feed.failing]
  by_cases hroom : capacity < o.rows.toInt
  · rw [if_pos hroom, load_of_capacity_lt hroom]
    refine ⟨fun l hl ↦ ?_, fun e he text' _ ↦ ?_, fun _ herror ↦ ?_, rfl⟩
    · split at hl <;> cases hl
    · rw [parse, load_of_capacity_lt hroom, he]
    · split at herror
      · exact absurd rfl (herror _)
      · next hcols => rw [if_neg hcols]
  have hverdict := fun more ↦ load_foretells hroom (text.take n) more reason
  rw [if_neg hroom]
  refine ⟨fun l hl ↦ ?_, fun e he ↦ ?_, fun hlevel herror ↦ ?_, rfl⟩
  · rintro _ ⟨more, rfl⟩
    have hmore := hverdict more
    rw [hl] at hmore
    generalize parse o _ = r at hmore ⊢
    cases hmore with
    | read hsame => rw [hsame]
  · rintro _ ⟨more, rfl⟩
    have hmore := hverdict more
    rw [he] at hmore
    generalize parse o _ = r at hmore ⊢
    cases hmore with
    | malformed => rfl
  · have hsame := hverdict []
    generalize load o _ = r at hlevel herror hsame ⊢
    generalize parse o _ = r' at hsame
    cases hsame with
    | unreadable => rfl
    | malformed e => exact absurd rfl (herror e)
    | read _ => exact absurd rfl (hlevel _)

/-- A level of two cells. -/
def hall : Level := ofGrid "hall" 1 2 12 34 ⟨⟨0, 0⟩, .right⟩ [[.empty, .white]]

/-- The octets stop within an accented letter. Behind the two numbers it makes no difference which
one, and in a row every such letter is illegal. Without the end of its line, though, a number may go
on. -/
theorem cut_levels_judged :
    (load ⟨1, 2, "hall"⟩ (.failing (Bytes.ofString "rw\n12\n34\né") 10 "broken pipe") = .ok hall ∧
      parse ⟨1, 2, "hall"⟩ (Bytes.ofString "rw\n12\n34\nèe") = .ok hall) ∧
    (load ⟨1, 2, "hall"⟩ (.failing (Bytes.ofString "rwé\n12\n34\n") 3 "broken pipe") =
        .error (.malformed (.illegalCharacter 1)) ∧
      parse ⟨1, 2, "hall"⟩ (Bytes.ofString "rwè") = .error (.malformed (.illegalCharacter 1))) ∧
    load ⟨1, 2, "hall"⟩ (.failing (Bytes.ofString "rw\n12\n34\n") 8 "broken pipe") =
      .error (.unreadable "broken pipe") := by
  have hloaded : load ⟨1, 2, "hall"⟩ (.failing (Bytes.ofString "rw\n12\n34\né") 10
      "broken pipe") = .ok hall := by
    decide +kernel
  have hrefused : load ⟨1, 2, "hall"⟩ (.failing (Bytes.ofString "rwé\n12\n34\n") 3
      "broken pipe") = .error (.malformed (.illegalCharacter 1)) := by
    decide +kernel
  have hcut : load ⟨1, 2, "hall"⟩ (.failing (Bytes.ofString "rw\n12\n34\n") 8 "broken pipe") =
      .error (.unreadable "broken pipe") := by
    decide +kernel
  have hfirst := (verdict_of_failing_feed ⟨1, 2, "hall"⟩ (Bytes.ofString "rw\n12\n34\né") 10
    "broken pipe").1 hall hloaded (Bytes.ofString "rw\n12\n34\nèe") (by decide)
  have hsecond := (verdict_of_failing_feed ⟨1, 2, "hall"⟩ (Bytes.ofString "rwé\n12\n34\n") 3
    "broken pipe").2.1 _ hrefused (Bytes.ofString "rwè") (by decide)
  exact ⟨⟨hloaded, hfirst⟩, ⟨hrefused, hsecond⟩, hcut⟩

/-- No failure is reported where there can be no room for the rows: the feed is not read. -/
theorem boundless_level_unread :
    load ⟨4611686018427387904, 1, ""⟩ (.failing [] 0 "disk on fire") = .error .oversized ∧
    ¬ ∀ (o : Options) (text : Bytes) (n : ℕ) (reason : String),
      (∃ l, load o (.failing text n reason) = .ok l) ∨
      (∃ e, load o (.failing text n reason) = .error (.malformed e)) ∨
      load o (.failing text n reason) = .error (.unreadable reason) := by
  have hload : load ⟨4611686018427387904, 1, ""⟩ (.failing [] 0 "disk on fire") =
      .error .oversized := by
    rw [load_of_capacity_lt (by decide)]
    rfl
  refine ⟨hload, fun hclaim ↦ ?_⟩
  have hcases := hclaim ⟨4611686018427387904, 1, ""⟩ [] 0 "disk on fire"
  rw [hload] at hcases
  rcases hcases with ⟨l, hlevel⟩ | ⟨e, herror⟩ | hunreadable
  · cases hlevel
  · cases herror
  · cases hunreadable

end Level

end RobotGolf
