import Mathlib.Data.Prod.Lex
import RobotGolf.Proofs.Deliveries
import RobotGolf.Proofs.ErrorOffsets
/-!
# Places of characters

There are two ways to count lines and columns. `Place.atEnd` walks along the characters of a whole
text. `Place.atOffset` cuts the text at an offset, counts the line ends in front of it, and then the
characters behind the last of these. They come to the same, because what is cut apart is read as it
was read before:

* **at the end of a line**, which is a character of its own wherever it stands
  (`Place.foldl_passChar_chars`), so that an offset has the place at the end of what is in front of
  it, whatever the octets are (`Place.atOffset_eq_atEnd`);
* **where a character starts**: octets in front of it that start no well-formed sequence do so also
  when less follows (`Bytes.glyphs_ofGlyphs_front`).

Walking on by a character leads to a later place, so places ascend from character to character
(`Place.rank_atOffset_lt`). The tokens of a program start with characters of the source, and errors
at different ones of them are reported at different places (`Place.counts_agree_and_ascend`).
-/

namespace RobotGolf

/-! ### Ends of lines -/

namespace Place

open Bytes

theorem uncons_newline (rest : Bytes) : uncons newline rest = (⟨'\n', [newline]⟩, rest) :=
  uncons_of_lt (by decide) rest

/-- A character that does not start with the end of a line has none in it. -/
theorem newline_not_mem_uncons {b : UInt8} (h : b ≠ newline) (rest : Bytes) :
    (uncons b rest).1.char ≠ '\n' ∧ newline ∉ (uncons b rest).1.octets := by
  constructor
  · intro hchar
    by_cases hb : b < 0x80
    · rw [uncons_of_lt hb, Token.charOfNat_eq_iff] at hchar
      exact h (UInt8.toNat_inj.1 hchar)
    · have hle := le_charToNat_uncons hb rest
      rw [hchar] at hle
      exact absurd hle (by decide)
  · have happ := octets_append_uncons b rest
    rcases uncons_cases b rest with hstray | ⟨first, tail, hoctets, -, htail, -⟩
    · rw [hstray]
      simpa [Glyph.stray] using h.symm
    · rw [hoctets, List.cons_append, List.cons.injEq] at happ
      rw [hoctets, happ.1, List.mem_cons, not_or]
      exact ⟨h.symm, fun hmem ↦ absurd (htail _ hmem) (by decide)⟩

variable {text back : Bytes}

theorem ne_newline_of_mem_reverse (h : newline ∉ text) :
    ∀ b ∈ text.reverse, (b != newline) = true := by
  intro b hb
  rw [bne_iff_ne]
  rintro rfl
  exact h (List.mem_reverse.1 hb)

theorem lastLine_of_not_mem (h : newline ∉ text) : lastLine text = text := by
  rw [lastLine, List.takeWhile_eq_self_iff.2 (ne_newline_of_mem_reverse h), List.reverse_reverse]

theorem lastLine_newline_cons (h : newline ∉ text) : lastLine (newline :: text) = text := by
  rw [lastLine, List.reverse_cons, List.takeWhile_append_of_pos (ne_newline_of_mem_reverse h)]
  simp

theorem lastLine_append_of_mem (front : Bytes) (h : newline ∈ back) :
    lastLine (front ++ back) = lastLine back := by
  have hshort : (back.reverse.takeWhile (· != newline)).length ≠ back.reverse.length := by
    intro hlength
    have hself := (List.takeWhile_prefix _).eq_of_length hlength
    have hmem := List.mem_takeWhile_imp (hself ▸ List.mem_reverse.2 h)
    simp at hmem
  rw [lastLine, List.reverse_append, List.takeWhile_append, if_neg hshort, lastLine]

/-- **The place behind a text**, from any place in front of it. -/
theorem foldl_passChar_chars (text : Bytes) (p : Place) :
    (chars text).foldl passChar p =
      if newline ∈ text then ⟨p.line + text.count newline, (glyphs (lastLine text)).length + 1⟩
      else ⟨p.line, p.column + (glyphs text).length⟩ := by
  rw [chars]
  fun_induction glyphs text generalizing p with
  | case1 => simp
  | case2 b rest ih =>
    rw [List.map_cons, List.foldl_cons, ih, List.length_cons]
    by_cases hb : b = newline
    · subst hb
      rw [uncons_newline, if_pos (List.mem_cons_self ..)]
      have hpass : passChar p '\n' = ⟨p.line + 1, 1⟩ := rfl
      by_cases hrest : newline ∈ rest
      · have hlast : lastLine (newline :: rest) = lastLine rest :=
          lastLine_append_of_mem [newline] hrest
        rw [if_pos hrest, hpass, List.count_cons_self, hlast]
        simp
        omega
      · rw [if_neg hrest, hpass, lastLine_newline_cons hrest, List.count_cons_self,
          List.count_eq_zero_of_not_mem hrest]
        simp [Int.add_comm]
    · obtain ⟨hchar, hoctets⟩ := newline_not_mem_uncons hb rest
      have hpass : passChar p (uncons b rest).1.char = ⟨p.line, p.column + 1⟩ := by
        rw [passChar, if_neg (by simpa using hchar)]
      have htext := octets_append_uncons b rest
      have hmem : newline ∈ b :: rest ↔ newline ∈ (uncons b rest).2 := by
        rw [← htext, List.mem_append, or_iff_right hoctets]
      rw [hpass]
      by_cases hrest : newline ∈ (uncons b rest).2
      · rw [if_pos hrest, if_pos (hmem.2 hrest), ← htext, List.count_append,
          List.count_eq_zero_of_not_mem hoctets, lastLine_append_of_mem _ hrest, Nat.zero_add]
      · rw [if_neg hrest, if_neg (mt hmem.1 hrest)]
        simp
        omega

/-- The place at the end of a text, by its line ends and its last line. -/
theorem atEnd_eq (text : Bytes) :
    atEnd text = ⟨text.count newline + 1, (glyphs (lastLine text)).length + 1⟩ := by
  rw [atEnd, foldl_passChar_chars]
  split
  · simp [Int.add_comm]
  · rename_i h
    simp [lastLine_of_not_mem h, List.count_eq_zero_of_not_mem h, Int.add_comm]

/-- **An offset has the place at the end of what is in front of it.** -/
theorem atOffset_eq_atEnd (text : Bytes) (offset : ℕ) :
    atOffset text offset = atEnd (text.take offset) :=
  (atEnd_eq _).symm

end Place

/-! ### Cutting a text in front of a character -/

namespace Bytes

/-- An offset at which a character of a text starts, or at which the text ends. -/
def IsBoundary (text : Bytes) (offset : ℕ) : Prop :=
  ∃ front back, glyphs text = front ++ back ∧ (ofGlyphs front).length = offset

/-- An octet that is stray remains so if less follows it. -/
theorem uncons_eq_stray_of_prefix {b : UInt8} {rest less : Bytes}
    (h : uncons b rest = (Glyph.stray b, rest)) (hless : less <+: rest) :
    uncons b less = (Glyph.stray b, less) := by
  rcases uncons_cases b less with hstray | ⟨first, tail, hoctets, -, -, hread⟩
  · exact hstray
  -- what is well formed at the front of less would be so at the front of more
  have happ := octets_append_uncons b less
  rw [hoctets, List.cons_append, List.cons.injEq] at happ
  obtain ⟨rfl, htail⟩ := happ
  obtain ⟨more, rfl⟩ := hless
  have hsame := hread ((uncons first less).2 ++ more)
  rw [← List.append_assoc, htail, h, Prod.mk.injEq] at hsame
  exact Prod.ext hsame.1.symm (List.append_cancel_right hsame.2).symm

/-- **Characters from the front of a text are read again without what follows them.** -/
theorem glyphs_ofGlyphs_front {text : Bytes} {front back : List Glyph}
    (h : glyphs text = front ++ back) : glyphs (ofGlyphs front) = front := by
  induction front generalizing text with
  | nil => exact glyphs_nil
  | cons g front ih =>
    rcases text with - | ⟨b, rest⟩
    · simp [glyphs_nil] at h
    rw [glyphs_cons, List.cons_append, List.cons.injEq] at h
    obtain ⟨rfl, hrest⟩ := h
    have hfront := ih hrest
    rw [ofGlyphs_cons]
    rcases uncons_cases b rest with hstray | hwf
    · rw [hstray] at hrest ⊢
      have hless : ofGlyphs front <+: rest := by
        refine ⟨ofGlyphs back, ?_⟩
        rw [← ofGlyphs_append, ← hrest, octets_glyphs]
      show glyphs (b :: ofGlyphs front) = _
      rw [glyphs_cons, uncons_eq_stray_of_prefix hstray hless, hfront]
    · have hread := glyphs_ofGlyphs_append (List.forall_mem_singleton.2 hwf) (ofGlyphs front)
      rw [hfront] at hread
      simpa [ofGlyphs] using hread

/-- So the text in front of a character is read as the characters in front of it. -/
theorem glyphs_take {text : Bytes} {front back : List Glyph} (h : glyphs text = front ++ back) :
    glyphs (text.take (ofGlyphs front).length) = front := by
  have htext : text = ofGlyphs front ++ ofGlyphs back := by
    rw [← ofGlyphs_append, ← h, octets_glyphs]
  conv_lhs => rw [htext, List.take_left]
  exact glyphs_ofGlyphs_front h

/-- Behind ASCII characters a character starts. -/
theorem isBoundary_of_ascii {text : Bytes} {offset : ℕ} (hle : offset ≤ text.length)
    (h : ∀ b ∈ text.take offset, b < 0x80) : text.IsBoundary offset := by
  induction offset generalizing text with
  | zero => exact ⟨[], glyphs text, rfl, rfl⟩
  | succ offset ih =>
    rcases text with - | ⟨b, rest⟩
    · simp at hle
    rw [List.take_succ_cons, List.forall_mem_cons] at h
    obtain ⟨front, back, hrest, hlength⟩ := ih (Nat.le_of_succ_le_succ hle) h.2
    refine ⟨⟨Char.ofNat b.toNat, [b]⟩ :: front, back, ?_, ?_⟩
    · rw [glyphs_cons, uncons_of_lt h.1, hrest, List.cons_append]
    · rw [ofGlyphs_cons, List.length_append, hlength, List.length_singleton, Nat.add_comm]

/-- Behind well-formed characters there are characters where there are some without them. -/
theorem IsBoundary.append {gs : List Glyph} (hgs : ∀ g ∈ gs, g.WellFormed) {text : Bytes}
    {offset : ℕ} (h : text.IsBoundary offset) :
    (ofGlyphs gs ++ text).IsBoundary ((ofGlyphs gs).length + offset) := by
  obtain ⟨front, back, htext, rfl⟩ := h
  refine ⟨gs ++ front, back, ?_, ?_⟩
  · rw [glyphs_ofGlyphs_append hgs, htext, List.append_assoc]
  · rw [ofGlyphs_append, List.length_append]

end Bytes

/-! ### Places ascend -/

namespace Place

open Bytes

/-- Places are ordered by their lines, and on one line by their columns. -/
def rank (p : Place) : ℤ ×ₗ ℤ := toLex (p.line, p.column)

/-- Behind a character there is a later place. -/
theorem rank_lt_passChar (p : Place) (c : Char) : p.rank < (p.passChar c).rank := by
  rw [rank, rank, Prod.Lex.toLex_lt_toLex, passChar]
  split
  · exact Or.inl (lt_add_one p.line)
  · exact Or.inr ⟨rfl, lt_add_one p.column⟩

theorem rank_lt_foldl {cs : List Char} (h : cs ≠ []) (p : Place) :
    p.rank < (cs.foldl passChar p).rank := by
  induction cs generalizing p with
  | nil => exact absurd rfl h
  | cons c cs ih =>
    rw [List.foldl_cons]
    rcases cs with - | ⟨d, cs⟩
    · exact rank_lt_passChar p c
    · exact (rank_lt_passChar p c).trans (ih (List.cons_ne_nil d cs) _)

/-- **Places ascend from character to character.** -/
theorem rank_atOffset_lt {text : Bytes} {p q : ℕ} (hlt : p < q) (hp : text.IsBoundary p)
    (hq : text.IsBoundary q) : (atOffset text p).rank < (atOffset text q).rank := by
  obtain ⟨front, back, htext, rfl⟩ := hp
  obtain ⟨front', back', htext', rfl⟩ := hq
  rw [atOffset_eq_atEnd, atOffset_eq_atEnd, atEnd, atEnd, chars, chars, glyphs_take htext,
    glyphs_take htext']
  -- both are at the front of the same characters, and the second has more octets
  have hfront : front <+: front' := by
    rcases List.prefix_or_prefix_of_prefix ⟨back, htext.symm⟩ ⟨back', htext'.symm⟩ with
      h | ⟨more, rfl⟩
    · exact h
    · rw [ofGlyphs_append, List.length_append] at hlt
      omega
  obtain ⟨more, rfl⟩ := hfront
  have hmore : more ≠ [] := by
    rintro rfl
    simp at hlt
  rw [List.map_append, List.foldl_append]
  exact rank_lt_foldl (by simpa using hmore) _

end Place

/-! ### Tokens -/

namespace Token

/-- Tokens that cover a text start one behind the other, and in front of where they end. -/
theorem Tiles.pairwise_concat {start : ℕ} {tokens : List Token} {last : Token}
    (h : Tiles start tokens last.span.start) :
    (tokens ++ [last]).Pairwise fun t u ↦ t.span.start < u.span.start := by
  induction tokens generalizing start with
  | nil => exact List.pairwise_singleton ..
  | cons t tokens ih =>
    obtain ⟨hstart, hpos, hbehind⟩ := tiles_cons_iff.1 h
    refine List.pairwise_cons.2 ⟨fun u hu ↦ ?_, ih hbehind⟩
    rcases List.mem_append.1 hu with hu | hu
    · have := (hbehind.of_mem hu).1
      omega
    · have := hbehind.le
      rw [List.mem_singleton.1 hu]
      omega

theorem lt_of_inAlphabet {b : UInt8} (h : InAlphabet b) : b < 0x80 := by
  obtain ⟨kind, hkind⟩ := inAlphabet_iff.1 h
  have hle := toNat_le_of_belongs (classify_eq_some_iff.1 hkind)
  rw [charToNat_ofNat_octet] at hle
  exact UInt8.lt_iff_toNat_lt.2 (Nat.lt_succ_of_le hle)

/-- In front of what ends a scan there are ASCII characters only. -/
theorem ascii_front (text : Bytes) :
    (scan text).last.span.start ≤ text.length ∧
      ∀ b ∈ text.take (scan text).last.span.start, b < 0x80 := by
  obtain ⟨rest, htext, -⟩ := scanFrom_cases (finish text) 0 Place.beforeOctets text
  rw [start_last_scan]
  have hclean := fun b ↦ inAlphabet_of_mem_scan (b := b) text
  change text = lexemes (scan text).tokens ++ rest at htext
  generalize lexemes (scan text).tokens = front at htext hclean ⊢
  rw [htext, List.take_left]
  exact ⟨by simp, fun b hb ↦ lt_of_inAlphabet (hclean b hb)⟩

end Token

namespace Bytes

/-- An ASCII character is not stray. -/
theorem isStray_eq_false {text : Bytes} {g : Glyph} (hg : g ∈ glyphs text) {b : UInt8}
    (hb : b ∈ g.octets.head?) (hlt : b < 0x80) : g.isStray = false := by
  fun_induction glyphs text with
  | case1 => simp at hg
  | case2 first rest ih =>
    rcases List.mem_cons.1 hg with rfl | hg
    · have hhead := congrArg List.head? (octets_append_uncons first rest)
      rw [List.head?_append_of_ne_nil _ (octets_uncons_ne_nil first rest),
        Option.mem_def.1 hb] at hhead
      obtain rfl : b = first := by simpa using hhead
      rw [uncons_of_lt hlt, Glyph.isStray, Bool.and_eq_false_iff]
      refine Or.inl (beq_eq_false_iff_ne.2 fun hchar ↦ ?_)
      have hle := UInt8.lt_iff_toNat_lt.1 hlt
      rw [Token.charOfNat_eq_iff] at hchar
      rw [hchar] at hle
      exact absurd hle (by decide)
    · exact ih hg

end Bytes

namespace Program

open Bytes Token

/-- If a program has a token, its source starts with a well-formed character. -/
theorem lead_eq_of_token {source : Bytes} (h : (scan (trim source)).tokens ≠ []) :
    lead source = (leading source).length := by
  obtain ⟨t, ht⟩ := List.exists_mem_of_ne_nil _ h
  obtain ⟨-, hpos, hstop⟩ := (tiles_scan_last (trim source)).of_mem ht
  obtain ⟨hle, hascii⟩ := ascii_front (trim source)
  have hlast : 0 < (scan (trim source)).last.span.start := by omega
  generalize (scan (trim source)).last.span.start = n at hle hascii hlast
  rcases hdrop : (glyphs source).dropWhile Glyph.blank with - | ⟨g, rest⟩
  · have hnil : trim source = [] := by simp [trim, Glyph.trim, hdrop, ofGlyphs]
    rw [hnil, List.length_nil] at hle
    omega
  · obtain ⟨hblank, hfront⟩ := octets_prefix_trim hdrop
    have hmem : g ∈ glyphs source :=
      (List.dropWhile_suffix _).subset (hdrop ▸ List.mem_cons_self)
    refine lead_eq ⟨g, hmem, hblank⟩ ?_
    rw [StartsWellFormed, hdrop]
    rintro _ ⟨⟩
    -- the octet that it starts with is the first one of the first token
    obtain ⟨b, others, hoctets⟩ := List.exists_cons_of_ne_nil (octets_ne_nil_of_mem hmem)
    obtain ⟨more, hmore⟩ := hfront
    rw [hoctets, List.cons_append] at hmore
    refine isStray_eq_false hmem (by rw [hoctets]; rfl) (hascii b ?_)
    rw [← hmore, ← Nat.succ_pred_eq_of_pos hlast, List.take_succ_cons]
    exact List.mem_cons_self ..

/-- **The tokens of a program start with characters of its source.** -/
theorem isBoundary_of_mem {source : Bytes} (h : (scan (trim source)).tokens ≠ []) {t : Token}
    (ht : t ∈ (scan (trim source)).tokens ++ [(scan (trim source)).last]) :
    source.IsBoundary (t.span.start + lead source) := by
  obtain ⟨hle, hascii⟩ := ascii_front (trim source)
  have hstart : t.span.start ≤ (scan (trim source)).last.span.start := by
    rcases List.mem_append.1 ht with ht | ht
    · have := (tiles_scan_last (trim source)).of_mem ht
      omega
    · rw [List.mem_singleton.1 ht]
  obtain ⟨behind, heq⟩ := exists_append_eq source
  have hboundary : (trim source ++ behind).IsBoundary t.span.start := by
    refine isBoundary_of_ascii (by rw [List.length_append]; omega) fun b hb ↦ hascii b ?_
    rw [List.take_append_of_le_length (hstart.trans hle)] at hb
    exact (List.take_prefix_take_left hstart).subset hb
  have hblanks : ∀ g ∈ (glyphs source).takeWhile Glyph.blank, g.WellFormed := fun g hg ↦
    wellFormed_of_blank ((List.takeWhile_prefix _).subset hg) (List.mem_takeWhile_imp hg)
  have hsource : (leading source ++ (trim source ++ behind)).IsBoundary
      ((leading source).length + t.span.start) := hboundary.append hblanks
  rwa [heq, ← lead_eq_of_token h, Nat.add_comm] at hsource

end Program

namespace Place

open Bytes Token

/-- **Two ways of counting agree, and places ascend.** The place at the end of a text, found by
walking along its characters, is that of its length as an offset. Of two offsets at which characters
start or the text ends, the greater one has the later place, by line and then by column. So errors
at different tokens of a program are reported at different places of its source, in the order of the
tokens. -/
theorem counts_agree_and_ascend (text : Bytes) :
    atEnd text = atOffset text text.length ∧
    (∀ p q, p < q → text.IsBoundary p → text.IsBoundary q →
      (atOffset text p).rank < (atOffset text q).rank) ∧
    ((scan (trim text)).tokens ++ [(scan (trim text)).last]).Pairwise fun t u ↦ ∀ cause cause',
      (SyntaxError.ofFault text (Program.lead text) ⟨t, cause⟩).place.rank <
        (SyntaxError.ofFault text (Program.lead text) ⟨u, cause'⟩).place.rank := by
  refine ⟨?_, fun p q ↦ rank_atOffset_lt, ?_⟩
  · rw [atOffset_eq_atEnd, List.take_length]
  · by_cases htokens : (scan (trim text)).tokens = []
    · rw [htokens, List.nil_append]
      exact List.pairwise_singleton ..
    · refine (tiles_scan_last (trim text)).pairwise_concat.imp_of_mem ?_
      intro t u ht hu hlt _ _
      exact rank_atOffset_lt (Nat.add_lt_add_right hlt _) (Program.isBoundary_of_mem htokens ht)
        (Program.isBoundary_of_mem htokens hu)

/-- `s`, a euro sign without its last octet, the end of a line, and a whole euro sign. -/
def ragged : Bytes := [0x73, 0xE2, 0x82, 0x0A, 0xE2, 0x82, 0xAC]

/-- The two octets of the broken sign take a column each, the three of the whole sign take one. -/
theorem ragged_counted :
    ragged.IsBoundary 2 ∧ ragged.IsBoundary 7 ∧ atOffset ragged 2 = ⟨1, 3⟩ ∧
    atOffset ragged 7 = ⟨2, 2⟩ ∧ atEnd ragged = ⟨2, 2⟩ ∧
    (atOffset ragged 2).rank < (atOffset ragged 7).rank := by
  have hglyphs : glyphs ragged = [⟨'s', [0x73]⟩, ⟨'\uFFFD', [0xE2]⟩, ⟨'\uFFFD', [0x82]⟩,
      ⟨'\n', [0x0A]⟩, ⟨'€', [0xE2, 0x82, 0xAC]⟩] := by decide +kernel
  have htwo : ragged.IsBoundary 2 :=
    ⟨_, _, (List.take_append_drop 2 _).symm, by rw [hglyphs]; rfl⟩
  have hseven : ragged.IsBoundary 7 :=
    ⟨_, _, (List.take_append_drop 5 _).symm, by rw [hglyphs]; rfl⟩
  have hplace : atOffset ragged 7 = ⟨2, 2⟩ := by decide +kernel
  obtain ⟨hend, hascend, -⟩ := counts_agree_and_ascend ragged
  exact ⟨htwo, hseven, by decide +kernel, hplace, hend.trans hplace,
    hascend 2 7 (by decide) htwo hseven⟩

end Place

end RobotGolf
