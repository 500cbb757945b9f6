import Mathlib.Data.List.TakeWhile
import Mathlib.Data.Nat.Find
import RobotGolf.Program.Parse
import RobotGolf.Proofs.Glyphs
/-!
# Where errors are reported in the untrimmed source

A source is trimmed before it is scanned, and the offsets of an error are moved back by the number
of octets that were taken off its front. That number is not kept, though: it is looked for, as the
first offset at which the trimmed text occurs in the source (`Program.lead`).

It is the right one if and only if the trimmed text does not occur earlier
(`Program.lead_eq_iff`). An earlier occurrence would have to begin within the white space.

* **It cannot, if the first character behind the white space is well formed.** White space is well
  formed too, and well-formed sequences are told apart by their octets: the first octet of one is
  never a later octet of another, and where one begins no other does (`not_prefix_drop`).
* **A stray octet can hide there.** White space beyond ASCII is spelled with octets that are stray
  when they stand alone, and a text that is trimmed down to such octets is found inside the white
  space before it (`Program.hidden_misplaced`).
-/

namespace RobotGolf

/-! ### Well-formed glyphs -/

/-- A glyph that is spelled by a well-formed sequence of octets: the first one is no tail octet, all
others are, and the glyph is read whatever follows. -/
def Glyph.WellFormed (g : Glyph) : Prop :=
  ∃ b tail, g.octets = b :: tail ∧ Bytes.isTail b = false ∧ (∀ c ∈ tail, Bytes.isTail c = true) ∧
    ∀ after, Bytes.uncons b (tail ++ after) = (g, after)

namespace Bytes

theorem isTail_eq_false_of_lt {b : UInt8} (h : b < 0x80) : isTail b = false := by
  rw [← Bool.not_eq_true, isTail_iff]
  have := UInt8.lt_iff_toNat_lt.1 h
  simp only [UInt8.reduceToNat] at this
  omega

theorem isTail_eq_false_of_le {b low : UInt8} (hlow : 0xC0 ≤ low) (h : low ≤ b) :
    isTail b = false := by
  rw [← Bool.not_eq_true, isTail_iff]
  have := UInt8.le_iff_toNat_le.1 (UInt8.le_trans hlow h)
  simp only [UInt8.reduceToNat] at this
  omega

theorem isTail_of_isSecond {first b : UInt8} (h : isSecond first b = true) : isTail b = true :=
  isTail_iff.2 (bounds_of_isSecond h).1

/-- **What is read at the head of a text** is a stray octet or a well-formed glyph. -/
theorem uncons_cases (b : UInt8) (rest : Bytes) :
    uncons b rest = (Glyph.stray b, rest) ∨ (uncons b rest).1.WellFormed := by
  unfold uncons
  split
  · next hb =>
    exact Or.inr ⟨b, [], rfl, isTail_eq_false_of_lt hb, by simp, fun after ↦ by
      simp [uncons, hb]⟩
  next hb =>
  split
  · next hb₂ =>
    have hfirst := (Bool.and_eq_true_iff.1 hb₂).1
    split
    · split
      · next c after hc =>
        exact Or.inr ⟨b, [c], rfl, isTail_eq_false_of_le (by decide) (of_decide_eq_true hfirst),
          by simpa using hc, fun after ↦ by simp [uncons, hb, hb₂, hc]⟩
      · exact Or.inl rfl
    · exact Or.inl rfl
  next hb₂ =>
  split
  · next hb₃ =>
    have hfirst := (Bool.and_eq_true_iff.1 hb₃).1
    split
    · split
      · next c d after hcd =>
        obtain ⟨hc, hd⟩ := Bool.and_eq_true_iff.1 hcd
        exact Or.inr ⟨b, [c, d], rfl, isTail_eq_false_of_le (by decide) (of_decide_eq_true hfirst),
          by simpa using ⟨isTail_of_isSecond hc, hd⟩,
          fun after ↦ by simp [uncons, hb, hb₂, hb₃, hc, hd]⟩
      · exact Or.inl rfl
    · exact Or.inl rfl
  next hb₃ =>
  split
  · next hb₄ =>
    have hfirst := (Bool.and_eq_true_iff.1 hb₄).1
    split
    · split
      · next c d e after hcde =>
        obtain ⟨hcd, he⟩ := Bool.and_eq_true_iff.1 hcde
        obtain ⟨hc, hd⟩ := Bool.and_eq_true_iff.1 hcd
        exact Or.inr ⟨b, [c, d, e], rfl,
          isTail_eq_false_of_le (by decide) (of_decide_eq_true hfirst),
          by simpa using ⟨isTail_of_isSecond hc, hd, he⟩,
          fun after ↦ by simp [uncons, hb, hb₂, hb₃, hb₄, hc, hd, he]⟩
      · exact Or.inl rfl
    · exact Or.inl rfl
  · exact Or.inl rfl

/-- Every glyph of a text that is not stray is well formed. -/
theorem wellFormed_of_mem {text : Bytes} {g : Glyph} (h : g ∈ glyphs text)
    (hstray : g.isStray = false) : g.WellFormed := by
  fun_induction glyphs text with
  | case1 => simp at h
  | case2 b rest ih =>
    rcases List.mem_cons.1 h with rfl | hg
    · rcases uncons_cases b rest with heq | hwf
      · simp [heq, Glyph.isStray, Glyph.stray] at hstray
      · exact hwf
    · exact ih hg

/-- White space is well formed. -/
theorem wellFormed_of_blank {text : Bytes} {g : Glyph} (h : g ∈ glyphs text)
    (hblank : g.blank = true) : g.WellFormed := by
  refine wellFormed_of_mem h ?_
  rw [Glyph.isStray, Bool.and_eq_false_iff]
  refine Or.inl (beq_eq_false_iff_ne.2 fun hchar ↦ ?_)
  rw [Glyph.blank, hchar] at hblank
  exact absurd hblank (by decide)

@[simp]
theorem ofGlyphs_cons (g : Glyph) (gs : List Glyph) :
    ofGlyphs (g :: gs) = g.octets ++ ofGlyphs gs :=
  List.flatMap_cons

@[simp]
theorem ofGlyphs_append (gs gs' : List Glyph) :
    ofGlyphs (gs ++ gs') = ofGlyphs gs ++ ofGlyphs gs' :=
  List.flatMap_append

/-- Well-formed glyphs are read again, in front of anything. -/
theorem glyphs_ofGlyphs_append {gs : List Glyph} (h : ∀ g ∈ gs, g.WellFormed) (rest : Bytes) :
    glyphs (ofGlyphs gs ++ rest) = gs ++ glyphs rest := by
  induction gs with
  | nil => rfl
  | cons g gs ih =>
    obtain ⟨⟨b, tail, hoctets, -, -, hread⟩, hgs⟩ := List.forall_mem_cons.1 h
    rw [ofGlyphs_cons, hoctets, List.append_assoc, List.cons_append, glyphs_cons, hread, ih hgs]
    rfl

/-- **A well-formed glyph does not begin within other ones**, whatever follows them. -/
theorem not_prefix_drop {gs : List Glyph} {g : Glyph} (hgs : ∀ x ∈ gs, x.WellFormed)
    (hg : g.WellFormed) (hmem : g ∉ gs) (rest : Bytes) {i : ℕ} (hi : i < (ofGlyphs gs).length) :
    ¬g.octets <+: (ofGlyphs gs ++ rest).drop i := by
  obtain ⟨first, others, hoctets, hfirst, -, hread⟩ := hg
  induction gs generalizing i with
  | nil => simp [ofGlyphs] at hi
  | cons x gs ih =>
    obtain ⟨⟨b, tail, hx, -, htail, hreadx⟩, hgs⟩ := List.forall_mem_cons.1 hgs
    rw [List.mem_cons, not_or] at hmem
    rw [ofGlyphs_cons, List.append_assoc]
    rcases Nat.lt_or_ge i x.octets.length with hlt | hge
    · rw [hx, List.length_cons] at hlt
      rw [hx, hoctets]
      rintro ⟨after, hafter⟩
      rcases i with - | i
      · -- at the beginning of `x` the two are read in the same way
        rw [List.drop_zero, List.cons_append, List.cons_append, List.cons.injEq] at hafter
        have hsame := hread after
        rw [hafter.1, hafter.2, hreadx] at hsame
        exact hmem.1 (Prod.ext_iff.1 hsame).1.symm
      · -- further on there are only tail octets
        have hlt : i < tail.length := by omega
        rw [List.cons_append, List.cons_append, List.drop_succ_cons,
          List.drop_append_of_le_length (by omega), List.drop_eq_getElem_cons hlt,
          List.cons_append, List.cons.injEq] at hafter
        have htrue := htail _ (List.getElem_mem hlt)
        rw [← hafter.1, hfirst] at htrue
        simp at htrue
    · rw [List.drop_append, List.drop_of_length_le hge, List.nil_append]
      rw [ofGlyphs_cons, List.length_append] at hi
      exact ih hgs hmem.2 (by omega)

/-! ### What trimming takes off -/

/-- What is left once the white space in front is gone is the trimmed text and the white space
behind it. -/
theorem dropWhile_blank_eq (gs : List Glyph) :
    gs.dropWhile Glyph.blank =
      Glyph.trim gs ++ ((gs.dropWhile Glyph.blank).reverse.takeWhile Glyph.blank).reverse := by
  rw [Glyph.trim, ← List.reverse_append, List.takeWhile_append_dropWhile, List.reverse_reverse]

/-- A text is the white space in front, the trimmed text, and the white space behind. -/
theorem exists_append_eq (text : Bytes) :
    ∃ behind, leading text ++ (trim text ++ behind) = text := by
  refine ⟨ofGlyphs (((glyphs text).dropWhile Glyph.blank).reverse.takeWhile Glyph.blank).reverse,
    ?_⟩
  rw [leading, trim, ← ofGlyphs_append, ← dropWhile_blank_eq, ← ofGlyphs_append,
    List.takeWhile_append_dropWhile, octets_glyphs]

theorem trim_prefix_drop (text : Bytes) : trim text <+: text.drop (leading text).length := by
  obtain ⟨behind, heq⟩ := exists_append_eq text
  have hdrop : (leading text ++ (trim text ++ behind)).drop (leading text).length =
      trim text ++ behind := List.drop_left
  rw [heq] at hdrop
  exact ⟨behind, hdrop.symm⟩

/-- The trimmed text begins with the first character that is not white space. -/
theorem octets_prefix_trim {text : Bytes} {g : Glyph} {rest : List Glyph}
    (h : (glyphs text).dropWhile Glyph.blank = g :: rest) :
    g.blank = false ∧ g.octets <+: trim text := by
  have hblank : g.blank = false := by
    have hhead := List.head?_dropWhile_not Glyph.blank (glyphs text)
    simpa only [h, List.head?_cons] using hhead
  refine ⟨hblank, ?_⟩
  have heq := dropWhile_blank_eq (glyphs text)
  rw [trim]
  rcases htrim : Glyph.trim (glyphs text) with - | ⟨first, others⟩
  · rw [htrim, List.nil_append] at heq
    have hmem : g ∈ (glyphs text).dropWhile Glyph.blank := h ▸ List.mem_cons_self
    rw [heq, List.mem_reverse] at hmem
    have := List.mem_takeWhile_imp hmem
    rw [hblank] at this
    cases this
  · rw [htrim, h, List.cons_append, List.cons.injEq] at heq
    rw [ofGlyphs_cons, ← heq.1]
    exact List.prefix_append ..

/-- White space in front of a text reads as itself. -/
theorem glyphs_blanks_append {blanks : Bytes} (h : ∀ g ∈ glyphs blanks, g.blank = true)
    (text : Bytes) : glyphs (blanks ++ text) = glyphs blanks ++ glyphs text := by
  have := glyphs_ofGlyphs_append (fun g hg ↦ wellFormed_of_blank hg (h g hg)) text
  rwa [octets_glyphs] at this

theorem leading_blanks_append {blanks : Bytes} (h : ∀ g ∈ glyphs blanks, g.blank = true)
    (text : Bytes) : leading (blanks ++ text) = blanks ++ leading text := by
  rw [leading, glyphs_blanks_append h, List.takeWhile_append_of_pos h, ofGlyphs_append,
    octets_glyphs, leading]

theorem trim_blanks_append {blanks : Bytes} (h : ∀ g ∈ glyphs blanks, g.blank = true)
    (text : Bytes) : trim (blanks ++ text) = trim text := by
  rw [trim, Glyph.trim, glyphs_blanks_append h, List.dropWhile_append_of_pos h]
  rfl

/-! ### Searching -/

theorem firstIndex?_eq_some_iff {part text : Bytes} (hpart : part ≠ []) {i : ℕ} :
    firstIndex? part text = some i ↔
      part <+: text.drop i ∧ ∀ j < i, ¬part <+: text.drop j := by
  induction text generalizing i with
  | nil => simp [firstIndex?, hpart]
  | cons b rest ih =>
    rw [firstIndex?]
    by_cases h : part <+: b :: rest
    · rw [if_pos (List.isPrefixOf_iff_prefix.2 h), Option.some.injEq]
      constructor
      · rintro rfl
        exact ⟨h, by simp⟩
      · rintro ⟨-, hmin⟩
        rcases i with - | i
        · rfl
        · exact absurd h (hmin 0 (Nat.succ_pos i))
    · rw [if_neg (fun hb ↦ h (List.isPrefixOf_iff_prefix.1 hb)), Option.map_eq_some_iff]
      constructor
      · rintro ⟨j, hj, rfl⟩
        obtain ⟨hat, hmin⟩ := ih.1 hj
        refine ⟨hat, fun k hk ↦ ?_⟩
        rcases k with - | k
        · exact h
        · exact hmin k (by omega)
      · rintro ⟨hat, hmin⟩
        rcases i with - | i
        · exact absurd hat h
        · exact ⟨i, ih.2 ⟨hat, fun k hk ↦ hmin (k + 1) (by omega)⟩, rfl⟩

/-- What occurs in a text is found, at the latest where it is known to occur. -/
theorem exists_firstIndex? {part text : Bytes} (hpart : part ≠ []) {i : ℕ}
    (h : part <+: text.drop i) : ∃ j ≤ i, firstIndex? part text = some j := by
  classical
  have hex : ∃ j, part <+: text.drop j := ⟨i, h⟩
  exact ⟨Nat.find hex, Nat.find_min' hex h,
    (firstIndex?_eq_some_iff hpart).2 ⟨Nat.find_spec hex, fun _ ↦ Nat.find_min hex⟩⟩

end Bytes

/-! ### Places -/

namespace Place

/-- The place that messages give to an offset. Its line is the number of line ends before the
offset, and its column the number of characters behind the last one of these, both counted from
one. -/
def Marks (place : Place) (text : Bytes) (offset : ℕ) : Prop :=
  place.line = (text.take offset).count newline + 1 ∧
    ∃ earlier line, text.take offset = earlier ++ line ∧ newline ∉ line ∧
      (∀ b ∈ earlier.getLast?, b = newline) ∧ place.column = (Bytes.glyphs line).length + 1

theorem atOffset_marks (text : Bytes) (offset : ℕ) :
    (atOffset text offset).Marks text offset := by
  refine ⟨rfl, ((text.take offset).reverse.dropWhile (· != newline)).reverse,
    lastLine (text.take offset), ?_, ?_, ?_, rfl⟩
  · rw [lastLine, ← List.reverse_append, List.takeWhile_append_dropWhile, List.reverse_reverse]
  · intro hmem
    rw [lastLine, List.mem_reverse] at hmem
    simpa using List.mem_takeWhile_imp hmem
  · intro b hb
    rw [List.getLast?_reverse] at hb
    have hhead := List.head?_dropWhile_not (· != newline) (text.take offset).reverse
    rw [Option.mem_def.1 hb] at hhead
    simpa using hhead

end Place

/-! ### Errors -/

/-- An error is reported where its fault is: the span is that of the faulty token, moved by the
white space in front of the source, and the place is that of its first octet. -/
def SyntaxError.Locates (e : SyntaxError) (source : Bytes) (fault : Fault) : Prop :=
  e.span = fault.token.span.shift (Bytes.leading source).length ∧
    e.place.Marks source (fault.token.span.start + (Bytes.leading source).length)

theorem Span.shift_injective (s : Span) {m n : ℕ} (h : s.shift m = s.shift n) : m = n := by
  have := congrArg Span.start h
  simpa [Span.shift] using this

theorem Span.shift_shift (s : Span) (m n : ℕ) : (s.shift m).shift n = s.shift (n + m) := by
  simp only [Span.shift, Span.mk.injEq]
  omega

theorem SyntaxError.locates_ofFault_iff {source : Bytes} {lead : ℕ} {fault : Fault} :
    (ofFault source lead fault).Locates source fault ↔ lead = (Bytes.leading source).length := by
  constructor
  · rintro ⟨hspan, -⟩
    exact fault.token.span.shift_injective hspan
  · rintro rfl
    exact ⟨rfl, Place.atOffset_marks ..⟩

namespace Program

open Bytes

theorem parse_of_fault {source : Bytes} {fault : Fault}
    (h : ofScan (Token.scan (trim source)) = .error fault) :
    parse source = .error (SyntaxError.ofFault source (lead source) fault) := by
  rw [parse, h]

/-- **What was taken off the front is found** if and only if the rest does not occur earlier. -/
theorem lead_eq_iff {source : Bytes} (hne : trim source ≠ []) :
    lead source = (leading source).length ↔
      ∀ i < (leading source).length, ¬trim source <+: source.drop i := by
  obtain ⟨j, hle, hj⟩ := exists_firstIndex? hne (trim_prefix_drop source)
  have hlead : lead source = j := by
    simp [lead, hne, hj]
  obtain ⟨hat, hmin⟩ := (firstIndex?_eq_some_iff hne).1 hj
  rw [hlead]
  constructor
  · rintro rfl
    exact hmin
  · intro hnot
    exact Nat.le_antisymm hle (Nat.not_lt.1 fun hlt ↦ hnot j hlt hat)

/-- The first character behind the white space is not a stray octet. -/
def StartsWellFormed (source : Bytes) : Prop :=
  ∀ g ∈ ((glyphs source).dropWhile Glyph.blank).head?, g.isStray = false

theorem exists_dropWhile_eq {source : Bytes} (h : ∃ g ∈ glyphs source, g.blank = false) :
    ∃ g rest, (glyphs source).dropWhile Glyph.blank = g :: rest := by
  obtain ⟨g, hg, hblank⟩ := h
  rcases hdrop : (glyphs source).dropWhile Glyph.blank with - | ⟨first, rest⟩
  · have := List.dropWhile_eq_nil_iff.1 hdrop g hg
    rw [hblank] at this
    cases this
  · exact ⟨first, rest, rfl⟩

theorem trim_ne_nil {source : Bytes} (h : ∃ g ∈ glyphs source, g.blank = false) :
    trim source ≠ [] := by
  obtain ⟨g, rest, hdrop⟩ := exists_dropWhile_eq h
  obtain ⟨-, behind, htrim⟩ := octets_prefix_trim hdrop
  have hmem : g ∈ glyphs source :=
    (List.dropWhile_suffix _).subset (hdrop ▸ List.mem_cons_self)
  rw [← htrim]
  exact List.append_ne_nil_of_left_ne_nil (octets_ne_nil_of_mem hmem) _

/-- Behind white space, a source that starts with a well-formed character is found. -/
theorem lead_eq {source : Bytes} (h : ∃ g ∈ glyphs source, g.blank = false)
    (hstart : StartsWellFormed source) : lead source = (leading source).length := by
  obtain ⟨g, rest, hdrop⟩ := exists_dropWhile_eq h
  obtain ⟨hblank, hbegins⟩ := octets_prefix_trim hdrop
  have hmem : g ∈ glyphs source :=
    (List.dropWhile_suffix _).subset (hdrop ▸ List.mem_cons_self)
  rw [lead_eq_iff (trim_ne_nil h)]
  intro i hi hocc
  obtain ⟨behind, heq⟩ := exists_append_eq source
  replace hocc : trim source <+: (leading source ++ (trim source ++ behind)).drop i := by
    rwa [heq]
  refine not_prefix_drop (fun x hx ↦ ?_) (wellFormed_of_mem hmem (hstart g (by simp [hdrop]))) ?_
    (trim source ++ behind) hi (hbegins.trans hocc)
  · exact wellFormed_of_blank ((List.takeWhile_prefix _).subset hx) (List.mem_takeWhile_imp hx)
  · intro hin
    have := List.mem_takeWhile_imp hin
    rw [hblank] at this
    cases this

/-- **Errors are reported where they are in the untrimmed source** if and only if the trimmed text
does not occur within the white space before it, which it never does if its first character is well
formed. Then white space put in front moves the error by its length. -/
theorem locates_iff_not_earlier (source : Bytes) (fault : Fault)
    (hchar : ∃ g ∈ glyphs source, g.blank = false)
    (hfault : ofScan (Token.scan (trim source)) = .error fault) :
    ∃ e, parse source = .error e ∧
      (e.Locates source fault ↔ ∀ i < (leading source).length, ¬trim source <+: source.drop i) ∧
      (StartsWellFormed source →
        e.Locates source fault ∧
        ∀ blanks : Bytes, (∀ g ∈ glyphs blanks, g.blank = true) →
          ∃ e', parse (blanks ++ source) = .error e' ∧ e'.Locates (blanks ++ source) fault ∧
            e'.span = e.span.shift blanks.length) := by
  refine ⟨_, parse_of_fault hfault,
    SyntaxError.locates_ofFault_iff.trans (lead_eq_iff (trim_ne_nil hchar)), fun hstart ↦ ?_⟩
  have hlead := lead_eq hchar hstart
  refine ⟨SyntaxError.locates_ofFault_iff.2 hlead, fun blanks hblanks ↦ ?_⟩
  have hdrop : (glyphs (blanks ++ source)).dropWhile Glyph.blank =
      (glyphs source).dropWhile Glyph.blank := by
    rw [glyphs_blanks_append hblanks, List.dropWhile_append_of_pos hblanks]
  have hlead' : lead (blanks ++ source) = (leading (blanks ++ source)).length := by
    refine lead_eq ?_ ?_
    · obtain ⟨g, hg, hblank⟩ := hchar
      refine ⟨g, ?_, hblank⟩
      rw [glyphs_blanks_append hblanks]
      exact List.mem_append_right _ hg
    · rwa [StartsWellFormed, hdrop]
  rw [← trim_blanks_append hblanks] at hfault
  refine ⟨_, parse_of_fault hfault, SyntaxError.locates_ofFault_iff.2 hlead', ?_⟩
  rw [leading_blanks_append hblanks, List.length_append, ← hlead] at hlead'
  simp only [SyntaxError.ofFault, hlead', Span.shift_shift]

/-- A blank, a line end and an ideographic space before `s)`, whose parenthesis does not fit. -/
def indented : Bytes := [0x20, 0x0A, 0xE3, 0x80, 0x80, 0x73, 0x29]

theorem indented_located :
    (∃ g ∈ glyphs indented, g.blank = false) ∧ StartsWellFormed indented ∧
      ∃ fault, ofScan (Token.scan (trim indented)) = .error fault ∧ fault.token.span = ⟨1, 2⟩ ∧
        ∃ e, parse indented = .error e ∧ e.Locates indented fault ∧ e.span = ⟨6, 7⟩ ∧
          e.place = ⟨2, 3⟩ := by
  have hglyphs : glyphs indented =
      [⟨' ', [0x20]⟩, ⟨'\n', [0x0A]⟩, ⟨'\u3000', [0xE3, 0x80, 0x80]⟩, ⟨'s', [0x73]⟩,
        ⟨')', [0x29]⟩] := by decide +kernel
  have hchar : ∃ g ∈ glyphs indented, g.blank = false := by
    rw [hglyphs]
    exact ⟨⟨'s', [0x73]⟩, by simp, rfl⟩
  have hstart : StartsWellFormed indented := by
    rw [StartsWellFormed, hglyphs]
    decide
  let paren : Token := ⟨.rightParen, [0x29], ⟨1, 2⟩, ⟨1, 2⟩⟩
  have hfault : ofScan (Token.scan (trim indented)) =
      .error ⟨paren, .unexpected .rightParen [0x29] (.token .finish)⟩ := by decide +kernel
  have hparse : parse indented =
      .error ⟨⟨2, 3⟩, ⟨6, 7⟩, .unexpected .rightParen [0x29] (.token .finish)⟩ := by decide +kernel
  obtain ⟨e, he, -, hmeets⟩ := locates_iff_not_earlier indented _ hchar hfault
  cases hparse.symm.trans he
  exact ⟨hchar, hstart, _, hfault, rfl, _, hparse, (hmeets hstart).1, rfl, rfl⟩

/-- A next-line character and a line end, and then the last octet of a next-line character alone. -/
def hidden : Bytes := [0xC2, 0x85, 0x0A, 0x85]

/-- **A stray octet is reported inside of the white space** that is spelled with it. -/
theorem hidden_misplaced :
    (∃ g ∈ glyphs hidden, g.blank = false) ∧ (leading hidden).length = 3 ∧
      ∃ fault, ofScan (Token.scan (trim hidden)) = .error fault ∧ fault.token.span = ⟨0, 1⟩ ∧
        ∃ e, parse hidden = .error e ∧ ¬e.Locates hidden fault ∧ e.span = ⟨1, 2⟩ ∧
          e.place = ⟨1, 2⟩ := by
  have hglyphs : glyphs hidden =
      [⟨'\u0085', [0xC2, 0x85]⟩, ⟨'\n', [0x0A]⟩, ⟨'\uFFFD', [0x85]⟩] := by decide +kernel
  have hlength : (leading hidden).length = 3 := by decide +kernel
  let stray : Token := ⟨.illegal, [0xEF, 0xBF, 0xBD], ⟨0, 1⟩, ⟨1, 1⟩⟩
  have hfault : ofScan (Token.scan (trim hidden)) =
      .error ⟨stray, .illegalCharacter [0xEF, 0xBF, 0xBD]⟩ := by decide +kernel
  have hparse : parse hidden =
      .error ⟨⟨1, 2⟩, ⟨1, 2⟩, .illegalCharacter [0xEF, 0xBF, 0xBD]⟩ := by decide +kernel
  refine ⟨?_, hlength, _, hfault, rfl, _, hparse, ?_, rfl, rfl⟩
  · rw [hglyphs]
    exact ⟨⟨'\uFFFD', [0x85]⟩, by simp, rfl⟩
  · rintro ⟨hspan, -⟩
    rw [hlength] at hspan
    exact absurd hspan (by decide)

end Program

end RobotGolf
