import RobotGolf.Proofs.Legible
/-!
# Plain characters at the head of a text

Formats that are made of ASCII characters only are read from glyphs and written as octets. To say
what such a reader accepts, it is enough to know which characters the glyphs begin with
(`Glyph.Begins`), provided that this can be seen from the octets. For ASCII characters it can
(`Glyph.begins_glyphs_iff`): an octet below 128 is a glyph of its own, and any other glyph, whether
it is spelled with several octets or is a stray octet, reads as a character that is not ASCII
(`Bytes.le_charToNat_uncons`).
-/

namespace RobotGolf

namespace Bytes

theorem isTail_iff {b : UInt8} : isTail b = true ↔ 128 ≤ b.toNat ∧ b.toNat ≤ 191 := by
  simp [isTail, UInt8.le_iff_toNat_le]

/-- Of the second octets, those that belong to a first octet with the least or the greatest payload
are bounded. -/
theorem bounds_of_isSecond {first b : UInt8} (h : isSecond first b = true) :
    (128 ≤ b.toNat ∧ b.toNat ≤ 191) ∧ (first.toNat = 0xE0 → 0xA0 ≤ b.toNat) ∧
      (first.toNat = 0xED → b.toNat ≤ 0x9F) ∧ (first.toNat = 0xF0 → 0x90 ≤ b.toNat) ∧
      (first.toNat = 0xF4 → b.toNat ≤ 0x8F) := by
  simp only [isSecond, Bool.and_eq_true, isTail_iff, Bool.or_eq_true, bne_iff_ne, ne_eq,
    decide_eq_true_eq, UInt8.le_iff_toNat_le, ← UInt8.toNat_inj] at h
  obtain ⟨⟨⟨⟨htail, he0⟩, hed⟩, hf0⟩, hf4⟩ := h
  exact ⟨htail, he0.resolve_left ∘ not_not_intro, hed.resolve_left ∘ not_not_intro,
    hf0.resolve_left ∘ not_not_intro, hf4.resolve_left ∘ not_not_intro⟩

theorem le_charToNat_ofNat {n : ℕ} (hle : 128 ≤ n) (hvalid : n.isValidChar) :
    128 ≤ (Char.ofNat n).toNat := by
  rwa [charToNat_ofNat hvalid]

/-! Overlong spellings and surrogates are not well formed, so what sequences of two, three and four
octets spell are characters, and none of them is ASCII. -/

theorem le_charToNat_two {b c : UInt8} (hb : (0xC2 ≤ b && b ≤ 0xDF) = true)
    (hc : isTail c = true) : 128 ≤ (Char.ofNat (b.toNat % 32 * 64 + tailBits c)).toNat := by
  simp only [Bool.and_eq_true, decide_eq_true_eq, UInt8.le_iff_toNat_le, UInt8.reduceToNat] at hb
  rw [isTail_iff] at hc
  unfold tailBits
  exact le_charToNat_ofNat (by omega) (Or.inl (by omega))

theorem le_charToNat_three {b c d : UInt8} (hb : (0xE0 ≤ b && b ≤ 0xEF) = true)
    (hcd : (isSecond b c && isTail d) = true) :
    128 ≤ (Char.ofNat ((b.toNat % 16 * 64 + tailBits c) * 64 + tailBits d)).toNat := by
  simp only [Bool.and_eq_true, decide_eq_true_eq, UInt8.le_iff_toNat_le, UInt8.reduceToNat] at hb
  rw [Bool.and_eq_true, isTail_iff] at hcd
  obtain ⟨hc, he0, hed, -, -⟩ := bounds_of_isSecond hcd.1
  unfold tailBits
  refine le_charToNat_ofNat (by omega) ?_
  unfold Nat.isValidChar
  omega

theorem le_charToNat_four {b c d e : UInt8} (hb : (0xF0 ≤ b && b ≤ 0xF4) = true)
    (hcde : (isSecond b c && isTail d && isTail e) = true) :
    128 ≤ (Char.ofNat
      (((b.toNat % 8 * 64 + tailBits c) * 64 + tailBits d) * 64 + tailBits e)).toNat := by
  simp only [Bool.and_eq_true, decide_eq_true_eq, UInt8.le_iff_toNat_le, UInt8.reduceToNat] at hb
  rw [Bool.and_eq_true, Bool.and_eq_true, isTail_iff, isTail_iff] at hcde
  obtain ⟨hc, -, -, hf0, hf4⟩ := bounds_of_isSecond hcde.1.1
  unfold tailBits
  refine le_charToNat_ofNat (by omega) ?_
  unfold Nat.isValidChar
  omega

/-- **Only octets below 128 read as ASCII characters.** -/
theorem le_charToNat_uncons {b : UInt8} (h : ¬ b < 0x80) (rest : Bytes) :
    128 ≤ (uncons b rest).1.char.toNat := by
  have hstray : 128 ≤ (Glyph.stray b).char.toNat := by
    show 128 ≤ Glyph.replacement.toNat
    decide
  unfold uncons
  rw [if_neg h]
  split
  · rename_i hb
    split
    · split
      · rename_i hc
        exact le_charToNat_two hb hc
      · exact hstray
    · exact hstray
  split
  · rename_i hb
    split
    · split
      · rename_i hcd
        exact le_charToNat_three hb hcd
      · exact hstray
    · exact hstray
  split
  · rename_i hb
    split
    · split
      · rename_i hcde
        exact le_charToNat_four hb hcde
      · exact hstray
    · exact hstray
  · exact hstray

theorem ofChars_cons_ascii {c : Char} (h : c.toNat ≤ 127) (cs : List Char) :
    ofChars (c :: cs) = UInt8.ofNat c.toNat :: ofChars cs := by
  rw [ofChars, List.flatMap_cons, utf8EncodeChar_ascii h]
  rfl

/-- ASCII characters are spelled with one octet each. -/
theorem ofChars_eq_map {cs : List Char} (h : ∀ c ∈ cs, c.toNat ≤ 127) :
    ofChars cs = cs.map fun c ↦ UInt8.ofNat c.toNat := by
  induction cs with
  | nil => rfl
  | cons c cs ih =>
    obtain ⟨hc, hcs⟩ := List.forall_mem_cons.1 h
    rw [ofChars_cons_ascii hc, ih hcs, List.map_cons]

theorem ofChars_append (cs cs' : List Char) : ofChars (cs ++ cs') = ofChars cs ++ ofChars cs' :=
  List.flatMap_append

end Bytes

namespace Glyph

/-- The glyphs begin with some characters, and `rest` follows these. -/
def Begins (glyphs : List Glyph) (cs : List Char) (rest : List Glyph) : Prop :=
  ∃ gs, gs.map Glyph.char = cs ∧ glyphs = gs ++ rest

variable {glyphs rest : List Glyph} {cs cs' : List Char} {c : Char}

theorem begins_nil : Begins glyphs [] rest ↔ glyphs = rest := by
  simp [Begins]

theorem begins_cons : Begins glyphs (c :: cs) rest ↔
    ∃ g behind, g.char = c ∧ glyphs = g :: behind ∧ Begins behind cs rest := by
  constructor
  · rintro ⟨_ | ⟨g, gs⟩, hcs, rfl⟩
    · cases hcs
    · obtain ⟨hc, hcs⟩ := List.cons.inj hcs
      exact ⟨g, gs ++ rest, hc, rfl, gs, hcs, rfl⟩
  · rintro ⟨g, _, rfl, rfl, gs, rfl, rfl⟩
    exact ⟨g :: gs, rfl, rfl⟩

theorem begins_append : Begins glyphs (cs ++ cs') rest ↔
    ∃ behind, Begins glyphs cs behind ∧ Begins behind cs' rest := by
  constructor
  · rintro ⟨gs, hgs, rfl⟩
    obtain ⟨front, back, rfl, rfl, rfl⟩ := List.map_eq_append_iff.1 hgs
    exact ⟨back ++ rest, ⟨front, rfl, List.append_assoc ..⟩, back, rfl, rfl⟩
  · rintro ⟨_, ⟨front, rfl, rfl⟩, back, rfl, rfl⟩
    exact ⟨front ++ back, List.map_append, (List.append_assoc ..).symm⟩

/-- **ASCII characters are told from their octets**: a text reads as some of them and more if and
only if it begins with their octets. -/
theorem begins_glyphs_iff (h : ∀ c ∈ cs, c.toNat ≤ 127) {text : Bytes} :
    Begins (Bytes.glyphs text) cs rest ↔
      ∃ behind, text = Bytes.ofChars cs ++ behind ∧ Bytes.glyphs behind = rest := by
  induction cs generalizing text with
  | nil => simp [begins_nil, Bytes.ofChars]
  | cons c cs ih =>
    obtain ⟨hc, hcs⟩ := List.forall_mem_cons.1 h
    have hbelow : UInt8.ofNat c.toNat < 0x80 := by
      rw [UInt8.lt_iff_toNat_lt, toNat_ofNat_ascii hc]
      exact Nat.lt_succ_of_le hc
    rw [begins_cons, Bytes.ofChars_cons_ascii hc]
    constructor
    · rintro ⟨g, behind, rfl, hglyphs, hbegins⟩
      rcases text with - | ⟨b, text⟩
      · simp [Bytes.glyphs_nil] at hglyphs
      rw [Bytes.glyphs_cons, List.cons.injEq] at hglyphs
      obtain ⟨rfl, rfl⟩ := hglyphs
      by_cases hb : b < 0x80
      · rw [Bytes.uncons_of_lt hb] at hbegins ⊢
        obtain ⟨tail, rfl, hrest⟩ := (ih hcs).1 hbegins
        refine ⟨tail, ?_, hrest⟩
        have hb : b.toNat ≤ 127 := Nat.le_of_lt_succ (UInt8.lt_iff_toNat_lt.1 hb)
        rw [charToNat_ofNat_ascii hb, UInt8.ofNat_toNat]
        rfl
      · exact absurd (Bytes.le_charToNat_uncons hb text) (by omega)
    · rintro ⟨tail, rfl, hrest⟩
      rw [List.cons_append, Bytes.glyphs_cons, Bytes.uncons_of_lt hbelow, toNat_ofNat_ascii hc]
      exact ⟨_, _, Char.ofNat_toNat c, rfl, (ih hcs).2 ⟨tail, rfl, hrest⟩⟩

end Glyph

end RobotGolf
