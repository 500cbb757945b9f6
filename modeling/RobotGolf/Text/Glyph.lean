/-!
# Octets and the characters they spell

Texts reach this library as octets that need not be well-formed UTF-8. A text is therefore read as
a list of glyphs: a well-formed UTF-8 sequence is one glyph with its character, and an octet that
starts no such sequence is a glyph of its own which reads as the replacement character U+FFFD.

Nothing is lost on the way: the octets of the glyphs, put together again, are the text
(`octets_glyphs`), and every glyph has at least one octet (`octets_ne_nil_of_mem`).
-/

namespace RobotGolf

/-- A text as it is stored: octets, well-formed UTF-8 or not. -/
abbrev Bytes := List UInt8

/-- One character of a text, together with the octets that spell it. -/
structure Glyph where
  char : Char
  octets : Bytes
  deriving DecidableEq, Repr

namespace Glyph

/-- The character that stands for an octet which starts no well-formed sequence. -/
def replacement : Char := '\uFFFD'

/-- An octet that starts no well-formed sequence. -/
def stray (b : UInt8) : Glyph := ⟨replacement, [b]⟩

/-- Such an octet is told from a spelled-out replacement character by its length. -/
def isStray (g : Glyph) : Bool := g.char == replacement && g.octets.length == 1

/-- Number of octets of a glyph. -/
def width (g : Glyph) : Nat := g.octets.length

end Glyph

namespace Bytes

/-! ### Reading glyphs -/

/-- Octets that continue a multi-octet sequence. -/
def isTail (b : UInt8) : Bool := 0x80 ≤ b && b ≤ 0xBF

/-- The second octet of a longer sequence is a tail octet, of which some first octets admit only a
part: no overlong spelling, no surrogate and nothing above U+10FFFF. -/
def isSecond (first b : UInt8) : Bool :=
  isTail b && (first != 0xE0 || 0xA0 ≤ b) && (first != 0xED || b ≤ 0x9F)
    && (first != 0xF0 || 0x90 ≤ b) && (first != 0xF4 || b ≤ 0x8F)

/-- The payload of a tail octet. -/
def tailBits (b : UInt8) : Nat := b.toNat % 64

/-- The glyph at the head of `b :: rest`, and the octets after it. -/
def uncons (b : UInt8) (rest : Bytes) : Glyph × Bytes :=
  if b < 0x80 then (⟨Char.ofNat b.toNat, [b]⟩, rest)
  else if 0xC2 ≤ b && b ≤ 0xDF then
    match rest with
    | c :: after =>
      if isTail c then (⟨Char.ofNat (b.toNat % 32 * 64 + tailBits c), [b, c]⟩, after)
      else (Glyph.stray b, rest)
    | _ => (Glyph.stray b, rest)
  else if 0xE0 ≤ b && b ≤ 0xEF then
    match rest with
    | c :: d :: after =>
      if isSecond b c && isTail d then
        (⟨Char.ofNat ((b.toNat % 16 * 64 + tailBits c) * 64 + tailBits d), [b, c, d]⟩, after)
      else (Glyph.stray b, rest)
    | _ => (Glyph.stray b, rest)
  else if 0xF0 ≤ b && b ≤ 0xF4 then
    match rest with
    | c :: d :: e :: after =>
      if isSecond b c && isTail d && isTail e then
        (⟨Char.ofNat (((b.toNat % 8 * 64 + tailBits c) * 64 + tailBits d) * 64 + tailBits e),
          [b, c, d, e]⟩, after)
      else (Glyph.stray b, rest)
    | _ => (Glyph.stray b, rest)
  else (Glyph.stray b, rest)

/-- Reading a glyph splits the text behind it. -/
theorem octets_append_uncons (b : UInt8) (rest : Bytes) :
    (uncons b rest).1.octets ++ (uncons b rest).2 = b :: rest := by
  unfold uncons
  (repeat' split) <;> rfl

/-- What follows a glyph is shorter than the text. -/
theorem length_uncons_lt (b : UInt8) (rest : Bytes) :
    (uncons b rest).2.length < (b :: rest).length := by
  unfold uncons
  (repeat' split) <;> simp <;> omega

/-- The glyphs of a text. -/
def glyphs : Bytes → List Glyph
  | [] => []
  | b :: rest => (uncons b rest).1 :: glyphs (uncons b rest).2
termination_by text => text.length
decreasing_by exact length_uncons_lt b rest

/-- The octets of a list of glyphs. -/
def ofGlyphs (gs : List Glyph) : Bytes := gs.flatMap Glyph.octets

/-- The characters of a text, stray octets being read as replacement characters. -/
def chars (text : Bytes) : List Char := (glyphs text).map Glyph.char

/-- A text as a string, stray octets being read as replacement characters. -/
def toText (text : Bytes) : String := String.ofList (chars text)

/-! ### Writing characters -/

/-- The UTF-8 spelling of a list of characters. -/
def ofChars (cs : List Char) : Bytes := cs.flatMap String.utf8EncodeChar

/-- The UTF-8 spelling of a string. -/
def ofString (s : String) : Bytes := ofChars s.toList

/-! ### Small facts -/

theorem glyphs_nil : glyphs [] = [] := by
  rw [glyphs]

theorem glyphs_cons (b : UInt8) (rest : Bytes) :
    glyphs (b :: rest) = (uncons b rest).1 :: glyphs (uncons b rest).2 := by
  rw [glyphs]

/-- Putting the glyphs of a text together again gives the text. -/
theorem octets_glyphs (text : Bytes) : ofGlyphs (glyphs text) = text := by
  fun_induction glyphs text with
  | case1 => rfl
  | case2 b rest ih =>
    have h := octets_append_uncons b rest
    simp only [ofGlyphs, List.flatMap_cons] at ih ⊢
    rw [ih, h]

/-- A glyph read at the head of a text has an octet. -/
theorem octets_uncons_ne_nil (b : UInt8) (rest : Bytes) : (uncons b rest).1.octets ≠ [] := by
  intro h
  have happ := octets_append_uncons b rest
  have hlt := length_uncons_lt b rest
  rw [h, List.nil_append] at happ
  rw [happ] at hlt
  exact Nat.lt_irrefl _ hlt

/-- Every glyph of a text has an octet. -/
theorem octets_ne_nil_of_mem {text : Bytes} {g : Glyph} (h : g ∈ glyphs text) :
    g.octets ≠ [] := by
  fun_induction glyphs text with
  | case1 => simp at h
  | case2 b rest ih =>
    rcases List.mem_cons.1 h with rfl | hg
    · exact octets_uncons_ne_nil b rest
    · exact ih hg

/-- Different strings are spelled differently. -/
theorem ofString_inj {s t : String} : ofString s = ofString t ↔ s = t := by
  refine ⟨fun h ↦ ?_, congrArg ofString⟩
  have hencoded : s.toList.utf8Encode = t.toList.utf8Encode := congrArg List.toByteArray h
  rwa [String.utf8Encode_toList, String.utf8Encode_toList, String.toByteArray_inj] at hencoded

theorem ofString_eq_nil_iff {s : String} : ofString s = [] ↔ s = "" :=
  ofString_inj (t := "")

/-- An octet below 0x80 is a character of its own. -/
theorem uncons_of_lt {b : UInt8} (h : b < 0x80) (rest : Bytes) :
    uncons b rest = (⟨Char.ofNat b.toNat, [b]⟩, rest) := by
  simp [uncons, h]

end Bytes

end RobotGolf
