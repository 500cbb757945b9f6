import Mathlib.Data.List.Chain
import RobotGolf.Token
/-!
# What a scan finds

A scan cuts a text into lexemes, and each of them is a text of the kind that it is given: a number
is a run of digits, and everything else is a single octet of its class. `Token.Spells` says so
without mention of a scan, and the two main results go in the two directions:

* `spells_of_mem_scan`: every token of a scan is spelled by a text of its kind;
* `scan_spelled`: texts of their kinds, put together without gaps, are cut at the same places again
  and given the same kinds. Only digits could run into each other, so the one proviso is that no
  number follows another one (`Token.Apart`).

Neither of them looks at spans or places.
-/

namespace RobotGolf.Token

/-! ### Classes of octets -/

theorem isDigit_iff {b : UInt8} : isDigit b = true ↔ 48 ≤ b.toNat ∧ b.toNat ≤ 57 := by
  simp [isDigit, UInt8.le_iff_toNat_le]

theorem isLower_iff {b : UInt8} : isLower b = true ↔ 97 ≤ b.toNat ∧ b.toNat ≤ 122 := by
  simp [isLower, UInt8.le_iff_toNat_le]

theorem isUpper_iff {b : UInt8} : isUpper b = true ↔ 65 ≤ b.toNat ∧ b.toNat ≤ 90 := by
  simp [isUpper, UInt8.le_iff_toNat_le]

theorem isCommand_iff {b : UInt8} :
    isCommand b = true ↔ b.toNat = 115 ∨ b.toNat = 108 ∨ b.toNat = 114 := by
  simp [isCommand, ← UInt8.toNat_inj, or_assoc]

/-- The octet of a punctuation mark; the newline counts as one. -/
def mark? : TokenKind → Option UInt8
  | .newline => some 10
  | .leftParen => some 40
  | .rightParen => some 41
  | .comma => some 44
  | .colon => some 58
  | .plus => some 43
  | .minus => some 45
  | _ => none

/-- What an octet is, told from the kind of token that it starts. -/
theorem classify_cases {b : UInt8} {kind : TokenKind} (h : classify b = some kind) :
    (kind = .command ∧ isCommand b = true) ∨
    (kind = .procedure ∧ isLower b = true ∧ isCommand b = false) ∨
    (kind = .parameter ∧ isUpper b = true) ∨ (kind = .number ∧ isDigit b = true) ∨
    mark? kind = some b := by
  rw [classify] at h
  rcases ite_eq_iff.1 h with ⟨hcommand, hk⟩ | ⟨hcommand, h⟩
  · exact Or.inl ⟨(Option.some.inj hk).symm, hcommand⟩
  rcases ite_eq_iff.1 h with ⟨hlower, hk⟩ | ⟨-, h⟩
  · exact Or.inr (Or.inl ⟨(Option.some.inj hk).symm, hlower, Bool.eq_false_iff.2 hcommand⟩)
  rcases ite_eq_iff.1 h with ⟨hupper, hk⟩ | ⟨-, h⟩
  · exact Or.inr (Or.inr (Or.inl ⟨(Option.some.inj hk).symm, hupper⟩))
  rcases ite_eq_iff.1 h with ⟨hdigit, hk⟩ | ⟨-, h⟩
  · exact Or.inr (Or.inr (Or.inr (Or.inl ⟨(Option.some.inj hk).symm, hdigit⟩)))
  -- The other seven branches compare with a single octet.
  refine Or.inr (Or.inr (Or.inr (Or.inr ?_)))
  iterate 7
    rcases ite_eq_iff.1 h with ⟨hb, hk⟩ | ⟨-, h⟩
    · rw [← Option.some.inj hk, eq_of_beq hb]
      rfl
  cases h

theorem classify_of_mark? {b : UInt8} {kind : TokenKind} (h : mark? kind = some b) :
    classify b = some kind := by
  cases kind <;> simp only [mark?, reduceCtorEq, Option.some.injEq] at h <;> subst h <;> rfl

theorem classify_eq_command_iff {b : UInt8} : classify b = some .command ↔ isCommand b = true := by
  constructor
  · intro h
    simpa [mark?] using classify_cases h
  · intro h
    rw [classify, if_pos h]

theorem classify_eq_procedure_iff {b : UInt8} :
    classify b = some .procedure ↔ isLower b = true ∧ isCommand b = false := by
  constructor
  · intro h
    simpa [mark?] using classify_cases h
  · rintro ⟨hlower, hcommand⟩
    rw [classify, if_neg (Bool.eq_false_iff.1 hcommand), if_pos hlower]

theorem classify_eq_parameter_iff {b : UInt8} :
    classify b = some .parameter ↔ isUpper b = true := by
  constructor
  · intro h
    simpa [mark?] using classify_cases h
  · intro h
    have hrange := isUpper_iff.1 h
    have hcommand : ¬isCommand b = true := by rw [isCommand_iff]; omega
    have hlower : ¬isLower b = true := by rw [isLower_iff]; omega
    rw [classify, if_neg hcommand, if_neg hlower, if_pos h]

theorem classify_eq_number_iff {b : UInt8} : classify b = some .number ↔ isDigit b = true := by
  constructor
  · intro h
    simpa [mark?] using classify_cases h
  · intro h
    have hrange := isDigit_iff.1 h
    have hcommand : ¬isCommand b = true := by rw [isCommand_iff]; omega
    have hlower : ¬isLower b = true := by rw [isLower_iff]; omega
    have hupper : ¬isUpper b = true := by rw [isUpper_iff]; omega
    rw [classify, if_neg hcommand, if_neg hlower, if_neg hupper, if_pos h]

theorem eq_number_of_isDigit {b : UInt8} {kind : TokenKind} (h : classify b = some kind)
    (hdigit : isDigit b = true) : kind = .number := by
  rw [classify_eq_number_iff.2 hdigit] at h
  exact (Option.some.inj h).symm

/-- The two kinds that end a scan are found nowhere in a text. -/
theorem classify_ne_last (b : UInt8) :
    classify b ≠ some .finish ∧ classify b ≠ some .illegal := by
  constructor <;>
    · intro h
      simpa [mark?] using classify_cases h

/-! ### The texts of a kind -/

/-- The texts of a kind: a single octet of its class, which in a number more digits may follow. -/
def Spells (kind : TokenKind) (lexeme : Bytes) : Prop :=
  ∃ b tail, lexeme = b :: tail ∧ classify b = some kind ∧
    ∀ c ∈ tail, kind = .number ∧ isDigit c = true

variable {kind : TokenKind} {lexeme : Bytes}

theorem Spells.ne_last (h : Spells kind lexeme) : kind ≠ .finish ∧ kind ≠ .illegal := by
  obtain ⟨b, -, -, hb, -⟩ := h
  constructor
  · rintro rfl
    exact (classify_ne_last b).1 hb
  · rintro rfl
    exact (classify_ne_last b).2 hb

/-- Every octet of a lexeme is of the class of its kind. -/
theorem Spells.classify_of_mem (h : Spells kind lexeme) :
    lexeme ≠ [] ∧ ∀ b ∈ lexeme, classify b = some kind := by
  obtain ⟨b, tail, rfl, hb, htail⟩ := h
  refine ⟨List.cons_ne_nil _ _, fun c hc ↦ ?_⟩
  rcases List.mem_cons.1 hc with rfl | hc
  · exact hb
  · obtain ⟨rfl, hdigit⟩ := htail c hc
    exact classify_eq_number_iff.2 hdigit

/-- Everything but a number is a single octet. -/
theorem Spells.eq_singleton (h : Spells kind lexeme) (hkind : kind ≠ .number) :
    ∃ b, lexeme = [b] ∧ classify b = some kind := by
  obtain ⟨b, tail, rfl, hb, htail⟩ := h
  rcases tail with - | ⟨c, tail⟩
  · exact ⟨b, rfl, hb⟩
  · exact absurd (htail c (List.mem_cons_self ..)).1 hkind

/-- A number is a run of digits. -/
theorem spells_number_iff :
    Spells .number lexeme ↔ lexeme ≠ [] ∧ ∀ b ∈ lexeme, isDigit b = true := by
  constructor
  · intro h
    obtain ⟨hne, hall⟩ := h.classify_of_mem
    exact ⟨hne, fun b hb ↦ classify_eq_number_iff.1 (hall b hb)⟩
  · rintro ⟨hne, hdigits⟩
    rcases lexeme with - | ⟨b, tail⟩
    · exact absurd rfl hne
    · exact ⟨b, tail, rfl, classify_eq_number_iff.2 (hdigits b (List.mem_cons_self ..)),
        fun c hc ↦ ⟨rfl, hdigits c (List.mem_cons_of_mem _ hc)⟩⟩

/-- What is cut off at the head of a text is spelled as its kind. -/
theorem spells_cut {b : UInt8} (hb : classify b = some kind) (rest : Bytes) :
    Spells kind (cut b rest).1 := by
  unfold cut
  split
  · next hdigit =>
    exact ⟨b, _, rfl, hb, fun c hc ↦
      ⟨eq_number_of_isDigit hb hdigit, List.all_eq_true.1 List.all_takeWhile c hc⟩⟩
  · exact ⟨b, [], rfl, hb, by simp⟩

/-- A lexeme is cut off where it ends, if no digit follows a number. -/
theorem cut_append_of_spells {b : UInt8} {tail after : Bytes} (hb : classify b = some kind)
    (htail : ∀ c ∈ tail, kind = .number ∧ isDigit c = true)
    (hafter : kind = .number → ∀ c ∈ after.head?, isDigit c = false) :
    cut b (tail ++ after) = (b :: tail, after) := by
  by_cases hkind : kind = .number
  · subst hkind
    have hdigits : ∀ c ∈ tail, isDigit c = true := fun c hc ↦ (htail c hc).2
    have hstop : after.takeWhile isDigit = [] ∧ after.dropWhile isDigit = after := by
      rcases after with - | ⟨c, after⟩
      · exact ⟨rfl, rfl⟩
      · have hc : isDigit c = false := hafter rfl c rfl
        simp [hc]
    rw [cut, if_pos (classify_eq_number_iff.1 hb), List.takeWhile_append_of_pos hdigits,
      List.dropWhile_append_of_pos hdigits, hstop.1, hstop.2, List.append_nil]
  · have hnil : tail = [] := by
      rcases tail with - | ⟨c, tail⟩
      · rfl
      · exact absurd (htail c (List.mem_cons_self ..)).1 hkind
    have hdigit : ¬isDigit b = true := fun h ↦ hkind (eq_number_of_isDigit hb h)
    rw [hnil, cut, if_neg hdigit, List.nil_append]

/-! ### Scanning -/

theorem spells_of_mem_scanFrom {finish t : Token} {offset : Nat} {before : Place} {text : Bytes}
    (h : t ∈ (scanFrom finish offset before text).1) : Spells t.kind t.lexeme := by
  fun_induction scanFrom finish offset before text with
  | case1 => simp at h
  | case2 => simp at h
  | case3 offset before b rest kind hkind lexeme token behind ih =>
    rcases List.mem_cons.1 h with rfl | h
    · exact spells_cut hkind rest
    · exact ih h

/-- **Every token of a scan is spelled as its kind.** -/
theorem spells_of_mem_scan {t : Token} {text : Bytes} (h : t ∈ (scan text).tokens) :
    Spells t.kind t.lexeme :=
  spells_of_mem_scanFrom h

/-- A token without its place in the text. -/
def shape (t : Token) : TokenKind × Bytes := (t.kind, t.lexeme)

/-- Two lexemes that do not run into each other: at most one of them is a number. -/
def Apart (x y : TokenKind × Bytes) : Prop := x.1 = .number → y.1 ≠ .number

theorem scanFrom_spelled (finish : Token) (shapes : List (TokenKind × Bytes))
    (hspells : ∀ x ∈ shapes, Spells x.1 x.2) (hapart : shapes.IsChain Apart) (offset : Nat)
    (before : Place) :
    (scanFrom finish offset before (shapes.flatMap Prod.snd)).1.map shape = shapes ∧
      (scanFrom finish offset before (shapes.flatMap Prod.snd)).2 = finish := by
  induction shapes generalizing offset before with
  | nil => exact ⟨by rw [List.flatMap_nil, scanFrom]; rfl, by rw [List.flatMap_nil, scanFrom]⟩
  | cons x shapes ih =>
    obtain ⟨kind, lexeme⟩ := x
    obtain ⟨b, tail, hlexeme, hb, htail⟩ := hspells _ (List.mem_cons_self ..)
    simp only at hlexeme hb htail
    subst hlexeme
    have hspells' : ∀ x ∈ shapes, Spells x.1 x.2 :=
      fun x hx ↦ hspells x (List.mem_cons_of_mem _ hx)
    -- The octet behind a number opens a lexeme of another kind, so it is no digit.
    have hafter : kind = .number → ∀ c ∈ (shapes.flatMap Prod.snd).head?, isDigit c = false := by
      intro hkind c hc
      rcases shapes with - | ⟨y, shapes⟩
      · simp at hc
      · obtain ⟨d, more, hy, hd, -⟩ := hspells' y (List.mem_cons_self ..)
        have hne : y.1 ≠ .number := (List.isChain_cons_cons.1 hapart).1 hkind
        have hcd : d = c := by simpa [hy] using hc
        rw [← hcd, Bool.eq_false_iff]
        exact fun hdigit ↦ hne (eq_number_of_isDigit hd hdigit)
    have hcut := cut_append_of_spells hb htail hafter
    have htext : ((kind, b :: tail) :: shapes).flatMap Prod.snd =
        b :: (tail ++ shapes.flatMap Prod.snd) := by simp
    rw [htext, scanFrom]
    simp only [hb, hcut, List.map_cons]
    obtain ⟨hmap, hlast⟩ := ih hspells' hapart.tail (offset + (b :: tail).length)
      ((b :: tail).foldl Place.passOctet before)
    exact ⟨by rw [hmap]; rfl, hlast⟩

/-- **Texts of their kinds, put together, are cut apart again**, if no number follows another. -/
theorem scan_spelled (shapes : List (TokenKind × Bytes)) (hspells : ∀ x ∈ shapes, Spells x.1 x.2)
    (hapart : shapes.IsChain Apart) :
    (scan (shapes.flatMap Prod.snd)).tokens.map shape = shapes ∧
      (scan (shapes.flatMap Prod.snd)).last.kind = .finish := by
  obtain ⟨hmap, hlast⟩ := scanFrom_spelled (finish (shapes.flatMap Prod.snd)) shapes hspells hapart
    0 Place.beforeOctets
  exact ⟨hmap, congrArg kind hlast⟩

end RobotGolf.Token
