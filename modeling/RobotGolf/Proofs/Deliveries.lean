import RobotGolf.Proofs.Glyphs
import RobotGolf.Proofs.TokenText
/-!
# What a scanner delivers, request by request

A scanner is asked for one token after the other. It keeps what is left of the text, and whether it
is done; once it is, it answers with the end of the text for ever (`Scanner.next`). Where a lexeme
ends it does not decide itself. It leaves that to a lexer, of which nothing is known but that it
finds the longest lexeme at the head of a text, if there is one (`Lexer.Longest`).

* **There is only one such lexer.** The first octet of a lexeme tells its kind, and only digits go
  on, so the longest lexeme is the one that `Token.cut` cuts off (`Lexer.Longest.eq_cut`).
* **So requests are answered from a scan**, and a character outside of the alphabet is reported
  once, however many requests there are (`Scanner.answers_eq`).
* **A scan stops at the first octet outside of the alphabet**, and not before: its lexemes are the
  octets in front of it (`Token.scanFrom_cases`).

`Token.deliveries_tile_text` puts these together.
-/

namespace RobotGolf

/-! ### The alphabet -/

namespace Token

/-- The characters of a kind. -/
def Belongs (c : Char) : TokenKind → Prop
  | .command => c ∈ ['s', 'l', 'r']
  | .procedure => c.isLower = true ∧ c ∉ ['s', 'l', 'r']
  | .parameter => c.isUpper = true
  | .number => c.isDigit = true
  | .leftParen => c = '('
  | .rightParen => c = ')'
  | .comma => c = ','
  | .colon => c = ':'
  | .plus => c = '+'
  | .minus => c = '-'
  | .newline => c = '\n'
  | .finish | .illegal => False

/-- The lexemes of a kind: single characters of it, or several if these are digits. -/
def IsLexeme (kind : TokenKind) (lexeme : Bytes) : Prop :=
  ∃ cs, lexeme = Bytes.ofChars cs ∧ cs ≠ [] ∧ (∀ c ∈ cs, Belongs c kind) ∧
    (kind = .number ∨ cs.length = 1)

/-- The octets of which programs are made. -/
def InAlphabet (b : UInt8) : Prop :=
  (Char.ofNat b.toNat).isLower = true ∨ (Char.ofNat b.toNat).isUpper = true ∨
    (Char.ofNat b.toNat).isDigit = true ∨
    Char.ofNat b.toNat ∈ ['(', ')', ',', ':', '+', '-', '\n']

theorem charToNat_ofNat_octet (b : UInt8) : (Char.ofNat b.toNat).toNat = b.toNat :=
  charToNat_ofNat (Or.inl (by have := b.toNat_lt; omega))

theorem charOfNat_eq_iff {b : UInt8} {c : Char} : Char.ofNat b.toNat = c ↔ b.toNat = c.toNat := by
  rw [← Char.toNat_inj, charToNat_ofNat_octet]

/-- Punctuation marks are told from their octets. -/
theorem classify_eq_some_iff_of_mark {b : UInt8} {kind : TokenKind} {c : Char}
    (h : (mark? kind).map (fun m ↦ Char.ofNat m.toNat) = some c) :
    classify b = some kind ↔ Char.ofNat b.toNat = c := by
  obtain ⟨m, hm, rfl⟩ := Option.map_eq_some_iff.1 h
  rw [charOfNat_eq_iff, charToNat_ofNat_octet, UInt8.toNat_inj]
  constructor
  · intro hb
    rcases classify_cases hb with ⟨rfl, -⟩ | ⟨rfl, -⟩ | ⟨rfl, -⟩ | ⟨rfl, -⟩ | hb
    case inr.inr.inr.inr => exact Option.some.inj (hb.symm.trans hm)
    all_goals cases hm
  · rintro rfl
    exact classify_of_mark? hm

/-- **An octet starts a token of the kind that its character belongs to.** -/
theorem classify_eq_some_iff {b : UInt8} {kind : TokenKind} :
    classify b = some kind ↔ Belongs (Char.ofNat b.toNat) kind := by
  cases kind with
  | finish => exact iff_of_false (classify_ne_last b).1 id
  | illegal => exact iff_of_false (classify_ne_last b).2 id
  | command =>
    rw [classify_eq_command_iff, isCommand_iff, Belongs, mem_commandLetters_iff,
      charToNat_ofNat_octet]
  | procedure =>
    rw [classify_eq_procedure_iff, Token.isLower_iff, Belongs, charIsLower_iff,
      mem_commandLetters_iff, charToNat_ofNat_octet, Bool.eq_false_iff, ne_eq, isCommand_iff]
  | parameter =>
    rw [classify_eq_parameter_iff, Token.isUpper_iff, Belongs, charIsUpper_iff,
      charToNat_ofNat_octet]
  | number =>
    rw [classify_eq_number_iff, Token.isDigit_iff, Belongs, charIsDigit_iff, charToNat_ofNat_octet]
  | leftParen | rightParen | comma | colon | plus | minus | newline =>
    exact classify_eq_some_iff_of_mark rfl

theorem inAlphabet_iff {b : UInt8} : InAlphabet b ↔ ∃ kind, classify b = some kind := by
  simp only [classify_eq_some_iff]
  constructor
  · rintro (h | h | h | h)
    · by_cases hcommand : Char.ofNat b.toNat ∈ ['s', 'l', 'r']
      · exact ⟨.command, hcommand⟩
      · exact ⟨.procedure, h, hcommand⟩
    · exact ⟨.parameter, h⟩
    · exact ⟨.number, h⟩
    · simp only [List.mem_cons, List.not_mem_nil, or_false] at h
      rcases h with h | h | h | h | h | h | h
      exacts [⟨.leftParen, h⟩, ⟨.rightParen, h⟩, ⟨.comma, h⟩, ⟨.colon, h⟩, ⟨.plus, h⟩, ⟨.minus, h⟩,
        ⟨.newline, h⟩]
  · rintro ⟨kind, h⟩
    cases kind with
    | finish | illegal => exact h.elim
    | command =>
      refine Or.inl ?_
      simp only [Belongs, List.mem_cons, List.not_mem_nil, or_false] at h
      rcases h with h | h | h <;> rw [h] <;> rfl
    | procedure => exact Or.inl h.1
    | parameter => exact Or.inr (Or.inl h)
    | number => exact Or.inr (Or.inr (Or.inl h))
    | leftParen | rightParen | comma | colon | plus | minus | newline =>
      exact Or.inr (Or.inr (Or.inr (by rw [show Char.ofNat b.toNat = _ from h]; simp)))

theorem toNat_le_of_belongs {c : Char} {kind : TokenKind} (h : Belongs c kind) : c.toNat ≤ 127 := by
  cases kind with
  | finish | illegal => exact h.elim
  | command => rcases mem_commandLetters_iff.1 h with h | h | h <;> omega
  | procedure => exact (charIsLower_iff.1 h.1).2.trans (by omega)
  | parameter => exact (charIsUpper_iff.1 h).2.trans (by omega)
  | number => exact (charIsDigit_iff.1 h).2.trans (by omega)
  | leftParen | rightParen | comma | colon | plus | minus | newline =>
    rw [show c = _ from h]
    decide

/-- The two ways to say what a lexeme is agree. -/
theorem isLexeme_iff_spells {kind : TokenKind} {lexeme : Bytes} :
    IsLexeme kind lexeme ↔ Spells kind lexeme := by
  constructor
  · rintro ⟨cs, rfl, hne, hbelongs, hlength⟩
    rw [Bytes.ofChars_eq_map fun c hc ↦ toNat_le_of_belongs (hbelongs c hc)]
    have hclass : ∀ c ∈ cs, classify (UInt8.ofNat c.toNat) = some kind := by
      intro c hc
      have hbelongs := hbelongs c hc
      rw [classify_eq_some_iff, toNat_ofNat_ascii (toNat_le_of_belongs hbelongs),
        Char.ofNat_toNat]
      exact hbelongs
    rcases cs with - | ⟨c, cs⟩
    · exact absurd rfl hne
    obtain ⟨hc, hcs⟩ := List.forall_mem_cons.1 hclass
    refine ⟨_, _, rfl, hc, fun b hb ↦ ?_⟩
    obtain ⟨d, hd, rfl⟩ := List.mem_map.1 hb
    rcases hlength with rfl | hlength
    · exact ⟨rfl, classify_eq_number_iff.1 (hcs d hd)⟩
    · obtain rfl : cs = [] := by simpa using hlength
      cases hd
  · intro h
    obtain ⟨hne, hclass⟩ := h.classify_of_mem
    have hbelongs : ∀ c ∈ lexeme.map (fun b ↦ Char.ofNat b.toNat), Belongs c kind := by
      intro c hc
      obtain ⟨b, hb, rfl⟩ := List.mem_map.1 hc
      exact classify_eq_some_iff.1 (hclass b hb)
    refine ⟨_, ?_, by simpa using hne, hbelongs, ?_⟩
    · rw [Bytes.ofChars_eq_map fun c hc ↦ toNat_le_of_belongs (hbelongs c hc), List.map_map]
      refine (List.map_id'' (fun b ↦ ?_) lexeme).symm
      rw [Function.comp_apply, charToNat_ofNat_octet, UInt8.ofNat_toNat]
    · by_cases hnumber : kind = .number
      · exact Or.inl hnumber
      · obtain ⟨b, rfl, -⟩ := h.eq_singleton hnumber
        exact Or.inr rfl

end Token

/-! ### Lexers -/

/-- What finds a lexeme at the head of a text, with its kind. -/
abbrev Lexer := Bytes → Option (TokenKind × Bytes)

namespace Lexer

open Token

/-- What is found is the longest lexeme at the head of the text, and nothing is found only where
there is none. -/
structure Longest (lex : Lexer) : Prop where
  isLexeme : ∀ {text kind lexeme}, lex text = some (kind, lexeme) →
    IsLexeme kind lexeme ∧ lexeme <+: text
  longest : ∀ {text kind lexeme}, lex text = some (kind, lexeme) →
    ∀ kind' lexeme', IsLexeme kind' lexeme' → lexeme' <+: text → lexeme'.length ≤ lexeme.length
  complete : ∀ {text}, lex text = none → ∀ kind lexeme, IsLexeme kind lexeme → ¬ lexeme <+: text

/-- A lexeme at the head of a text is no longer than what is cut off there, and of the same kind. -/
theorem length_le_cut {b : UInt8} {rest lexeme : Bytes} {kind : TokenKind}
    (h : IsLexeme kind lexeme) (hfront : lexeme <+: b :: rest) :
    classify b = some kind ∧ lexeme.length ≤ (cut b rest).1.length := by
  obtain ⟨first, tail, rfl, hfirst, htail⟩ := isLexeme_iff_spells.1 h
  obtain ⟨rfl, after, rfl⟩ := List.cons_prefix_cons.1 hfront
  refine ⟨hfirst, ?_⟩
  by_cases hdigit : isDigit first = true
  · have hdigits : ∀ c ∈ tail, isDigit c = true := fun c hc ↦ (htail c hc).2
    rw [cut, if_pos hdigit, List.takeWhile_append_of_pos hdigits]
    simp
  · have hnil : tail = [] := by
      rcases tail with - | ⟨c, tail⟩
      · rfl
      · have hnumber := (htail c (List.mem_cons_self ..)).1
        rw [hnumber, classify_eq_number_iff] at hfirst
        exact absurd hfirst hdigit
    rw [hnil]
    exact length_cut_pos ..

/-- **There is only one lexer that finds the longest lexemes.** -/
theorem Longest.eq_cut {lex : Lexer} (h : lex.Longest) (b : UInt8) (rest : Bytes) :
    lex (b :: rest) = (classify b).map fun kind ↦ (kind, (cut b rest).1) := by
  have hcut : (cut b rest).1 <+: b :: rest := ⟨_, cut_append b rest⟩
  rcases hlex : lex (b :: rest) with - | ⟨kind, lexeme⟩
  · rcases hclass : classify b with - | kind
    · rfl
    · exact absurd hcut
        (h.complete hlex kind _ (isLexeme_iff_spells.2 (spells_cut hclass rest)))
  · obtain ⟨hlexeme, hfront⟩ := h.isLexeme hlex
    obtain ⟨hclass, hle⟩ := length_le_cut hlexeme hfront
    have hge := h.longest hlex kind _ (isLexeme_iff_spells.2 (spells_cut hclass rest)) hcut
    have hsame : lexeme = (cut b rest).1 :=
      (List.prefix_of_prefix_length_le hfront hcut hle).eq_of_length (Nat.le_antisymm hle hge)
    rw [hclass, hsame, Option.map_some]

/-- The lexer that cuts lexemes off as a scan does. -/
def cutting : Lexer
  | [] => none
  | b :: rest => (classify b).map fun kind ↦ (kind, (cut b rest).1)

theorem longest_cutting : cutting.Longest where
  isLexeme {text kind lexeme} h := by
    rcases text with - | ⟨b, rest⟩
    · cases h
    · obtain ⟨kind, hclass, heq⟩ := Option.map_eq_some_iff.1 h
      cases heq
      exact ⟨isLexeme_iff_spells.2 (spells_cut hclass rest), _, cut_append b rest⟩
  longest {text kind lexeme} h kind' lexeme' hlexeme hfront := by
    rcases text with - | ⟨b, rest⟩
    · cases h
    · obtain ⟨kind, -, heq⟩ := Option.map_eq_some_iff.1 h
      cases heq
      exact (length_le_cut hlexeme hfront).2
  complete {text} h kind lexeme hlexeme hfront := by
    rcases text with - | ⟨b, rest⟩
    · exact (isLexeme_iff_spells.1 hlexeme).classify_of_mem.1 (List.prefix_nil.1 hfront)
    · have hclass := (length_le_cut hlexeme hfront).1
      simp [cutting, hclass] at h

end Lexer

/-! ### Scanners -/

/-- What a scanner keeps between two requests: what is left of the text, how many octets are in
front of that and where the last of them stands, whether it is done, and how many characters it has
reported. -/
structure Scanner where
  rest : Bytes
  offset : ℕ
  before : Place
  done : Bool
  reports : ℕ

namespace Scanner

open Token

/-- A scanner in front of a text. -/
def start (text : Bytes) : Scanner := ⟨text, 0, Place.beforeOctets, false, 0⟩

/-- The answer to one request, `finish` being the token for the end of the text. -/
def next (lex : Lexer) (finish : Token) (s : Scanner) : Token × Scanner :=
  if s.done then (finish, s)
  else
    match s.rest with
    | [] => (finish, { s with done := true })
    | b :: behind =>
      match lex (b :: behind) with
      | none =>
        (illegalAt s.offset s.before b behind, { s with done := true, reports := s.reports + 1 })
      | some (kind, lexeme) =>
        (⟨kind, lexeme, ⟨s.offset, s.offset + lexeme.length⟩, s.before.passOctet b⟩,
          { s with
            rest := (b :: behind).drop lexeme.length
            offset := s.offset + lexeme.length
            before := lexeme.foldl Place.passOctet s.before })

/-- The answers to some requests. -/
def answers (lex : Lexer) (finish : Token) : ℕ → Scanner → List Token × Scanner
  | 0, s => ([], s)
  | n + 1, s =>
    let behind := answers lex finish n (s.next lex finish).2
    ((s.next lex finish).1 :: behind.1, behind.2)

variable {lex : Lexer} {finish : Token}

/-- A scanner that is done remains so, and reports nothing more. -/
theorem answers_of_done {s : Scanner} (h : s.done = true) (n : ℕ) :
    answers lex finish n s = (List.replicate n finish, s) := by
  induction n with
  | zero => rfl
  | succ n ih =>
    have hnext : s.next lex finish = (finish, s) := if_pos h
    rw [answers, hnext, ih, List.replicate_succ]

section Scan

variable {b : UInt8} {kind : TokenKind} (finish : Token) (offset : ℕ) (before : Place)
  (behind : Bytes)

theorem scanFrom_of_none (hclass : classify b = none) :
    scanFrom finish offset before (b :: behind) = ([], illegalAt offset before b behind) := by
  rw [scanFrom, hclass]

/-- A lexeme is scanned, and then what is left behind it. -/
theorem scanFrom_of_some (hclass : classify b = some kind) :
    ∃ token more last, scanFrom finish offset before (b :: behind) = (token :: more, last) ∧
      token = ⟨kind, (cut b behind).1, ⟨offset, offset + (cut b behind).1.length⟩,
        before.passOctet b⟩ ∧
      scanFrom finish (offset + (cut b behind).1.length)
        ((cut b behind).1.foldl Place.passOctet before) (cut b behind).2 = (more, last) := by
  rw [scanFrom, hclass]
  exact ⟨_, _, _, rfl, rfl, rfl⟩

variable (hlex : lex.Longest) (reports : ℕ)

include hlex

theorem next_of_none (hclass : classify b = none) :
    next lex finish ⟨b :: behind, offset, before, false, reports⟩ =
      (illegalAt offset before b behind, ⟨b :: behind, offset, before, true, reports + 1⟩) := by
  have hfound := hlex.eq_cut b behind
  rw [hclass] at hfound
  simp [next, hfound]

/-- With a lexer for the longest lexemes, a scanner moves on as a scan does. -/
theorem next_of_some (hclass : classify b = some kind) :
    next lex finish ⟨b :: behind, offset, before, false, reports⟩ =
      (⟨kind, (cut b behind).1, ⟨offset, offset + (cut b behind).1.length⟩, before.passOctet b⟩,
        ⟨(cut b behind).2, offset + (cut b behind).1.length,
          (cut b behind).1.foldl Place.passOctet before, false, reports⟩) := by
  have hfound := hlex.eq_cut b behind
  have hdrop : (b :: behind).drop (cut b behind).1.length = (cut b behind).2 := by
    conv_lhs => rw [← cut_append b behind, List.drop_left]
  rw [hclass] at hfound
  simp only [next, Bool.false_eq_true, if_false, hfound, Option.map_some, hdrop]

end Scan

/-- **Requests are answered from a scan** of what is left of the text, and with the end of the text
behind that. What ended the scan is reported if it is illegal, when it is delivered. -/
theorem answers_eq (hlex : lex.Longest) (hfinish : finish.kind = .finish) {n m : ℕ} (hm : n ≤ m)
    {rest : Bytes} {offset reports : ℕ} {before : Place} {tokens : List Token} {last : Token}
    (hscan : scanFrom finish offset before rest = (tokens, last)) :
    (answers lex finish n ⟨rest, offset, before, false, reports⟩).1 =
        (tokens ++ last :: List.replicate m finish).take n ∧
      (answers lex finish n ⟨rest, offset, before, false, reports⟩).2.reports =
        reports + if tokens.length < n ∧ last.kind = .illegal then 1 else 0 := by
  induction n generalizing rest offset before tokens with
  | zero => simp [answers]
  | succ n ih =>
    rw [answers]
    rcases rest with - | ⟨b, behind⟩
    · obtain ⟨rfl, rfl⟩ : [] = tokens ∧ finish = last := by simpa [scanFrom] using hscan
      have hnext : next lex finish ⟨[], offset, before, false, reports⟩ =
          (finish, ⟨[], offset, before, true, reports⟩) := rfl
      rw [hnext, answers_of_done rfl]
      simp [hfinish, Nat.min_eq_left (Nat.le_of_succ_le hm)]
    rcases hclass : classify b with - | kind
    · obtain ⟨rfl, rfl⟩ : [] = tokens ∧ illegalAt offset before b behind = last := by
        simpa [scanFrom_of_none finish offset before behind hclass] using hscan
      rw [next_of_none finish offset before behind hlex reports hclass, answers_of_done rfl]
      simp [illegalAt, Nat.min_eq_left (Nat.le_of_succ_le hm)]
    · obtain ⟨token, more, last', hfirst, htoken, hmore⟩ :=
        scanFrom_of_some finish offset before behind hclass
      obtain ⟨rfl, rfl⟩ : token :: more = tokens ∧ last' = last := by
        simpa [hfirst] using hscan
      obtain ⟨hanswers, hreports⟩ := ih (Nat.le_of_succ_le hm) hmore
      rw [next_of_some finish offset before behind hlex reports hclass, ← htoken]
      dsimp only
      rw [hanswers, hreports]
      exact ⟨rfl, by simp⟩

/-- From the front of a text, requests are answered from its scan. -/
theorem answers_start (hlex : lex.Longest) (text : Bytes) (n : ℕ) :
    (answers lex (Token.finish text) n (start text)).1 = ((scan text).deliver n).take n ∧
      (answers lex (Token.finish text) n (start text)).2.reports =
        if (scan text).tokens.length < n then (scan text).reported else 0 := by
  have hscan : scanFrom (Token.finish text) 0 Place.beforeOctets text =
      ((scan text).tokens, (scan text).last) := rfl
  obtain ⟨hanswers, hreports⟩ := answers_eq hlex rfl (Nat.le_refl n) hscan
  exact ⟨hanswers, hreports.trans (by simp [Scan.reported, ite_and])⟩

end Scanner

/-! ### Scans -/

namespace Token

/-- **How far a scan goes**: its lexemes are the octets in front of what ended it, which is the end
of the text or an octet that starts no token. -/
theorem scanFrom_cases (finish : Token) (offset : ℕ) (before : Place) (text : Bytes) :
    ∃ rest, text = lexemes (scanFrom finish offset before text).1 ++ rest ∧
      (rest = [] ∧ (scanFrom finish offset before text).2 = finish ∨
        ∃ b behind place, rest = b :: behind ∧ classify b = none ∧
          (scanFrom finish offset before text).2 = illegalAt
            (offset + (lexemes (scanFrom finish offset before text).1).length) place b behind) := by
  fun_induction scanFrom finish offset before text with
  | case1 => exact ⟨[], rfl, Or.inl ⟨rfl, rfl⟩⟩
  | case2 offset before b rest hclass =>
    exact ⟨b :: rest, rfl, Or.inr ⟨b, rest, before, rfl, hclass, rfl⟩⟩
  | case3 offset before b rest kind hkind lexeme token behind ih =>
    obtain ⟨left, htext, hlast⟩ := ih
    have hlexemes : lexemes (token :: behind.1) = lexeme ++ lexemes behind.1 := List.flatMap_cons
    refine ⟨left, ?_, ?_⟩
    · rw [hlexemes, List.append_assoc]
      exact (cut_append b rest).symm.trans (congrArg (lexeme ++ ·) htext)
    · rwa [hlexemes, List.length_append, ← Nat.add_assoc]

/-- Whatever ends it, a scan fills the text up to there. -/
theorem fills_scanFrom (finish : Token) (offset : ℕ) (before : Place) (text : Bytes) :
    Fills offset (scanFrom finish offset before text).1
      (offset + (lexemes (scanFrom finish offset before text).1).length) := by
  refine ⟨?_, fun _ ↦ genuine_of_mem_scanFrom⟩
  fun_induction scanFrom finish offset before text with
  | case1 offset before => exact .nil offset
  | case2 offset before b rest hclass => exact .nil offset
  | case3 offset before b rest kind hkind lexeme token behind ih =>
    have hlexemes : lexemes (token :: behind.1) = lexeme ++ lexemes behind.1 := List.flatMap_cons
    rw [hlexemes, List.length_append, ← Nat.add_assoc]
    exact .cons rfl (Nat.lt_add_of_pos_right (length_cut_pos b rest)) ih

/-- The octets of a token that stands in a stretch from the front of a text. -/
theorem Fills.slice_of_mem {tokens : List Token} {stop : ℕ} {t : Token}
    (h : Fills 0 tokens stop) (ht : t ∈ tokens) (rest : Bytes) :
    t.span.slice (lexemes tokens ++ rest) = t.lexeme := by
  obtain ⟨front, back, rfl⟩ := List.append_of_mem ht
  obtain ⟨middle, hfront, hback⟩ := h.of_append
  obtain ⟨hstart, -, hgenuine, -⟩ := hback.of_cons
  have hmiddle := hfront.stop_eq
  rw [Nat.zero_add] at hmiddle
  have hspan : t.span = ⟨(lexemes front).length, (lexemes front).length + t.lexeme.length⟩ := by
    rw [← hmiddle, ← hstart, ← hgenuine.width]
  have htext : lexemes (front ++ t :: back) ++ rest =
      lexemes front ++ t.lexeme ++ (lexemes back ++ rest) := by
    simp [lexemes]
  rw [hspan, htext, Span.slice_append]

/-- The two ways in which the scan of a text ends. -/
theorem scan_cases (text : Bytes) :
    (text = lexemes (scan text).tokens ∧ (scan text).last = finish text) ∨
      ∃ b behind place, text = lexemes (scan text).tokens ++ b :: behind ∧ ¬ InAlphabet b ∧
        (scan text).last = illegalAt (lexemes (scan text).tokens).length place b behind := by
  obtain ⟨rest, htext, ⟨rfl, hlast⟩ | ⟨b, behind, place, rfl, hclass, hlast⟩⟩ :=
    scanFrom_cases (finish text) 0 Place.beforeOctets text
  · rw [List.append_nil] at htext
    exact Or.inl ⟨htext, hlast⟩
  · refine Or.inr ⟨b, behind, place, htext, ?_, ?_⟩
    · rw [inAlphabet_iff, hclass]
      simp
    · rw [Nat.zero_add] at hlast
      exact hlast

/-- What a scan ends with begins where its tokens end. -/
theorem start_last_scan (text : Bytes) :
    (scan text).last.span.start = (lexemes (scan text).tokens).length := by
  rcases scan_cases text with ⟨htext, hlast⟩ | ⟨b, behind, place, -, -, hlast⟩
  · rw [hlast, ← htext]
    rfl
  · rw [hlast]
    rfl

/-- **The tokens of a scan cover the text** up to what ends it. -/
theorem tiles_scan_last (text : Bytes) :
    Tiles 0 (scan text).tokens (scan text).last.span.start := by
  have hfills := fills_scanFrom (finish text) 0 Place.beforeOctets text
  rw [Nat.zero_add] at hfills
  rw [start_last_scan]
  exact hfills.tiles

/-- A character at the head of a text has an octet, and is no longer than the text. -/
theorem width_uncons (b : UInt8) (rest : Bytes) : 0 < (Bytes.uncons b rest).1.width ∧
    (Bytes.uncons b rest).1.width ≤ (b :: rest).length := by
  refine ⟨List.length_pos_iff.2 (Bytes.octets_uncons_ne_nil b rest), ?_⟩
  rw [← Bytes.octets_append_uncons b rest, List.length_append]
  exact Nat.le_add_right ..

section Last

variable (text : Bytes)

theorem inAlphabet_of_mem_scan {b : UInt8} (hb : b ∈ lexemes (scan text).tokens) :
    InAlphabet b := by
  obtain ⟨t, ht, hb⟩ := List.mem_flatMap.1 hb
  exact inAlphabet_iff.2 ⟨_, (spells_of_mem_scan ht).classify_of_mem.2 b hb⟩

/-- **A scan ends with an illegal character** if and only if there is an octet outside of the
alphabet. -/
theorem last_illegal_iff : (scan text).last.kind = .illegal ↔ ∃ b ∈ text, ¬ InAlphabet b := by
  rcases scan_cases text with ⟨htext, hlast⟩ | ⟨b, behind, place, htext, hb, hlast⟩
  · refine iff_of_false (by simp [hlast, finish]) ?_
    rintro ⟨b, hmem, hb⟩
    rw [htext] at hmem
    exact hb (inAlphabet_of_mem_scan text hmem)
  · refine iff_of_true (by simp [hlast, illegalAt]) ⟨b, ?_, hb⟩
    rw [htext]
    exact List.mem_append_right _ (List.mem_cons_self ..)

/-- It is the first one, and it lies within the text. -/
theorem illegal_at_first (h : (scan text).last.kind = .illegal) :
    (∀ b ∈ text.take (scan text).last.span.start, InAlphabet b) ∧
      (∃ b, text[(scan text).last.span.start]? = some b ∧ ¬ InAlphabet b) ∧
      (scan text).last.span.start < (scan text).last.span.stop ∧
      (scan text).last.span.stop ≤ text.length := by
  rcases scan_cases text with ⟨-, hlast⟩ | ⟨b, behind, place, htext, hb, hlast⟩
  · simp [hlast, finish] at h
  obtain ⟨hpos, hle⟩ := width_uncons b behind
  have hlength := congrArg List.length htext
  rw [List.length_append] at hlength
  have hstop : (scan text).last.span.stop =
      (lexemes (scan text).tokens).length + (Bytes.uncons b behind).1.width := by
    rw [hlast]
    rfl
  have hclean := fun c ↦ inAlphabet_of_mem_scan (b := c) text
  rw [hstop, start_last_scan]
  generalize lexemes (scan text).tokens = front at htext hlength hclean ⊢
  refine ⟨fun c hc ↦ ?_, ⟨b, ?_, hb⟩, by omega, by omega⟩
  · rw [htext, List.take_left] at hc
    exact hclean c hc
  · rw [htext]
    simp

end Last

/-- **Tokens tile the text.** Let a lexer find the longest lexemes. Requests for tokens are then
answered with the tokens of the scan, with what ended it, and with the end of the text for ever. The
tokens cover the text from its front without gaps, each has the octets of its span as its lexeme and
the kind of that, and no two numbers are next to each other. The scan ends with an illegal character
if and only if there is an octet outside of the alphabet. Then it does so at the first one of these,
within the text, and this is reported once; otherwise it ends with the text, and nothing is
reported. -/
theorem deliveries_tile_text {lex : Lexer} (hlex : lex.Longest) (text : Bytes) (s : Scan)
    (hs : s = scan text) :
    (∀ n, (Scanner.answers lex s.finish n (.start text)).1 = (s.deliver n).take n ∧
      (Scanner.answers lex s.finish n (.start text)).2.reports =
        if s.tokens.length < n then s.reported else 0) ∧
    Tiles 0 s.tokens s.last.span.start ∧
    (∀ t ∈ s.tokens, t.span.slice text = t.lexeme ∧ IsLexeme t.kind t.lexeme) ∧
    s.tokens.IsChain (fun t u ↦ ¬ (t.kind = .number ∧ u.kind = .number)) ∧
    (s.last.kind = .illegal ↔ ∃ b ∈ text, ¬ InAlphabet b) ∧
    (s.last.kind = .illegal →
      (∀ b ∈ text.take s.last.span.start, InAlphabet b) ∧
      (∃ b, text[s.last.span.start]? = some b ∧ ¬ InAlphabet b) ∧
      s.last.span.start < s.last.span.stop ∧ s.last.span.stop ≤ text.length ∧ s.reported = 1) ∧
    (s.last.kind ≠ .illegal → s.last = s.finish ∧ s.reported = 0) ∧
    (s.finish.kind = .finish ∧ s.finish.span = ⟨text.length, text.length⟩) ∧
    ∀ n, s.tokens.length < n →
      (Scanner.answers lex s.finish (n + 1) (.start text)).1[n]? = some s.finish := by
  subst hs
  have hchain := isChain_scanFrom (finish text) 0 Place.beforeOctets text
  refine ⟨Scanner.answers_start hlex text, tiles_scan_last text, fun t ht ↦ ⟨?_, ?_⟩, ?_,
    last_illegal_iff text, fun h ↦ ?_, fun h ↦ ?_, ⟨rfl, rfl⟩, fun n hn ↦ ?_⟩
  · have hfills := fills_scanFrom (finish text) 0 Place.beforeOctets text
    obtain ⟨rest, htext, -⟩ := scanFrom_cases (finish text) 0 Place.beforeOctets text
    conv_lhs => rw [htext]
    exact hfills.slice_of_mem ht rest
  · exact isLexeme_iff_spells.2 (spells_of_mem_scan ht)
  · exact ((List.isChain_map shape).1 hchain).imp fun t u hapart hboth ↦ hapart hboth.1 hboth.2
  · obtain ⟨hfront, hfirst, hpos, hle⟩ := illegal_at_first text h
    exact ⟨hfront, hfirst, hpos, hle, if_pos h⟩
  · refine ⟨?_, if_neg h⟩
    rcases scan_cases text with ⟨-, hlast⟩ | ⟨b, behind, place, -, -, hlast⟩
    · exact hlast
    · exact absurd (by rw [hlast]; rfl) h
  · have hanswers := (Scanner.answers_start hlex text (n + 1)).1
    obtain ⟨k, rfl⟩ := Nat.exists_eq_add_of_lt hn
    show (Scanner.answers lex (finish text) _ (.start text)).1[_]? = _
    have hindex : (scan text).tokens.length + k + 1 - (scan text).tokens.length = k + 1 := by omega
    rw [hanswers, List.getElem?_take_of_lt (Nat.lt_succ_self _), Scan.deliver,
      List.getElem?_append_right (by omega), hindex, List.getElem?_cons_succ,
      List.getElem?_replicate_of_lt (by omega)]

/-- The letters `f12:` and an accented letter, of which the last octet is missing. -/
def accented : Bytes := [0x66, 0x31, 0x32, 0x3A, 0xC3]

/-- A name, a number and a colon are delivered, then the stray octet, and then the end of the text
again and again. -/
theorem accented_delivered : Lexer.cutting.Longest ∧ ∃ s, s = scan accented ∧
    s.tokens.map shape = [(.procedure, [0x66]), (.number, [0x31, 0x32]), (.colon, [0x3A])] ∧
    Tiles 0 s.tokens 4 ∧ s.last.span = ⟨4, 5⟩ ∧ s.reported = 1 ∧
    (Scanner.answers .cutting s.finish 6 (.start accented)).1 =
      s.tokens ++ [s.last, s.finish, s.finish] ∧
    (Scanner.answers .cutting s.finish 6 (.start accented)).2.reports = 1 ∧
    ∃ b ∈ accented, ¬ InAlphabet b := by
  have hlast : (scan accented).last.span = ⟨4, 5⟩ ∧ (scan accented).last.kind = .illegal := by
    decide +kernel
  have hlength : (scan accented).tokens.length = 3 := by decide +kernel
  obtain ⟨hanswers, htiles, -, -, hiff, hillegal, -, -, -⟩ :=
    deliveries_tile_text Lexer.longest_cutting accented _ rfl
  obtain ⟨hfirst, hreports⟩ := hanswers 6
  obtain ⟨-, -, -, -, hreported⟩ := hillegal hlast.2
  rw [hlast.1] at htiles
  rw [hlength, if_pos (by decide), hreported] at hreports
  refine ⟨Lexer.longest_cutting, _, rfl, by decide +kernel, htiles, hlast.1, hreported, ?_,
    hreports, hiff.1 hlast.2⟩
  rw [hfirst, Scan.deliver, List.take_append, hlength, List.take_of_length_le (by omega)]
  rfl

end Token

end RobotGolf
