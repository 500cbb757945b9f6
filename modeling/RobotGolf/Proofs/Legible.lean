import Mathlib.Data.List.Chain
import RobotGolf.Program.Parse
import RobotGolf.Program.Spelling
import RobotGolf.Proofs.Scanning
import RobotGolf.Proofs.WellFormed
/-!
# Well-formed trees are spelled legibly

The text of a tree is written without any gaps, so it can be read only if it falls apart into the
same lexemes again. For a well-formed tree it does:

* every symbol is spelled as its kind, because names are single letters of the right case and
  numbers have no sign (`IsProcedureName.spells`, `IsParameterName.spells`, `spells_number`);
* no number follows another one, because whatever is put behind a number starts with a sign, a comma
  or a parenthesis. `Symbol.Fluent` is the invariant, and `Symbol.Fluent.append` needs to know of
  the second part only that it does not start with a number (`Symbol.Opens`);
* nothing is trimmed off, because the text neither starts nor ends with white space
  (`trim_eq_self`). The only white space in it ends a definition, and a main block follows.

`scan_render` puts these together. It is stated up to the places of the tokens, which nothing here
depends on.
-/

namespace RobotGolf

open Token

/-! ### Letters and digits -/

theorem toText_singleton {b : UInt8} (h : b < 0x80) :
    Bytes.toText [b] = String.singleton (Char.ofNat b.toNat) := by
  simp [Bytes.toText, Bytes.chars, Bytes.glyphs_cons, Bytes.uncons_of_lt h, Bytes.glyphs_nil]

theorem utf8EncodeChar_ascii {c : Char} (h : c.toNat ≤ 127) :
    String.utf8EncodeChar c = [UInt8.ofNat c.toNat] := by
  simp [String.utf8EncodeChar, h]

theorem ofString_singleton {c : Char} (h : c.toNat ≤ 127) :
    Bytes.ofString (String.singleton c) = [UInt8.ofNat c.toNat] := by
  simp [Bytes.ofString, Bytes.ofChars, utf8EncodeChar_ascii h]

theorem toNat_ofNat_ascii {n : Nat} (h : n ≤ 127) : (UInt8.ofNat n).toNat = n := by
  rw [UInt8.toNat_ofNat']
  omega

theorem charToNat_ofNat {n : Nat} (h : n.isValidChar) : (Char.ofNat n).toNat = n := by
  rw [Char.ofNat, dif_pos h]
  exact UInt32.toNat_ofNatLT

theorem charToNat_ofNat_ascii {n : Nat} (h : n ≤ 127) : (Char.ofNat n).toNat = n :=
  charToNat_ofNat (Or.inl (by omega))

/-- The octet of a character, read again. -/
theorem toText_ofNat_ascii {c : Char} (h : c.toNat ≤ 127) :
    Bytes.toText [UInt8.ofNat c.toNat] = String.singleton c := by
  have hlt : UInt8.ofNat c.toNat < 0x80 := by
    rw [UInt8.lt_iff_toNat_lt, toNat_ofNat_ascii h]
    exact Nat.lt_succ_of_le h
  rw [toText_singleton hlt, toNat_ofNat_ascii h, Char.ofNat_toNat]

/-- The classes of letters and digits are ranges of code points. -/
theorem char_between_iff {c : Char} {low high : UInt32} :
    (decide (low ≤ c.val) && decide (c.val ≤ high)) = true ↔
      low.toNat ≤ c.toNat ∧ c.toNat ≤ high.toNat := by
  rw [Bool.and_eq_true, decide_eq_true_iff, decide_eq_true_iff]
  exact Iff.rfl

theorem charIsLower_iff {c : Char} : c.isLower = true ↔ 97 ≤ c.toNat ∧ c.toNat ≤ 122 :=
  char_between_iff

theorem charIsUpper_iff {c : Char} : c.isUpper = true ↔ 65 ≤ c.toNat ∧ c.toNat ≤ 90 := by
  show decide (65 ≤ c.val ∧ c.val ≤ 90) = true ↔ _
  rw [Bool.decide_and]
  exact char_between_iff

theorem charIsDigit_iff {c : Char} : c.isDigit = true ↔ 48 ≤ c.toNat ∧ c.toNat ≤ 57 :=
  char_between_iff

/-- The characters of the three commands. -/
theorem mem_commandLetters_iff {c : Char} :
    c ∈ ['s', 'l', 'r'] ↔ c.toNat = 115 ∨ c.toNat = 108 ∨ c.toNat = 114 := by
  have hinj : ∀ d : Char, c = d ↔ c.toNat = d.toNat :=
    fun d ↦ ⟨congrArg Char.toNat, fun h ↦ Char.toNat_inj.1 h⟩
  simp only [List.mem_cons, List.not_mem_nil, or_false, hinj]
  rfl

/-- The octet of a procedure name or of a parameter is legible and gives the name back. -/
theorem IsProcedureName.spells {name : String} (h : IsProcedureName name) :
    Spells .procedure (Bytes.ofString name) ∧ Bytes.toText (Bytes.ofString name) = name := by
  obtain ⟨c, rfl, hlower, hcommand⟩ := h
  have hrange := charIsLower_iff.1 hlower
  have hascii : c.toNat ≤ 127 := by omega
  rw [ofString_singleton hascii]
  refine ⟨⟨_, [], rfl, classify_eq_procedure_iff.2 ⟨?_, ?_⟩, by simp⟩, toText_ofNat_ascii hascii⟩
  · rw [Token.isLower_iff, toNat_ofNat_ascii hascii]
    exact hrange
  · rw [Bool.eq_false_iff, ne_eq, isCommand_iff, toNat_ofNat_ascii hascii,
      ← mem_commandLetters_iff]
    exact hcommand

theorem IsParameterName.spells {name : String} (h : IsParameterName name) :
    Spells .parameter (Bytes.ofString name) ∧ Bytes.toText (Bytes.ofString name) = name := by
  obtain ⟨c, rfl, hupper⟩ := h
  have hrange := charIsUpper_iff.1 hupper
  have hascii : c.toNat ≤ 127 := by omega
  rw [ofString_singleton hascii]
  refine ⟨⟨_, [], rfl, classify_eq_parameter_iff.2 ?_, by simp⟩, toText_ofNat_ascii hascii⟩
  rw [Token.isUpper_iff, toNat_ofNat_ascii hascii]
  exact hrange

theorem isProcedureName_toText {lexeme : Bytes} (h : Spells .procedure lexeme) :
    IsProcedureName (Bytes.toText lexeme) := by
  obtain ⟨b, rfl, hb⟩ := h.eq_singleton (by simp)
  obtain ⟨hlower, hcommand⟩ := classify_eq_procedure_iff.1 hb
  have hrange := Token.isLower_iff.1 hlower
  have hascii : b.toNat ≤ 127 := by omega
  refine ⟨_, toText_singleton (UInt8.lt_iff_toNat_lt.2 (Nat.lt_succ_of_le hascii)), ?_, ?_⟩
  · rw [charIsLower_iff, charToNat_ofNat_ascii hascii]
    exact hrange
  · rw [mem_commandLetters_iff, charToNat_ofNat_ascii hascii, ← isCommand_iff, hcommand]
    simp

theorem isParameterName_toText {lexeme : Bytes} (h : Spells .parameter lexeme) :
    IsParameterName (Bytes.toText lexeme) := by
  obtain ⟨b, rfl, hb⟩ := h.eq_singleton (by simp)
  have hrange := Token.isUpper_iff.1 (classify_eq_parameter_iff.1 hb)
  have hascii : b.toNat ≤ 127 := by omega
  refine ⟨_, toText_singleton (UInt8.lt_iff_toNat_lt.2 (Nat.lt_succ_of_le hascii)), ?_⟩
  rw [charIsUpper_iff, charToNat_ofNat_ascii hascii]
  exact hrange

/-- A command that a source text can hold is spelled by its own octet. -/
theorem Command.WellFormed.spells {c : Command} (h : c.WellFormed) :
    Bytes.ofString c.render = [c.code] ∧ Spells .command [c.code] := by
  have hcases : c = forward ∨ c = turnLeft ∨ c = turnRight := by simpa [WellFormed] using h
  rcases hcases with rfl | rfl | rfl <;>
    exact ⟨by decide, ⟨_, [], rfl, by decide, by simp⟩⟩

theorem Command.wellFormed_of_spells {lexeme : Bytes} (h : Spells .command lexeme) :
    Command.WellFormed ⟨lexeme.headD 0⟩ := by
  obtain ⟨b, rfl, hb⟩ := h.eq_singleton (by simp)
  have hb := classify_eq_command_iff.1 hb
  simp only [isCommand, Bool.or_eq_true, beq_iff_eq] at hb
  rcases hb with (rfl | rfl) | rfl <;> simp [WellFormed, forward, turnLeft, turnRight]

/-- The digits of a number, as octets. -/
theorem ofString_toString (n : Nat) :
    Bytes.ofString (toString n) = (Nat.toDigits 10 n).map fun c ↦ UInt8.ofNat c.toNat := by
  have hencode : ∀ cs : List Char, (∀ c ∈ cs, c.isDigit = true) →
      cs.flatMap String.utf8EncodeChar = cs.map fun c ↦ UInt8.ofNat c.toNat := by
    intro cs
    induction cs with
    | nil => intro _; rfl
    | cons c cs ih =>
      intro h
      have hrange := charIsDigit_iff.1 (h c (List.mem_cons_self ..))
      rw [List.flatMap_cons, List.map_cons, utf8EncodeChar_ascii (by omega),
        ih fun d hd ↦ h d (List.mem_cons_of_mem _ hd)]
      rfl
  rw [Nat.toString_eq_ofList_toDigits, Bytes.ofString, String.toList_ofList, Bytes.ofChars]
  exact hencode _ fun c hc ↦ Nat.isDigit_of_mem_toDigits (by omega) (by omega) hc

theorem spells_number (n : Nat) : Spells .number (Bytes.ofString (toString n)) := by
  rw [ofString_toString, spells_number_iff]
  refine ⟨by simp [Nat.toDigits_ne_nil], fun b hb ↦ ?_⟩
  obtain ⟨c, hc, rfl⟩ := List.mem_map.1 hb
  have hrange := charIsDigit_iff.1 (Nat.isDigit_of_mem_toDigits (by omega) (by omega) hc)
  rw [Token.isDigit_iff, toNat_ofNat_ascii (by omega)]
  exact hrange

/-- Reading the digits of a number gives the number. -/
theorem decimal_ofString (n : Nat) : Parse.decimal (Bytes.ofString (toString n)) = n := by
  have hfold : ∀ (cs : List Char) (m : Nat), (∀ c ∈ cs, c.isDigit = true) →
      (cs.map fun c ↦ UInt8.ofNat c.toNat).foldl (fun m b ↦ 10 * m + (b.toNat - 48)) m =
        Nat.ofDigitChars 10 cs m := by
    intro cs
    induction cs with
    | nil => intro m _; rfl
    | cons c cs ih =>
      intro m h
      have hrange := charIsDigit_iff.1 (h c (List.mem_cons_self ..))
      rw [List.map_cons, List.foldl_cons, toNat_ofNat_ascii (by omega),
        ih _ fun d hd ↦ h d (List.mem_cons_of_mem _ hd), Nat.ofDigitChars_eq_foldl,
        Nat.ofDigitChars_eq_foldl, List.foldl_cons]
      rfl
  rw [Parse.decimal, ofString_toString, hfold _ _ fun c hc ↦
    Nat.isDigit_of_mem_toDigits (by omega) (by omega) hc, Nat.ofDigitChars_ten_toDigits]

/-! ### Symbols that do not run together -/

namespace Symbol

/-- A symbol as a kind of token and its octets. -/
def shape (s : Symbol) : TokenKind × Bytes := (s.kind, Bytes.ofString s.text)

/-- Symbols that are legible one by one and are told apart when written one after the other. -/
structure Fluent (symbols : List Symbol) : Prop where
  spells : ∀ s ∈ symbols, Spells s.kind (Bytes.ofString s.text)
  apart : symbols.IsChain fun x y ↦ Apart x.shape y.shape

/-- Symbols that may follow a number. -/
def Opens (symbols : List Symbol) : Prop := ∀ s ∈ symbols.head?, s.kind ≠ .number

variable {s : Symbol} {xs ys : List Symbol}

theorem Fluent.nil : Fluent [] := ⟨by simp, List.isChain_nil⟩

theorem Fluent.append (hx : Fluent xs) (hy : Fluent ys) (h : Opens ys) : Fluent (xs ++ ys) where
  spells s hs := (List.mem_append.1 hs).elim (hx.spells s) (hy.spells s)
  apart := hx.apart.append hy.apart fun _ _ y hy _ ↦ h y hy

theorem Fluent.cons (hs : Spells s.kind (Bytes.ofString s.text)) (hnumber : s.kind ≠ .number)
    (h : Fluent xs) : Fluent (s :: xs) where
  spells t ht := (List.mem_cons.1 ht).elim (fun heq ↦ heq ▸ hs) (h.spells t)
  apart := List.isChain_cons.2 ⟨fun _ _ heq ↦ absurd heq hnumber, h.apart⟩

theorem Fluent.singleton (hs : Spells s.kind (Bytes.ofString s.text)) : Fluent [s] :=
  ⟨by simpa using hs, List.isChain_singleton _⟩

theorem Opens.nil : Opens [] := by simp [Opens]

theorem Opens.cons (h : s.kind ≠ .number) : Opens (s :: xs) := by
  simpa [Opens] using h

theorem Opens.append (hx : Opens xs) (hy : Opens ys) : Opens (xs ++ ys) := by
  rcases xs with - | ⟨s, xs⟩
  · exact hy
  · simpa [Opens] using hx

/-- Fluent parts, none of which starts with a number, are fluent one after the other. -/
theorem Fluent.flatMap {α : Type} {parts : List α} {f : α → List Symbol}
    (h : ∀ a ∈ parts, Fluent (f a) ∧ Opens (f a)) :
    Fluent (parts.flatMap f) ∧ Opens (parts.flatMap f) := by
  induction parts with
  | nil => exact ⟨Fluent.nil, Opens.nil⟩
  | cons a parts ih =>
    obtain ⟨⟨ha, hopens⟩, hparts⟩ := List.forall_mem_cons.1 h
    obtain ⟨hmore, hmoreOpens⟩ := ih hparts
    exact ⟨ha.append hmore hmoreOpens, hopens.append hmoreOpens⟩

/-- The symbols of punctuation are legible. -/
theorem spells_mark {b : UInt8} (h : mark? s.kind = some b) (htext : Bytes.ofString s.text = [b]) :
    Spells s.kind (Bytes.ofString s.text) :=
  ⟨b, [], htext, classify_of_mark? h, by simp⟩

/-- A parenthesised list of fluent members is fluent. -/
theorem Fluent.enclose {members : List (List Symbol)} (h : ∀ m ∈ members, Fluent m) :
    Fluent (enclose members) ∧ Opens (enclose members) := by
  have hcomma : ∀ m, Fluent m → Fluent (comma :: m) ∧ Opens (comma :: m) := fun m hm ↦
    ⟨.cons (spells_mark rfl (by decide)) (by simp [comma]) hm, Opens.cons (by simp [comma])⟩
  rcases members with - | ⟨m, members⟩
  · exact ⟨Fluent.nil, Opens.nil⟩
  · obtain ⟨hm, hmembers⟩ := List.forall_mem_cons.1 h
    obtain ⟨hfluent, hopens⟩ := Fluent.flatMap fun n hn ↦ hcomma n (hmembers n hn)
    refine ⟨.cons (spells_mark rfl (by decide)) (by simp) ?_, Opens.cons (by simp)⟩
    exact (hm.append hfluent hopens).append (.singleton (spells_mark rfl (by decide)))
      (Opens.cons (by simp))

/-- What holds of the three marks of a list and of all its members holds of the list. -/
theorem forall_mem_enclose {P : Symbol → Prop} {members : List (List Symbol)}
    (hleft : P ⟨.leftParen, "("⟩) (hcomma : P comma) (hright : P ⟨.rightParen, ")"⟩)
    (h : ∀ m ∈ members, ∀ s ∈ m, P s) : ∀ s ∈ enclose members, P s := by
  rcases members with - | ⟨m, members⟩
  · simp [enclose]
  · intro s hs
    simp only [enclose, List.mem_cons, List.mem_append, List.mem_flatMap, List.not_mem_nil,
      or_false] at hs
    rcases hs with rfl | (hs | ⟨n, hn, rfl | hs⟩) | rfl
    · exact hleft
    · exact h m (List.mem_cons_self ..) s hs
    · exact hcomma
    · exact h n (List.mem_cons_of_mem _ hn) s hs
    · exact hright

end Symbol

/-! ### Well-formed trees -/

open RobotGolf.Symbol

theorem Operand.WellFormed.fluent {o : Operand} (h : o.WellFormed) : Fluent [o.symbol] := by
  cases o with
  | literal n =>
    obtain ⟨k, rfl⟩ := Int.eq_ofNat_of_zero_le h
    exact .singleton (spells_number k)
  | parameter name => exact .singleton h.spells.1
  | blank => exact h.elim

theorem Term.fluent {t : Term} (h : t.operand.WellFormed) (signed : Bool) :
    Fluent (t.symbols signed) := by
  unfold symbols
  split
  · exact .cons (spells_mark rfl (by decide)) (by simp [minus]) h.fluent
  · split
    · exact .cons (spells_mark rfl (by decide)) (by simp [plus]) h.fluent
    · exact h.fluent

theorem Term.opens (t : Term) : Opens (t.symbols true) := by
  unfold symbols
  split
  · exact Opens.cons (by simp [minus])
  · exact Opens.cons (by simp [plus])

theorem Arithmetic.WellFormed.fluent {a : Arithmetic} (h : a.WellFormed) : Fluent a.symbols := by
  obtain ⟨-, hoperands, -, -⟩ := h
  unfold symbols
  split
  · exact Fluent.nil
  · next t ts hterms =>
    rw [hterms] at hoperands
    obtain ⟨ht, hts⟩ := List.forall_mem_cons.1 hoperands
    -- every term but the first has its sign in front
    obtain ⟨hfluent, hopens⟩ := Fluent.flatMap fun u hu ↦ ⟨Term.fluent (hts u hu) true, u.opens⟩
    exact (Term.fluent ht _).append hfluent hopens

mutual
theorem Element.WellFormed.fluent (e : Element) (h : e.WellFormed) :
    Fluent e.symbols ∧ Opens e.symbols := by
  match e, h with
  | .command c _, .command hc =>
    rw [Element.symbols]
    refine ⟨.singleton ?_, Opens.cons (by simp)⟩
    rw [hc.spells.1]
    exact hc.spells.2
  | .parameter name _, .parameter hname =>
    rw [Element.symbols]
    exact ⟨.singleton hname.spells.1, Opens.cons (by simp)⟩
  | .call callee args _, .call hcallee hargs =>
    rw [Element.symbols]
    have hmembers := Fluent.enclose (Argument.WellFormed.fluent_list args hargs)
    exact ⟨.cons hcallee.spells.1 (by simp) hmembers.1, Opens.cons (by simp)⟩

theorem Argument.WellFormed.fluent (a : Argument) (h : a.WellFormed) : Fluent a.symbols := by
  match a, h with
  | .parameter name _, .parameter hname =>
    rw [Argument.symbols]
    exact .singleton hname.spells.1
  | .quoted body _, .quoted _ _ hbody =>
    rw [Argument.symbols]
    exact (Element.WellFormed.fluent_sequence body hbody).1
  | .arithmetic sum, .arithmetic hsum =>
    rw [Argument.symbols]
    exact hsum.fluent

theorem Element.WellFormed.fluent_sequence (body : List Element) (h : ∀ e ∈ body, e.WellFormed) :
    Fluent (Element.sequenceSymbols body) ∧ Opens (Element.sequenceSymbols body) := by
  match body with
  | [] =>
    rw [Element.sequenceSymbols]
    exact ⟨Fluent.nil, Opens.nil⟩
  | e :: rest =>
    rw [Element.sequenceSymbols]
    obtain ⟨he, hrest⟩ := List.forall_mem_cons.1 h
    have he := Element.WellFormed.fluent e he
    have hrest := Element.WellFormed.fluent_sequence rest hrest
    exact ⟨he.1.append hrest.1 hrest.2, he.2.append hrest.2⟩

theorem Argument.WellFormed.fluent_list (args : List Argument) (h : ∀ a ∈ args, a.WellFormed) :
    ∀ m ∈ Argument.listSymbols args, Fluent m := by
  match args with
  | [] =>
    rw [Argument.listSymbols]
    simp
  | a :: rest =>
    rw [Argument.listSymbols, List.forall_mem_cons]
    obtain ⟨ha, hrest⟩ := List.forall_mem_cons.1 h
    exact ⟨Argument.WellFormed.fluent a ha, Argument.WellFormed.fluent_list rest hrest⟩
end

theorem Definition.WellFormed.fluent {d : Definition} (h : d.WellFormed) :
    Fluent d.symbols ∧ Opens d.symbols := by
  have hparams : ∀ m ∈ d.params.map fun name ↦ [(⟨.parameter, name⟩ : Symbol)], Fluent m := by
    intro m hm
    obtain ⟨name, hname, rfl⟩ := List.mem_map.1 hm
    exact .singleton (h.params name hname).spells.1
  have hhead : Fluent (⟨.procedure, d.name⟩ :: Symbol.enclose
      (d.params.map fun name ↦ [⟨.parameter, name⟩])) :=
    .cons h.name.spells.1 (by simp) (Fluent.enclose hparams).1
  have hbody : Fluent (Symbol.colon :: Element.sequenceSymbols d.body) :=
    .cons (spells_mark rfl (by decide)) (by simp [colon])
      (Element.WellFormed.fluent_sequence d.body h.body).1
  exact ⟨hhead.append hbody (Opens.cons (by simp [colon])), Opens.cons (by simp)⟩

/-- The lines of a program are told apart like the symbols on a line. -/
theorem Program.WellFormed.fluent {p : Program} (h : p.WellFormed) : Fluent p.symbols := by
  obtain ⟨hmain, hopens⟩ := Element.WellFormed.fluent_sequence p.main h.main
  have hnewline : Fluent [Symbol.newline] ∧ Opens [Symbol.newline] :=
    ⟨.singleton (spells_mark rfl (by decide)), Opens.cons (by simp [newline])⟩
  have hline : ∀ d ∈ p.definitions,
      Fluent (d.symbols ++ [Symbol.newline]) ∧ Opens (d.symbols ++ [Symbol.newline]) := by
    intro d hd
    obtain ⟨hfluent, hopens⟩ := (h.definitions d hd).fluent
    exact ⟨hfluent.append hnewline.1 hnewline.2, hopens.append hnewline.2⟩
  exact (Fluent.flatMap hline).1.append hmain hopens

/-! ### Sequences stay on their line -/

theorem Arithmetic.inline (a : Arithmetic) : ∀ s ∈ a.symbols, s.kind ≠ .newline := by
  have hoperand : ∀ o : Operand, o.symbol.kind ≠ .newline := by
    intro o
    cases o <;> simp [Operand.symbol]
  have hterm : ∀ (t : Term) (signed : Bool), ∀ s ∈ t.symbols signed, s.kind ≠ .newline := by
    intro t signed s hs
    unfold Term.symbols at hs
    split at hs
    · rcases List.mem_pair.1 hs with rfl | rfl
      · simp [minus]
      · exact hoperand _
    · split at hs
      · rcases List.mem_pair.1 hs with rfl | rfl
        · simp [plus]
        · exact hoperand _
      · rw [List.mem_singleton.1 hs]
        exact hoperand _
  intro s hs
  unfold symbols at hs
  split at hs
  · simp at hs
  · rcases List.mem_append.1 hs with hs | hs
    · exact hterm _ _ s hs
    · obtain ⟨t, -, hs⟩ := List.mem_flatMap.1 hs
      exact hterm t true s hs

mutual
theorem Element.inline (e : Element) : ∀ s ∈ e.symbols, s.kind ≠ .newline := by
  match e with
  | .command c _ => simp [Element.symbols]
  | .parameter name _ => simp [Element.symbols]
  | .call callee args _ =>
    rw [Element.symbols, List.forall_mem_cons]
    exact ⟨by simp, forall_mem_enclose (by simp) (by simp [comma]) (by simp)
      (Argument.inline_list args)⟩

theorem Argument.inline (a : Argument) : ∀ s ∈ a.symbols, s.kind ≠ .newline := by
  match a with
  | .parameter name _ => simp [Argument.symbols]
  | .quoted body _ => rw [Argument.symbols]; exact Element.inline_sequence body
  | .arithmetic sum => rw [Argument.symbols]; exact sum.inline

theorem Element.inline_sequence (body : List Element) :
    ∀ s ∈ Element.sequenceSymbols body, s.kind ≠ .newline := by
  match body with
  | [] => simp [Element.sequenceSymbols]
  | e :: rest =>
    rw [Element.sequenceSymbols, List.forall_mem_append]
    exact ⟨Element.inline e, Element.inline_sequence rest⟩

theorem Argument.inline_list (args : List Argument) :
    ∀ m ∈ Argument.listSymbols args, ∀ s ∈ m, s.kind ≠ .newline := by
  match args with
  | [] => simp [Argument.listSymbols]
  | a :: rest =>
    rw [Argument.listSymbols, List.forall_mem_cons]
    exact ⟨Argument.inline a, Argument.inline_list rest⟩
end

/-! ### Nothing is trimmed off -/

theorem Glyph.trim_eq_self {gs : List Glyph} (hfirst : ∀ g ∈ gs.head?, g.blank = false)
    (hlast : ∀ g ∈ gs.getLast?, g.blank = false) : trim gs = gs := by
  have hdrop : ∀ l : List Glyph, (∀ g ∈ l.head?, g.blank = false) → l.dropWhile blank = l := by
    intro l h
    rcases l with - | ⟨g, l⟩
    · rfl
    · have hg : g.blank = false := h g rfl
      rw [List.dropWhile_cons_of_neg (by simp [hg])]
  rw [trim, hdrop gs hfirst, hdrop gs.reverse (by simpa using hlast), List.reverse_reverse]

theorem glyphs_ascii {text : Bytes} (h : ∀ b ∈ text, b.toNat ≤ 127) :
    Bytes.glyphs text = text.map fun b ↦ ⟨Char.ofNat b.toNat, [b]⟩ := by
  induction text with
  | nil => exact Bytes.glyphs_nil
  | cons b rest ih =>
    obtain ⟨hb, hrest⟩ := List.forall_mem_cons.1 h
    have hlt : b < 0x80 := UInt8.lt_iff_toNat_lt.2 (Nat.lt_succ_of_le hb)
    rw [Bytes.glyphs_cons, Bytes.uncons_of_lt hlt, List.map_cons, ih hrest]

theorem trim_eq_self {text : Bytes} (hascii : ∀ b ∈ text, b.toNat ≤ 127)
    (hfirst : ∀ b ∈ text.head?, isBlank (Char.ofNat b.toNat) = false)
    (hlast : ∀ b ∈ text.getLast?, isBlank (Char.ofNat b.toNat) = false) :
    Bytes.trim text = text := by
  rw [Bytes.trim, Glyph.trim_eq_self, Bytes.octets_glyphs]
  · intro g hg
    rw [glyphs_ascii hascii, List.head?_map] at hg
    obtain ⟨b, hb, rfl⟩ := Option.map_eq_some_iff.1 hg
    exact hfirst b hb
  · intro g hg
    rw [glyphs_ascii hascii, List.getLast?_map] at hg
    obtain ⟨b, hb, rfl⟩ := Option.map_eq_some_iff.1 hg
    exact hlast b hb

/-- The alphabet is a part of ASCII, and its only white space is the newline. -/
theorem toNat_of_classify {b : UInt8} {kind : TokenKind} (h : classify b = some kind) :
    b.toNat ≤ 127 ∧ (kind ≠ .newline → 32 < b.toNat) := by
  rcases classify_cases h with ⟨-, hb⟩ | ⟨-, hb, -⟩ | ⟨-, hb⟩ | ⟨-, hb⟩ | hmark
  · rw [isCommand_iff] at hb
    omega
  · rw [Token.isLower_iff] at hb
    omega
  · rw [Token.isUpper_iff] at hb
    omega
  · rw [Token.isDigit_iff] at hb
    omega
  · cases kind <;> simp only [mark?, reduceCtorEq, Option.some.injEq] at hmark <;> subst hmark <;>
      decide

theorem isBlank_ofNat_ascii {n : Nat} (hlow : 32 < n) (hhigh : n ≤ 127) :
    isBlank (Char.ofNat n) = false := by
  simp only [isBlank, charToNat_ofNat_ascii hhigh, Bool.or_eq_false_iff, Bool.and_eq_false_iff,
    decide_eq_false_iff_not, beq_eq_false_iff_ne]
  omega

/-- The octets of some symbols, put together. -/
theorem ofString_spell (symbols : List Symbol) :
    Bytes.ofString (Symbol.spell symbols) = (symbols.map Symbol.shape).flatMap Prod.snd := by
  rw [Symbol.spell, Bytes.ofString, String.toList_ofList, Bytes.ofChars, List.flatMap_assoc,
    List.flatMap_map]
  rfl

namespace Token

variable {xs : List (TokenKind × Bytes)} {b : UInt8}

theorem exists_of_head? (h : ∀ x ∈ xs, Spells x.1 x.2) (hb : b ∈ (xs.flatMap Prod.snd).head?) :
    ∃ x ∈ xs.head?, classify b = some x.1 := by
  rcases xs with - | ⟨x, xs⟩
  · simp at hb
  · obtain ⟨hne, hall⟩ := (h x (List.mem_cons_self ..)).classify_of_mem
    rw [List.flatMap_cons, List.head?_append_of_ne_nil _ hne] at hb
    exact ⟨x, rfl, hall b (List.mem_of_mem_head? hb)⟩

theorem exists_of_getLast? (h : ∀ x ∈ xs, Spells x.1 x.2)
    (hb : b ∈ (xs.flatMap Prod.snd).getLast?) : ∃ x ∈ xs.getLast?, classify b = some x.1 := by
  rcases List.eq_nil_or_concat xs with rfl | ⟨ys, x, rfl⟩
  · simp at hb
  · rw [List.concat_eq_append] at h hb ⊢
    obtain ⟨hne, hall⟩ := (h x (by simp)).classify_of_mem
    have hne' : [x].flatMap Prod.snd ≠ [] := by simpa using hne
    rw [List.flatMap_append, List.getLast?_append_of_ne_nil _ hne'] at hb
    refine ⟨x, by simp, hall b ?_⟩
    simpa using List.mem_of_getLast? hb

/-- A text that starts and ends within a line has nothing to trim. -/
theorem trim_spelled (h : ∀ x ∈ xs, Spells x.1 x.2) (hfirst : ∀ x ∈ xs.head?, x.1 ≠ .newline)
    (hlast : ∀ x ∈ xs.getLast?, x.1 ≠ .newline) :
    Bytes.trim (xs.flatMap Prod.snd) = xs.flatMap Prod.snd := by
  refine trim_eq_self (fun b hb ↦ ?_) (fun b hb ↦ ?_) fun b hb ↦ ?_
  · obtain ⟨x, hx, hb⟩ := List.mem_flatMap.1 hb
    exact (toNat_of_classify ((h x hx).classify_of_mem.2 b hb)).1
  · obtain ⟨x, hx, hclass⟩ := exists_of_head? h hb
    obtain ⟨hhigh, hlow⟩ := toNat_of_classify hclass
    exact isBlank_ofNat_ascii (hlow (hfirst x hx)) hhigh
  · obtain ⟨x, hx, hclass⟩ := exists_of_getLast? h hb
    obtain ⟨hhigh, hlow⟩ := toNat_of_classify hclass
    exact isBlank_ofNat_ascii (hlow (hlast x hx)) hhigh

end Token

/-- A program starts and ends within a line. -/
theorem Program.symbols_ends {p : Program} (h : p.main ≠ []) :
    (∀ s ∈ p.symbols.head?, s.kind ≠ .newline) ∧ ∀ s ∈ p.symbols.getLast?, s.kind ≠ .newline := by
  have hne : Element.sequenceSymbols p.main ≠ [] := by
    rcases hmain : p.main with - | ⟨e, rest⟩
    · exact absurd hmain h
    · cases e <;> simp [Element.sequenceSymbols, Element.symbols]
  constructor
  · intro s hs
    rcases hds : p.definitions with - | ⟨d, ds⟩
    · rw [symbols, hds] at hs
      exact Element.inline_sequence p.main s (List.mem_of_mem_head? hs)
    · simp only [symbols, hds, List.flatMap_cons, Definition.symbols, List.cons_append,
        List.head?_cons, Option.mem_some_iff] at hs
      simp [← hs]
  · intro s hs
    rw [symbols, List.getLast?_append_of_ne_nil _ hne] at hs
    exact Element.inline_sequence p.main s (List.mem_of_getLast? hs)

/-- **The text of a well-formed program is scanned into its symbols.** -/
theorem Program.WellFormed.scan_render {p : Program} (h : p.WellFormed) :
    (scan (Bytes.trim (Bytes.ofString p.render))).tokens.map Token.shape =
        p.symbols.map Symbol.shape ∧
      (scan (Bytes.trim (Bytes.ofString p.render))).last.kind = .finish := by
  obtain ⟨hspells, hapart⟩ := h.fluent
  obtain ⟨hfirst, hlast⟩ := p.symbols_ends h.main_ne_nil
  have hshapes : ∀ x ∈ p.symbols.map Symbol.shape, Spells x.1 x.2 := by
    intro x hx
    obtain ⟨s, hs, rfl⟩ := List.mem_map.1 hx
    exact hspells s hs
  have htrim : Bytes.trim (Bytes.ofString p.render) =
      (p.symbols.map Symbol.shape).flatMap Prod.snd := by
    rw [render, ofString_spell]
    refine Token.trim_spelled hshapes ?_ ?_
    · intro x hx
      rw [List.head?_map] at hx
      obtain ⟨s, hs, rfl⟩ := Option.map_eq_some_iff.1 hx
      exact hfirst s hs
    · intro x hx
      rw [List.getLast?_map] at hx
      obtain ⟨s, hs, rfl⟩ := Option.map_eq_some_iff.1 hx
      exact hlast s hs
  rw [htrim]
  exact scan_spelled _ hshapes ((List.isChain_map Symbol.shape).2 hapart)

end RobotGolf
