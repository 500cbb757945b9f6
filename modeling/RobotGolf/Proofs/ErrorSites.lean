import RobotGolf.Proofs.FaultyLines
import RobotGolf.Proofs.Legible
/-!
# Errors are reported at the earliest token

A syntax error names a token. The tokens before it are those with which the text of some program
begins (`Viable`), and the tokens up to and including it are not, with one exception: inside of the
list of a head, where a text could go on as a call. `error_at_earliest_token` puts this together
with what the message says.

What is known about faults among tokens is moved to texts here, and the question is which texts have
the same tokens.

* **Completions.** The octets of the tokens before the fault, with those of the completing ones
  behind them, are scanned into these tokens again (`viable_of_completable`). No number is among the
  completing tokens, and a program neither starts nor ends with a line end, so nothing runs into
  each other and nothing is trimmed.
* **Places.** A token holds its place, and what begins another text in the same way should not have
  to stand at the same place. But from the front of a text the kinds and lexemes determine the
  places (`scanFrom_eq_laidOut`), so it does.
-/

namespace RobotGolf

/-! ### Prefixes of a scan -/

namespace Token

/-- The tokens with the given kinds and lexemes, one behind the other from an offset on. -/
def laidOut (offset : ℕ) (before : Place) : List (TokenKind × Bytes) → List Token
  | [] => []
  | x :: shapes =>
    ⟨x.1, x.2, ⟨offset, offset + x.2.length⟩, before.passOctet (x.2.headD 0)⟩ ::
      laidOut (offset + x.2.length) (x.2.foldl Place.passOctet before) shapes

@[simp]
theorem length_laidOut (offset : ℕ) (before : Place) (shapes : List (TokenKind × Bytes)) :
    (laidOut offset before shapes).length = shapes.length := by
  induction shapes generalizing offset before with
  | nil => rfl
  | cons x shapes ih => simp [laidOut, ih]

theorem laidOut_mono {shapes shapes' : List (TokenKind × Bytes)} (h : shapes <+: shapes')
    (offset : ℕ) (before : Place) :
    laidOut offset before shapes <+: laidOut offset before shapes' := by
  induction shapes generalizing shapes' offset before with
  | nil => exact List.nil_prefix
  | cons x shapes ih =>
    obtain ⟨more, rfl⟩ := h
    exact List.cons_prefix_cons.2 ⟨rfl, ih (List.prefix_append ..) _ _⟩

theorem headD_cut (b : UInt8) (rest : Bytes) : (cut b rest).1.headD 0 = b := by
  unfold cut
  split <;> rfl

theorem scanFrom_eq_laidOut (finish : Token) (offset : ℕ) (before : Place) (text : Bytes) :
    (scanFrom finish offset before text).1 =
      laidOut offset before ((scanFrom finish offset before text).1.map shape) := by
  fun_induction scanFrom finish offset before text with
  | case1 => rfl
  | case2 => rfl
  | case3 offset before b rest kind hkind lexeme token behind ih =>
    refine congrArg₂ List.cons ?_ ih
    show token = ⟨kind, lexeme, ⟨offset, offset + lexeme.length⟩, before.passOctet (lexeme.headD 0)⟩
    rw [headD_cut]

theorem tokens_scan (text : Bytes) :
    (scan text).tokens = laidOut 0 Place.beforeOctets ((scan text).tokens.map shape) :=
  scanFrom_eq_laidOut (finish text) 0 Place.beforeOctets text

theorem tokens_scan_congr {text text' : Bytes}
    (h : (scan text).tokens.map shape = (scan text').tokens.map shape) :
    (scan text).tokens = (scan text').tokens := by
  rw [tokens_scan text, h, ← tokens_scan text']

/-- **Kinds and lexemes determine the places** at the front of a scan. -/
theorem prefix_scan {text text' : Bytes} {front : List Token} (h : front <+: (scan text).tokens)
    (h' : front.map shape <+: (scan text').tokens.map shape) : front <+: (scan text').tokens := by
  have hfront : front = laidOut 0 Place.beforeOctets (front.map shape) := by
    have hother := laidOut_mono (h.map shape) 0 Place.beforeOctets
    rw [← tokens_scan] at hother
    exact (List.prefix_of_prefix_length_le h hother (by simp)).eq_of_length (by simp)
  rw [hfront, tokens_scan text']
  exact laidOut_mono h' 0 Place.beforeOctets

theorem exists_of_head?_scanFrom {finish t : Token} {offset : ℕ} {before : Place} {text : Bytes}
    (h : t ∈ (scanFrom finish offset before text).1.head?) :
    ∃ b ∈ text.head?, classify b = some t.kind := by
  rcases text with - | ⟨b, rest⟩ <;> rw [scanFrom] at h
  · cases h
  · split at h
    · cases h
    · next kind hkind =>
      rw [List.head?_cons, Option.mem_some_iff] at h
      exact ⟨b, rfl, by rw [hkind, ← h]⟩

/-- A number is cut off in front of an octet that is no digit. -/
theorem isDigit_of_head?_cut {b c : UInt8} {rest : Bytes} (hb : isDigit b = true)
    (h : c ∈ (cut b rest).2.head?) : isDigit c = false := by
  rw [cut, if_pos hb] at h
  have hnot := List.head?_dropWhile_not isDigit rest
  rwa [Option.mem_def.1 h] at hnot

theorem isChain_scanFrom (finish : Token) (offset : ℕ) (before : Place) (text : Bytes) :
    ((scanFrom finish offset before text).1.map shape).IsChain Apart := by
  fun_induction scanFrom finish offset before text with
  | case1 => exact .nil
  | case2 => exact .nil
  | case3 offset before b rest kind hkind lexeme token behind ih =>
    rw [List.map_cons, List.isChain_cons]
    refine ⟨fun x hx hnumber ↦ ?_, ih⟩
    rw [List.head?_map] at hx
    obtain ⟨t, ht, rfl⟩ := Option.map_eq_some_iff.1 hx
    intro hagain
    obtain ⟨c, hc, hclass⟩ := exists_of_head?_scanFrom ht
    have hdigit : isDigit c = true := classify_eq_number_iff.1 (hclass.trans (congrArg some hagain))
    have hkind : classify b = some .number := hkind.trans (congrArg some hnumber)
    rw [isDigit_of_head?_cut (classify_eq_number_iff.1 hkind) hc] at hdigit
    cases hdigit

/-- A scan ends at the end of the text or at an illegal character. -/
theorem kind_last_scanFrom {finish : Token} (hfinish : finish.kind = .finish) (offset : ℕ)
    (before : Place) (text : Bytes) :
    (scanFrom finish offset before text).2.kind = .finish ∨
      (scanFrom finish offset before text).2.kind = .illegal := by
  fun_induction scanFrom finish offset before text with
  | case1 => exact Or.inl hfinish
  | case2 => exact Or.inr rfl
  | case3 offset before b rest kind hkind lexeme token behind ih => exact ih

theorem kind_last_scan (text : Bytes) :
    (scan text).last.kind = .finish ∨ (scan text).last.kind = .illegal :=
  kind_last_scanFrom rfl 0 Place.beforeOctets text

end Token

namespace Grammar

open Parse Token

/-! ### Texts that begin in the same way -/

/-- Tokens with which the text of some program begins, whatever their places. The end of the text
counts as a token. -/
def Viable (tokens : List Token) : Prop :=
  ∃ source p, Program.parse source = .ok p ∧
    tokens.map shape <+: ((scan (Bytes.trim source)).deliver 0).map shape

theorem map_shape_deliver (scan : Scan) :
    (scan.deliver 0).map shape = scan.tokens.map shape ++ [scan.last.shape] := by
  simp [Scan.deliver]

theorem exists_parse {source : Bytes} (h : IsProgram (scan (Bytes.trim source)).tokens)
    (hlast : (scan (Bytes.trim source)).last.kind = .finish) :
    ∃ p, Program.parse source = .ok p := by
  obtain ⟨ds, s, ss, heq⟩ := h
  refine ⟨_, parse_eq_tree ⟨ds, s, ss, ⟨_, hlast⟩⟩ ?_⟩
  rw [Sentence.tokens_eq, Scan.deliver, heq]
  rfl

/-- The octet that stands for a completing token. -/
def Filler.octet : Filler → UInt8
  | command => 115
  | parameter => 65
  | rightParen => 41
  | newline => 10

/-- A completing token without its place. -/
def Filler.shape (x : Filler) : TokenKind × Bytes := (x.kind, [x.octet])

theorem Filler.spells (x : Filler) : Spells x.shape.1 x.shape.2 :=
  ⟨x.octet, [], rfl, by cases x <;> rfl, by simp⟩

theorem Filler.apart (x : Filler) (y : TokenKind × Bytes) : Apart y x.shape :=
  fun _ ↦ by cases x <;> simp [Filler.shape, Filler.kind]

theorem Statement.kind_getLast? (s : Statement) :
    ∀ t ∈ s.tokens.getLast?, t.kind ≠ .newline := by
  intro t ht
  cases s with
  | command u =>
    obtain rfl : u.token = t := by simpa [Statement.tokens] using ht
    simp [u.kind_eq]
  | plain name =>
    obtain rfl : name.token = t := by simpa [Statement.tokens] using ht
    simp [name.kind_eq]
  | applied name left args right =>
    rw [Statement.tokens, ← List.cons_append, ← List.cons_append, List.getLast?_concat,
      Option.mem_some_iff] at ht
    simp [← ht, right.kind_eq]

/-- A program starts and ends within a line. -/
theorem IsProgram.inline {tokens : List Token} (h : IsProgram tokens) :
    (∀ t ∈ tokens.head?, t.kind ≠ .newline) ∧ ∀ t ∈ tokens.getLast?, t.kind ≠ .newline := by
  obtain ⟨ds, s, ss, rfl⟩ := h
  constructor
  · intro t ht
    rcases ds with - | ⟨d, ds⟩
    · obtain ⟨u, behind, heq, hk⟩ := s.exists_tokens_eq
      obtain rfl : u = t := by simpa [heq] using ht
      rcases hk with hk | hk <;> simp [hk]
    · obtain rfl : d.name.token = t := by simpa [Procedure.tokens] using ht
      simp [d.name.kind_eq]
  · intro t ht
    obtain ⟨others, last, hlast⟩ : ∃ others last, s :: ss = others ++ [last] := by
      rcases List.eq_nil_or_concat (s :: ss) with hnil | ⟨others, last, heq⟩
      · cases hnil
      · exact ⟨others, last, by rw [heq, List.concat_eq_append]⟩
    have hne : last.tokens ≠ [] := by
      obtain ⟨u, behind, heq, -⟩ := last.exists_tokens_eq
      simp [heq]
    rw [hlast, List.flatMap_append, List.flatMap_singleton, ← List.append_assoc,
      List.getLast?_append_of_ne_nil _ hne] at ht
    exact last.kind_getLast? t ht

section Completion

variable {text : Bytes} {before : List Token}

theorem spells_completed (hbefore : before <+: (scan text).tokens) (fill : List Filler) :
    ∀ x ∈ before.map shape ++ fill.map Filler.shape, Spells x.1 x.2 := by
  intro x hx
  rcases List.mem_append.1 hx with hx | hx
  · obtain ⟨t, ht, rfl⟩ := List.mem_map.1 hx
    exact spells_of_mem_scan (hbefore.subset ht)
  · obtain ⟨y, -, rfl⟩ := List.mem_map.1 hx
    exact y.spells

theorem isChain_completed (hbefore : before <+: (scan text).tokens) (fill : List Filler) :
    (before.map shape ++ fill.map Filler.shape).IsChain Apart := by
  have hfill : (fill.map Filler.shape).IsChain Apart := by
    refine (List.isChain_map Filler.shape).2 (List.Pairwise.isChain ?_)
    exact List.pairwise_of_forall fun x y ↦ y.apart x.shape
  refine List.isChain_append.2 ⟨?_, hfill, fun x _ y hy ↦ ?_⟩
  · exact List.IsChain.prefix (isChain_scanFrom (finish text) 0 Place.beforeOctets text)
      (hbefore.map shape)
  · obtain ⟨z, -, rfl⟩ := List.mem_map.1 (List.mem_of_mem_head? hy)
    exact z.apart x

/-- The front of a scan can be followed by completing tokens: there is a text with these tokens. -/
theorem exists_completed (hbefore : before <+: (scan text).tokens) (fill : List Filler) :
    ∃ behind : List Token, behind.map Token.kind = fill.map Filler.kind ∧
      (scan (((before ++ behind).map shape).flatMap Prod.snd)).tokens = before ++ behind ∧
      (scan (((before ++ behind).map shape).flatMap Prod.snd)).last.kind = .finish := by
  obtain ⟨hshapes, hlast⟩ :=
    scan_spelled _ (spells_completed hbefore fill) (isChain_completed hbefore fill)
  obtain ⟨front, behind, htokens, hfront, hbehind⟩ := List.map_eq_append_iff.1 hshapes
  -- The places are those of the given front.
  obtain rfl : before = front := by
    have hpre : before <+: front ++ behind := by
      rw [← htokens]
      refine prefix_scan hbefore ?_
      rw [hshapes]
      exact List.prefix_append ..
    have hlength : before.length = front.length := by
      simpa using (congrArg List.length hfront).symm
    exact (List.prefix_of_prefix_length_le hpre (List.prefix_append ..) hlength.le).eq_of_length
      hlength
  have hall : (before ++ behind).map shape = before.map shape ++ fill.map Filler.shape := by
    rw [List.map_append, hbehind]
  refine ⟨behind, ?_, by rw [hall, htokens], by rw [hall, hlast]⟩
  have := congrArg (List.map Prod.fst) hbehind
  simpa [Function.comp_def, shape, Filler.shape] using this

/-- **What can be completed is viable.** -/
theorem viable_of_completable (hbefore : before <+: (scan text).tokens)
    (h : Completable IsProgram before) : Viable before := by
  obtain ⟨fill, hfill⟩ := h
  obtain ⟨behind, hkinds, htokens, hlast⟩ := exists_completed hbefore fill
  have hprogram := hfill behind hkinds
  have htrim : Bytes.trim (((before ++ behind).map shape).flatMap Prod.snd) =
      ((before ++ behind).map shape).flatMap Prod.snd := by
    refine trim_spelled (fun x hx ↦ ?_) (fun x hx ↦ ?_) (fun x hx ↦ ?_)
    · obtain ⟨t, ht, rfl⟩ := List.mem_map.1 hx
      exact spells_of_mem_scan (htokens ▸ ht)
    · rw [List.head?_map] at hx
      obtain ⟨t, ht, rfl⟩ := Option.map_eq_some_iff.1 hx
      exact hprogram.inline.1 t ht
    · rw [List.getLast?_map] at hx
      obtain ⟨t, ht, rfl⟩ := Option.map_eq_some_iff.1 hx
      exact hprogram.inline.2 t ht
  obtain ⟨p, hp⟩ := exists_parse (by rwa [htrim, htokens]) (by rwa [htrim])
  refine ⟨((before ++ behind).map shape).flatMap Prod.snd, p, hp, ?_⟩
  rw [htrim, map_shape_deliver, htokens, List.map_append, List.append_assoc]
  exact List.prefix_append ..

/-- **What is refused in every text is not viable.** -/
theorem not_viable_of_refuses {t : Token} (hfront : before ++ [t] <+: (scan text).tokens)
    (h : ∀ stop after, Refuses stop (before ++ t :: after)) : ¬Viable (before ++ [t]) := by
  rintro ⟨source, p, hp, hshapes⟩
  obtain ⟨-, -, -, hlast⟩ := exists_tokens_of_parse hp
  rw [map_shape_deliver, List.prefix_concat_iff] at hshapes
  rcases hshapes with heq | hshapes
  · -- The end of the text is no token of it.
    rw [List.map_append, List.map_singleton] at heq
    have hkind : t.kind = .finish :=
      (congrArg Prod.fst (List.cons.inj (List.append_inj' heq rfl).2).1).trans hlast
    exact (spells_of_mem_scan (hfront.subset (by simp))).ne_last.1 hkind
  · obtain ⟨after, hafter⟩ := prefix_scan hfront hshapes
    rw [List.append_assoc, List.singleton_append] at hafter
    obtain ⟨f, hf⟩ := refuses_iff.1 (hafter ▸ h (scan (Bytes.trim source)).last after)
    rw [Program.parse, hf] at hp
    cases hp

end Completion

/-- A text that is refused is not viable together with its end. -/
theorem not_viable_deliver {source : Bytes} {e : SyntaxError}
    (h : Program.parse source = .error e) : ¬Viable ((scan (Bytes.trim source)).deliver 0) := by
  rintro ⟨source', p, hp, hshapes⟩
  obtain ⟨d, -, htokens, hlast⟩ := exists_tokens_of_parse hp
  rw [map_shape_deliver, map_shape_deliver, List.prefix_concat_iff] at hshapes
  rcases hshapes with heq | hinner
  · -- The tokens of the two texts are the same, so both are programs.
    obtain ⟨hsame, hend⟩ := List.append_inj' heq rfl
    have hkind : (scan (Bytes.trim source)).last.kind = .finish :=
      (congrArg Prod.fst (List.cons.inj hend).1).trans hlast
    rw [← tokens_scan_congr hsame] at htokens
    obtain ⟨p', hp'⟩ := exists_parse ⟨d.procedures, d.first, d.others, htokens.symm⟩ hkind
    rw [h] at hp'
    cases hp'
  · -- What ended the scan of one text is no token of the other.
    obtain ⟨u, hu, hshape⟩ := List.mem_map.1 (hinner.subset (List.mem_append_right _
      (List.mem_singleton_self _)))
    have hkind : u.kind = (scan (Bytes.trim source)).last.kind := congrArg Prod.fst hshape
    have hspells := (spells_of_mem_scan hu).ne_last
    rw [hkind] at hspells
    exact (kind_last_scan (Bytes.trim source)).elim hspells.1 hspells.2

/-- The numbers of a text are numerals. -/
theorem numerals_scan (text : Bytes) : Numerals (scan text).tokens := by
  intro t ht hkind
  have hspells := spells_of_mem_scan ht
  rw [hkind] at hspells
  rw [numeral?_eq_some_iff.2 (numeral_of_spells hspells)]
  exact Option.some_ne_none _

/-! ### Messages -/

theorem message_illegalCharacter (lexeme : Bytes) :
    (SyntaxCause.illegalCharacter lexeme).message =
      "illegal character " ++ Quoted.quote lexeme := rfl

/-- The wordings of the causes differ already in their first letters. -/
theorem head?_message (cause : SyntaxCause) :
    cause.message.toList.head? = some (match cause with
      | .illegalCharacter _ => 'i'
      | .unexpected .. => 'u'
      | .duplicateParameter .. => 'd'
      | .parameterOutside _ => 'p'
      | .malformedLiteral _ => 'm') := by
  -- `delta`, as the equations of a definition about text are slow to derive.
  cases cause <;> delta SyntaxCause.message <;> simp [String.toList_append]

theorem exists_illegalCharacter_of_message {cause : SyntaxCause} {text : String}
    (h : cause.message = "illegal character " ++ text) :
    ∃ lexeme, cause = .illegalCharacter lexeme := by
  have hletter := head?_message cause
  rw [h] at hletter
  cases cause with
  | illegalCharacter lexeme => exact ⟨lexeme, rfl⟩
  | _ => simp [String.toList_append] at hletter

/-- The message of a fault is worded like an illegal character if and only if its token is one. -/
theorem message_of_apt {f : Fault} (h : f.Apt) :
    ((∃ text, f.cause.message = "illegal character " ++ text) ↔ f.token.kind = .illegal) ∧
      (f.token.kind = .illegal →
        f.cause.message = "illegal character " ++ Quoted.quote f.token.lexeme) := by
  rw [Fault.Apt] at h
  by_cases hk : f.token.kind = .illegal
  · rw [if_pos hk] at h
    have hmessage := message_illegalCharacter f.token.lexeme
    rw [← h] at hmessage
    exact ⟨iff_of_true ⟨_, hmessage⟩ hk, fun _ ↦ hmessage⟩
  · rw [if_neg hk] at h
    refine ⟨iff_of_false ?_ hk, fun hillegal ↦ absurd hillegal hk⟩
    rintro ⟨text, htext⟩
    obtain ⟨lexeme, hcause⟩ := exists_illegalCharacter_of_message htext
    exact h lexeme hcause

/-! ### Errors -/

/-- **A syntax error is reported at the earliest token.** It names a token before which everything
could be the beginning of a program, and with it nothing can, unless it is inside of the list of a
head. The message speaks of an illegal character if and only if the token is one. -/
theorem error_at_earliest_token (source : Bytes) (e : SyntaxError)
    (h : Program.parse source = .error e) :
    ∃ (before after : List Token) (t : Token),
      (scan (Bytes.trim source)).deliver 0 = before ++ t :: after ∧
      e.span = t.span.shift (Program.lead source) ∧
      Viable before ∧ (¬InsideHead before t after → ¬Viable (before ++ [t])) ∧
      ((∃ text, e.cause.message = "illegal character " ++ text) ↔ t.kind = .illegal) ∧
      (t.kind = .illegal → e.cause.message = "illegal character " ++ Quoted.quote t.lexeme) := by
  have herror := h
  rw [Program.parse] at herror
  rcases hscan : Program.ofScan (scan (Bytes.trim source)) with f | p <;>
    simp only [hscan, reduceCtorEq, Except.error.injEq] at herror
  subst herror
  obtain ⟨before, ahead, htokens, hsite⟩ := exists_site (numerals_scan _) hscan
  have hviable : Viable before :=
    viable_of_completable ⟨ahead, htokens.symm⟩ hsite.completable
  have hmessage := message_of_apt hsite.apt
  rcases ahead with - | ⟨t, behind⟩
  · obtain htoken : f.token = (scan (Bytes.trim source)).last := hsite.token_eq
    rw [htoken] at hmessage
    rw [List.append_nil] at htokens
    refine ⟨before, [], (scan (Bytes.trim source)).last, by rw [Scan.deliver, htokens]; rfl, ?_,
      hviable, fun _ ↦ ?_, hmessage⟩
    · rw [← htoken]
      rfl
    · have hall := not_viable_deliver h
      rwa [Scan.deliver, htokens] at hall
  · obtain rfl : f.token = t := hsite.token_eq
    refine ⟨before, behind ++ [(scan (Bytes.trim source)).last], f.token, ?_, rfl, hviable,
      fun houtside ↦ ?_, hmessage⟩
    · rw [Scan.deliver, htokens]
      simp
    · rcases hsite.refuses f.token behind rfl with hinside | hrefuses
      · exact absurd (hinside.append_right _) houtside
      · have hfront : before ++ [f.token] <+: (scan (Bytes.trim source)).tokens := by
          rw [htokens]
          exact ⟨behind, by simp⟩
        exact not_viable_of_refuses hfront hrefuses

/-- `a(1+)s` with two blanks before it. -/
def dangling : Bytes := [0x20, 0x20, 0x61, 0x28, 0x31, 0x2B, 0x29, 0x73]

/-- The sum lacks an operand: the parenthesis is reported, and `a(1+` is how a program may begin. -/
theorem dangling_reported :
    Program.parse dangling =
        .error ⟨⟨1, 7⟩, ⟨6, 7⟩, .unexpected .rightParen [0x29] .operand⟩ ∧
      ∃ (before after : List Token) (t : Token),
        (scan (Bytes.trim dangling)).deliver 0 = before ++ t :: after ∧ t.span.shift 2 = ⟨6, 7⟩ ∧
        Viable before ∧ ¬Viable (before ++ [t]) ∧ t.kind ≠ .illegal := by
  have hparse : Program.parse dangling =
      .error ⟨⟨1, 7⟩, ⟨6, 7⟩, .unexpected .rightParen [0x29] .operand⟩ := by decide +kernel
  have hlead : Program.lead dangling = 2 := by decide +kernel
  have hkinds : ((scan (Bytes.trim dangling)).deliver 0).map Token.kind =
      [.procedure, .leftParen, .number, .plus, .rightParen, .command, .finish] := by decide +kernel
  obtain ⟨before, after, t, htokens, hspan, hviable, hnot, -⟩ :=
    error_at_earliest_token dangling _ hparse
  have hkind : ∀ kind ∈ (before ++ t :: after).map Token.kind,
      kind ≠ .colon ∧ kind ≠ .illegal := by
    rw [← htokens, hkinds]
    decide
  refine ⟨hparse, before, after, t, htokens, by rw [← hlead, ← hspan], hviable, hnot ?_,
    (hkind t.kind (by simp)).2⟩
  -- There is no head without a colon.
  rintro ⟨-, -, inner', rest, -, -, right, colon, -, rfl, -, -, -, -, -, hcolon⟩
  exact (hkind colon.kind (by simp)).1 hcolon

end Grammar

end RobotGolf
