import RobotGolf.Proofs.RoundTrip
/-!
# The canonical text of a program is its source

A program that was read from a source and is spelled again gives the trimmed source back. Only the
numbers may differ, which lose the zeros in front (`Program.render_keeps_source`). What this means
for a text is said without mention of tokens, by `Bytes.shortenRuns`.

* **The symbols of a derived tree show the tokens that it was derived from**, one by one and in
  order, by recursion over the derivation (`Statement.prints`, …). `Prints` says what "show" means:
  the kinds are the same, and so are the texts once the numbers are shortened.
* **A number is spelled without zeros in front** (`ofString_toString_decimal`), whatever digits it
  was read from.
* **Shortening the numbers of a scan is shortening the runs of digits of its text**
  (`flatMap_canonical_scanFrom`), since a scan takes a run of digits as a whole.

That the canonical text is read again, and as the same tree up to spans, is known
(`Grammar.parse_render`); and spelling does not look at spans (`Program.symbols_erase`).
-/

namespace RobotGolf

open Token

/-! ### Runs of digits -/

namespace Bytes

/-- A run of digits without the zeros in front. Its last digit stays in any case, so of a run of
zeros a single one is left. -/
def shortenRun : Bytes → Bytes
  | [] => []
  | [b] => [b]
  | b :: c :: rest => if b = 48 then shortenRun (c :: rest) else b :: c :: rest

/-- A text in which every maximal run of digits has lost the zeros in front. -/
def shortenRuns : Bytes → Bytes
  | [] => []
  | b :: rest =>
    if isDigit b then
      shortenRun (b :: rest.takeWhile isDigit) ++ shortenRuns (rest.dropWhile isDigit)
    else b :: shortenRuns rest
termination_by text => text.length
decreasing_by
  · exact Nat.lt_succ_of_le (List.dropWhile_sublist _).length_le
  · exact Nat.lt_succ_self _

end Bytes

/-! ### Numbers -/

/-- The octet of a digit, from its value. -/
theorem ofNat_digitChar {b : UInt8} (h : isDigit b = true) :
    UInt8.ofNat (Nat.digitChar (b.toNat - 48)).toNat = b := by
  have hrange := isDigit_iff.1 h
  have hvalues : ∀ k < 10, UInt8.ofNat (Nat.digitChar k).toNat = UInt8.ofNat (48 + k) := by decide
  rw [hvalues _ (by omega), Nat.add_sub_cancel' hrange.1, UInt8.ofNat_toNat]

theorem ofString_toString_digit {b : UInt8} (h : isDigit b = true) :
    Bytes.ofString (toString (b.toNat - 48)) = [b] := by
  have hrange := isDigit_iff.1 h
  rw [ofString_toString, Nat.toDigits_of_lt_base (by omega), List.map_singleton, ofNat_digitChar h]

/-- A digit behind a positive number is written behind it. -/
theorem ofString_toString_append {n : ℕ} {b : UInt8} (hn : 1 ≤ n) (h : isDigit b = true) :
    Bytes.ofString (toString (10 * n + (b.toNat - 48))) = Bytes.ofString (toString n) ++ [b] := by
  have hrange := isDigit_iff.1 h
  have hdiv : (10 * n + (b.toNat - 48)) / 10 = n := by omega
  have hmod : (10 * n + (b.toNat - 48)) % 10 = b.toNat - 48 := by omega
  rw [ofString_toString, ofString_toString, Nat.toDigits_of_base_le (by omega) (by omega), hdiv,
    hmod, List.map_append, List.map_singleton, ofNat_digitChar h]

theorem decimal_singleton (b : UInt8) : Parse.decimal [b] = b.toNat - 48 := by
  rw [Parse.decimal, List.foldl_cons, List.foldl_nil, Nat.mul_zero, Nat.zero_add]

theorem decimal_concat (digits : Bytes) (b : UInt8) :
    Parse.decimal (digits ++ [b]) = 10 * Parse.decimal digits + (b.toNat - 48) := by
  rw [Parse.decimal, Parse.decimal, List.foldl_append, List.foldl_cons, List.foldl_nil]

/-- Digits that do not start with a zero are the digits of their value, which is positive. -/
theorem ofString_toString_of_ne_zero {b : UInt8} {rest : Bytes} (hb : b ≠ 48)
    (h : ∀ c ∈ b :: rest, isDigit c = true) : 1 ≤ Parse.decimal (b :: rest) ∧
      Bytes.ofString (toString (Parse.decimal (b :: rest))) = b :: rest := by
  -- the last digit is the one that a division by ten takes off
  induction rest using List.reverseRecOn with
  | nil =>
    have hdigit := h b (List.mem_cons_self ..)
    have hrange := isDigit_iff.1 hdigit
    have hne : b.toNat ≠ 48 := fun heq ↦ hb (UInt8.toNat_inj.1 heq)
    rw [decimal_singleton, ofString_toString_digit hdigit]
    exact ⟨by omega, rfl⟩
  | append_singleton rest c ih =>
    rw [← List.cons_append] at h ⊢
    obtain ⟨hfront, hc⟩ := List.forall_mem_append.1 h
    obtain ⟨hpos, hdigits⟩ := ih hfront
    rw [decimal_concat, ofString_toString_append hpos (hc c (List.mem_singleton_self c)), hdigits]
    exact ⟨by omega, rfl⟩

/-- **A number is spelled without zeros in front.** -/
theorem ofString_toString_decimal {digits : Bytes} (h : Spells .number digits) :
    Bytes.ofString (toString (Parse.decimal digits)) = Bytes.shortenRun digits := by
  obtain ⟨hne, hdigits⟩ := spells_number_iff.1 h
  clear h
  fun_induction Bytes.shortenRun digits with
  | case1 => exact absurd rfl hne
  | case2 b =>
    rw [decimal_singleton]
    exact ofString_toString_digit (hdigits b (List.mem_cons_self ..))
  | case3 c rest ih =>
    have hvalue : Parse.decimal (48 :: c :: rest) = Parse.decimal (c :: rest) := rfl
    rw [hvalue]
    exact ih (List.cons_ne_nil _ _) fun d hd ↦ hdigits d (List.mem_cons_of_mem _ hd)
  | case4 b c rest hb => exact (ofString_toString_of_ne_zero hb hdigits).2

/-! ### Symbols that show tokens -/

/-- A token without its place, a number being shortened. -/
def Token.canonicalShape (t : Token) : TokenKind × Bytes :=
  (t.kind, if t.kind = .number then Bytes.shortenRun t.lexeme else t.lexeme)

/-- Shortening the numbers of a scan shortens the runs of digits of its text. -/
theorem flatMap_canonical_scanFrom {finish : Token} {offset : ℕ} {before : Place} {text : Bytes}
    (h : (scanFrom finish offset before text).2.kind = .finish) :
    ((scanFrom finish offset before text).1.map canonicalShape).flatMap Prod.snd =
      Bytes.shortenRuns text := by
  fun_induction scanFrom finish offset before text with
  | case1 offset before => rw [Bytes.shortenRuns]; rfl
  | case2 offset before b rest hclass => simp [illegalAt] at h
  | case3 offset before b rest kind hkind lexeme token behind ih =>
    rw [List.map_cons, List.flatMap_cons, ih h, Bytes.shortenRuns]
    by_cases hdigit : isDigit b = true
    · have hnumber : token.kind = .number := eq_number_of_isDigit hkind hdigit
      have hlexeme : token.lexeme = b :: rest.takeWhile isDigit := by
        show (cut b rest).1 = _
        rw [cut, if_pos hdigit]
      have hrest : (cut b rest).2 = rest.dropWhile isDigit := by rw [cut, if_pos hdigit]
      rw [if_pos hdigit, canonicalShape, if_pos hnumber, hlexeme, hrest]
    · have hnumber : token.kind ≠ .number := by
        rintro rfl
        exact hdigit (classify_eq_number_iff.1 hkind)
      have hlexeme : token.lexeme = [b] := by
        show (cut b rest).1 = _
        rw [cut, if_neg hdigit]
      have hrest : (cut b rest).2 = rest := by rw [cut, if_neg hdigit]
      rw [if_neg hdigit, canonicalShape, if_neg hnumber, hlexeme, hrest]
      rfl

/-- Of every punctuation mark there is one octet. -/
theorem eq_of_classify_mark {kind : TokenKind} {b c : UInt8} (hmark : mark? kind = some b)
    (hc : classify c = some kind) : c = b := by
  rcases classify_cases hc with ⟨rfl, -⟩ | ⟨rfl, -⟩ | ⟨rfl, -⟩ | ⟨rfl, -⟩ | hc
  · simp [mark?] at hmark
  · simp [mark?] at hmark
  · simp [mark?] at hmark
  · simp [mark?] at hmark
  · exact Option.some.inj (hc.symm.trans hmark)

namespace Grammar

/-- Symbols that show some tokens, with all numbers shortened. -/
def Prints (symbols : List Symbol) (tokens : List Token) : Prop :=
  symbols.map Symbol.shape = tokens.map canonicalShape

variable {symbols others : List Symbol} {tokens rest : List Token} {s : Symbol} {t : Token}

theorem Prints.nil : Prints [] [] := rfl

theorem Prints.append (h : Prints symbols tokens) (hothers : Prints others rest) :
    Prints (symbols ++ others) (tokens ++ rest) := by
  rw [Prints, List.map_append, List.map_append, h, hothers]

theorem Prints.cons (hs : s.shape = t.canonicalShape) (h : Prints symbols tokens) :
    Prints (s :: symbols) (t :: tokens) := by
  rw [Prints, List.map_cons, List.map_cons, hs, h]

/-- A leaf other than a number is shown if its octets are. -/
theorem Leaf.shape_eq {kind : TokenKind} (t : Leaf kind) (hkind : kind ≠ .number) {text : String}
    (htext : Bytes.ofString text = t.token.lexeme) :
    Symbol.shape ⟨kind, text⟩ = t.token.canonicalShape := by
  rw [canonicalShape, t.kind_eq, if_neg hkind, ← htext]
  rfl

/-- A punctuation mark is shown by its symbol. -/
theorem Leaf.shape_mark {kind : TokenKind} (t : Leaf kind)
    (h : Spells t.token.kind t.token.lexeme) {b : UInt8} (hmark : mark? kind = some b)
    {text : String} (htext : Bytes.ofString text = [b]) :
    Symbol.shape ⟨kind, text⟩ = t.token.canonicalShape := by
  have hkind : kind ≠ .number := by
    rintro rfl
    simp [mark?] at hmark
  obtain ⟨c, hlexeme, hc⟩ := (t.spells h).eq_singleton hkind
  refine t.shape_eq hkind ?_
  rw [hlexeme, htext, eq_of_classify_mark hmark hc]

/-- A single octet of the alphabet is the text of its character. -/
theorem ofString_toText {b : UInt8} {kind : TokenKind} (h : classify b = some kind) :
    Bytes.ofString (Bytes.toText [b]) = [b] := by
  have hascii := (toNat_of_classify h).1
  have hchar := charToNat_ofNat_ascii hascii
  have hlt : b < 0x80 := UInt8.lt_iff_toNat_lt.2 (Nat.lt_succ_of_le hascii)
  rw [toText_singleton hlt, ofString_singleton (by rw [hchar]; exact hascii), hchar,
    UInt8.ofNat_toNat]

/-- A name is shown by its symbol. -/
theorem Leaf.shape_name {kind : TokenKind} (t : Leaf kind)
    (h : Spells t.token.kind t.token.lexeme) (hkind : kind ≠ .number) :
    Symbol.shape ⟨kind, t.token.text⟩ = t.token.canonicalShape := by
  obtain ⟨b, hlexeme, hb⟩ := (t.spells h).eq_singleton hkind
  refine t.shape_eq hkind ?_
  rw [Token.text, hlexeme, ofString_toText hb]

theorem Addend.shape_symbol (a : Addend) (h : Spells a.token.kind a.token.lexeme) :
    a.operand.symbol.shape = a.token.canonicalShape := by
  cases a with
  | number t n hn =>
    have hvalue : Bytes.ofString (toString (Parse.decimal t.token.lexeme)) =
        Bytes.shortenRun t.token.lexeme := ofString_toString_decimal (t.spells h)
    obtain rfl := hn.eq_of_spells (t.spells h)
    rw [Addend.operand, Addend.token, canonicalShape, if_pos t.kind_eq, t.kind_eq, ← hvalue]
    rfl
  | parameter t => exact t.shape_name h (by simp)

/-- A sign and the term behind it are shown as a term with its sign. -/
theorem Sign.prints_term (s : Sign) (a : Addend) (hs : Spells s.token.kind s.token.lexeme)
    (ha : Spells a.token.kind a.token.lexeme) :
    Prints (Term.symbols ⟨s.negative, a.operand⟩ true) [s.token, a.token] := by
  have hterm : Prints [a.operand.symbol] [a.token] := .cons (a.shape_symbol ha) .nil
  cases s with
  | plus t => exact .cons (t.shape_mark hs rfl (by decide)) hterm
  | minus t => exact .cons (t.shape_mark hs rfl (by decide)) hterm

theorem Sum.prints_tail {others : List (Sign × Addend)} (h : AllSpelled (tailTokens others)) :
    Prints ((tailTerms others).flatMap (·.symbols true)) (tailTokens others) := by
  induction others with
  | nil => exact .nil
  | cons x others ih =>
    obtain ⟨hsign, h⟩ := List.forall_mem_cons.1 h
    obtain ⟨haddend, hothers⟩ := List.forall_mem_cons.1 h
    exact (x.1.prints_term x.2 hsign haddend).append (ih hothers)

theorem Sum.prints (e : Sum) (h : AllSpelled e.tokens) : Prints e.tree.symbols e.tokens := by
  obtain ⟨- | s, first, others⟩ := e
  · obtain ⟨hfirst, hothers⟩ := List.forall_mem_cons.1 h
    exact .cons (first.shape_symbol hfirst) (Sum.prints_tail hothers)
  · obtain ⟨hsign, h⟩ := List.forall_mem_cons.1 h
    obtain ⟨hfirst, hothers⟩ := List.forall_mem_cons.1 h
    exact (s.prints_term first hsign hfirst).append (Sum.prints_tail hothers)

/-! ### Derivations -/

/-- A parenthesised list is shown by the symbols of its members. -/
theorem Prints.enclose {first : List Symbol} {members : List (List Symbol)}
    (left : Leaf .leftParen) (right : Leaf .rightParen)
    (hleft : Spells left.token.kind left.token.lexeme)
    (hright : Spells right.token.kind right.token.lexeme)
    (h : Prints (first ++ members.flatMap (Symbol.comma :: ·)) tokens) :
    Prints (Symbol.enclose (first :: members)) (left.token :: (tokens ++ [right.token])) :=
  .cons (left.shape_mark hleft rfl (by decide))
    (h.append (.cons (right.shape_mark hright rfl (by decide)) .nil))

mutual
theorem Statement.prints (s : Statement) (h : AllSpelled s.tokens) :
    Prints s.tree.symbols s.tokens := by
  match s with
  | .command t =>
    have ht := h _ (List.mem_cons_self ..)
    rw [Statement.tree, Element.symbols]
    refine .cons (t.shape_eq (by simp) ?_) .nil
    obtain ⟨b, hlexeme, -⟩ := (t.spells ht).eq_singleton (by simp)
    rw [(Command.wellFormed_of_spells (t.spells ht)).spells.1, hlexeme]
    rfl
  | .plain name =>
    rw [Statement.tree, Element.symbols, Argument.listSymbols]
    exact .cons (name.shape_name (h _ (List.mem_cons_self ..)) (by simp)) .nil
  | .applied name left args right =>
    obtain ⟨hname, h⟩ := List.forall_mem_cons.1 h
    obtain ⟨hleft, h⟩ := List.forall_mem_cons.1 h
    obtain ⟨hargs, hright⟩ := List.forall_mem_append.1 h
    obtain ⟨first, members, hlist, hprints⟩ := args.prints hargs
    rw [Statement.tree, Element.symbols, hlist]
    exact .cons (name.shape_name hname (by simp))
      (hprints.enclose left right hleft (hright _ (List.mem_cons_self ..)))

theorem Item.prints (i : Item) (h : AllSpelled i.tokens) : Prints i.tree.symbols i.tokens := by
  match i with
  | .statement s => exact s.prints h
  | .parameter t =>
    rw [Item.tree, Element.symbols]
    exact .cons (t.shape_name (h _ (List.mem_cons_self ..)) (by simp)) .nil

theorem Items.prints (is : Items) (h : AllSpelled is.tokens) :
    Prints (Element.sequenceSymbols is.tree) is.tokens := by
  match is with
  | .nil => exact .nil
  | .cons i others =>
    obtain ⟨hi, hothers⟩ := List.forall_mem_append.1 h
    rw [Items.tree, Element.sequenceSymbols]
    exact (i.prints hi).append (others.prints hothers)

theorem Arg.prints (a : Arg) (h : AllSpelled a.tokens) : Prints a.tree.symbols a.tokens := by
  match a with
  | .reference t =>
    rw [Arg.tree, Argument.symbols]
    exact .cons (t.shape_name (h _ (List.mem_cons_self ..)) (by simp)) .nil
  | .quotedOne s =>
    rw [Arg.tree, Argument.symbols, Element.sequenceSymbols, Element.sequenceSymbols,
      List.append_nil]
    exact s.prints h
  | .quotedMany first second others =>
    obtain ⟨hfirst, h⟩ := List.forall_mem_append.1 h
    obtain ⟨hsecond, hothers⟩ := List.forall_mem_append.1 h
    rw [Arg.tree, Argument.symbols, Element.sequenceSymbols, Element.sequenceSymbols]
    exact (first.prints hfirst).append ((second.prints hsecond).append (others.prints hothers))
  | .sum e _ =>
    rw [Arg.tree, Argument.symbols]
    exact e.prints h

/-- Arguments are shown by those of their list, the first and the others, with commas between. -/
theorem Args.prints (args : Args) (h : AllSpelled args.tokens) :
    ∃ first members, Argument.listSymbols args.tree = first :: members ∧
      Prints (first ++ members.flatMap (Symbol.comma :: ·)) args.tokens := by
  match args with
  | .last a =>
    refine ⟨a.tree.symbols, [], by rw [Args.tree, Argument.listSymbols, Argument.listSymbols], ?_⟩
    rw [List.flatMap_nil, List.append_nil]
    exact a.prints h
  | .cons a comma others =>
    obtain ⟨ha, h⟩ := List.forall_mem_append.1 h
    obtain ⟨hcomma, hothers⟩ := List.forall_mem_cons.1 h
    obtain ⟨first, members, hlist, hprints⟩ := others.prints hothers
    refine ⟨a.tree.symbols, first :: members, by rw [Args.tree, Argument.listSymbols, hlist], ?_⟩
    rw [List.flatMap_cons, List.cons_append]
    exact (a.prints ha).append (.cons (comma.shape_mark hcomma rfl (by decide)) hprints)
end

theorem prints_paramTokens {others : List (Leaf .comma × Leaf .parameter)}
    (h : AllSpelled (paramTokens others)) :
    Prints (((paramNames others).map fun name ↦ [⟨.parameter, name⟩]).flatMap (Symbol.comma :: ·))
      (paramTokens others) := by
  induction others with
  | nil => exact .nil
  | cons x others ih =>
    obtain ⟨hcomma, h⟩ := List.forall_mem_cons.1 h
    obtain ⟨hparameter, h⟩ := List.forall_mem_cons.1 h
    exact .cons (x.1.shape_mark hcomma rfl (by decide))
      (.cons (x.2.shape_name hparameter (by simp)) (ih h))

theorem Params.prints (ps : Params) (h : AllSpelled ps.tokens) :
    Prints (Symbol.enclose (ps.names.map fun name ↦ [⟨.parameter, name⟩])) ps.tokens := by
  obtain ⟨left, first, others, right, distinct⟩ := ps
  obtain ⟨hleft, h⟩ := List.forall_mem_cons.1 h
  obtain ⟨hfirst, h⟩ := List.forall_mem_cons.1 h
  obtain ⟨hothers, hright⟩ := List.forall_mem_append.1 h
  have hlist : Prints ([⟨.parameter, first.token.text⟩] ++ ((paramNames others).map fun name ↦
      [⟨.parameter, name⟩]).flatMap (Symbol.comma :: ·)) (first.token :: paramTokens others) :=
    .cons (first.shape_name hfirst (by simp)) (prints_paramTokens hothers)
  exact hlist.enclose left right hleft (hright _ (List.mem_cons_self ..))

/-- The tokens of a definition without the end of its line. -/
def Procedure.inner (d : Procedure) : List Token :=
  d.name.token :: (optTokens d.params ++ d.colon.token :: (d.first.tokens ++ d.others.tokens))

theorem Procedure.tokens_eq_inner (d : Procedure) : d.tokens = d.inner ++ [d.newline.token] := by
  simp [tokens, inner, optTokens]

theorem Procedure.prints_inner (d : Procedure) (h : AllSpelled d.inner) :
    Prints d.tree.symbols d.inner := by
  obtain ⟨name, params, colon, first, others, newline⟩ := d
  obtain ⟨hname, h⟩ := List.forall_mem_cons.1 h
  obtain ⟨hparams, h⟩ := List.forall_mem_append.1 h
  obtain ⟨hcolon, h⟩ := List.forall_mem_cons.1 h
  obtain ⟨hfirst, hothers⟩ := List.forall_mem_append.1 h
  -- a list without parameters is spelled by no symbol at all, and so it is derived from no token
  have hlist : Prints (Symbol.enclose ((optNames params).map fun name ↦ [⟨.parameter, name⟩]))
      (optTokens params) := by
    rcases params with - | ps
    · exact .nil
    · exact ps.prints hparams
  have hbody : Prints (Element.sequenceSymbols (first.tree :: others.tree))
      (first.tokens ++ others.tokens) := by
    rw [Element.sequenceSymbols]
    exact (first.prints hfirst).append (others.prints hothers)
  have hsymbols : (Procedure.tree ⟨name, params, colon, first, others, newline⟩).symbols =
      ⟨.procedure, name.token.text⟩ ::
        (Symbol.enclose ((optNames params).map fun name ↦ [⟨.parameter, name⟩]) ++
          Symbol.colon :: Element.sequenceSymbols (first.tree :: others.tree)) := by
    simp [Procedure.tree, Procedure.body, Definition.symbols, optNames]
  rw [hsymbols]
  exact .cons (name.shape_name hname (by simp))
    (hlist.append (.cons (colon.shape_mark hcolon rfl (by decide)) hbody))

theorem Procedure.prints (d : Procedure) (h : AllSpelled d.tokens) :
    Prints (d.tree.symbols ++ [Symbol.newline]) d.tokens := by
  rw [d.tokens_eq_inner] at h ⊢
  obtain ⟨hinner, hnewline⟩ := List.forall_mem_append.1 h
  exact (d.prints_inner hinner).append
    (.cons (d.newline.shape_mark (hnewline _ (List.mem_cons_self ..)) rfl (by decide)) .nil)

/-- **The symbols of a derived program show its tokens.** -/
theorem Sentence.prints (d : Sentence) (h : AllSpelled (d.procedures.flatMap Procedure.tokens ++
      (d.first :: d.others).flatMap Statement.tokens)) :
    Prints d.tree.symbols (d.procedures.flatMap Procedure.tokens ++
      (d.first :: d.others).flatMap Statement.tokens) := by
  have hdefinitions : ∀ ds : List Procedure, AllSpelled (ds.flatMap Procedure.tokens) →
      Prints ((ds.map Procedure.tree).flatMap fun d ↦ d.symbols ++ [Symbol.newline])
        (ds.flatMap Procedure.tokens) := by
    intro ds h
    induction ds with
    | nil => exact .nil
    | cons d ds ih =>
      obtain ⟨hd, hds⟩ := List.forall_mem_append.1 h
      exact (d.prints hd).append (ih hds)
  have hmain : ∀ ss : List Statement, AllSpelled (ss.flatMap Statement.tokens) →
      Prints (Element.sequenceSymbols (ss.map Statement.tree)) (ss.flatMap Statement.tokens) := by
    intro ss h
    induction ss with
    | nil => exact .nil
    | cons s ss ih =>
      obtain ⟨hs, hss⟩ := List.forall_mem_append.1 h
      rw [List.map_cons, Element.sequenceSymbols]
      exact (s.prints hs).append (ih hss)
  obtain ⟨hds, hss⟩ := List.forall_mem_append.1 h
  exact (hdefinitions d.procedures hds).append (hmain (d.first :: d.others) hss)

end Grammar

/-! ### Spans are not spelled -/

mutual
theorem Element.symbols_erase (e : Element) : e.erase.symbols = e.symbols := by
  match e with
  | .command c span => rw [Element.erase, Element.symbols, Element.symbols]
  | .parameter name span => rw [Element.erase, Element.symbols, Element.symbols]
  | .call callee args span =>
    rw [Element.erase, Element.symbols, Element.symbols, Argument.listSymbols_eraseList args]

theorem Argument.symbols_erase (a : Argument) : a.erase.symbols = a.symbols := by
  match a with
  | .parameter name span => rw [Argument.erase, Argument.symbols, Argument.symbols]
  | .quoted body span =>
    rw [Argument.erase, Argument.symbols, Argument.symbols, Element.sequenceSymbols_eraseList body]
  | .arithmetic sum => rw [Argument.erase, Argument.symbols, Argument.symbols]; rfl

theorem Element.sequenceSymbols_eraseList (body : List Element) :
    Element.sequenceSymbols (Element.eraseList body) = Element.sequenceSymbols body := by
  match body with
  | [] => rw [Element.eraseList]
  | e :: rest =>
    rw [Element.eraseList, Element.sequenceSymbols, Element.sequenceSymbols,
      Element.symbols_erase e, Element.sequenceSymbols_eraseList rest]

theorem Argument.listSymbols_eraseList (args : List Argument) :
    Argument.listSymbols (Argument.eraseList args) = Argument.listSymbols args := by
  match args with
  | [] => rw [Argument.eraseList]
  | a :: rest =>
    rw [Argument.eraseList, Argument.listSymbols, Argument.listSymbols, Argument.symbols_erase a,
      Argument.listSymbols_eraseList rest]
end

namespace Program

theorem symbols_erase (p : Program) : p.erase.symbols = p.symbols := by
  have hdefinition : ∀ d : Definition, d.erase.symbols = d.symbols := by
    intro d
    rw [Definition.symbols, Definition.symbols, Definition.erase,
      Element.sequenceSymbols_eraseList d.body]
  rw [symbols, symbols, erase, List.flatMap_map, Element.sequenceSymbols_eraseList p.main]
  simp only [hdefinition]

/-- **The canonical text of a program is its source, trimmed, with every run of digits shortened.**
It is accepted again, and the program read from it has the same text. -/
theorem render_keeps_source (source : Bytes) (p : Program) (h : parse source = .ok p) :
    Bytes.ofString p.render = Bytes.shortenRuns (Bytes.trim source) ∧
      ∃ q, parse (Bytes.ofString p.render) = .ok q ∧ q.render = p.render := by
  refine ⟨?_, ?_⟩
  · obtain ⟨d, rfl, htokens, hlast⟩ := Grammar.exists_tokens_of_parse h
    have hspelled : Grammar.AllSpelled (scan (Bytes.trim source)).tokens :=
      fun t ht ↦ spells_of_mem_scan ht
    have hprints : Grammar.Prints d.tree.symbols (scan (Bytes.trim source)).tokens :=
      htokens ▸ d.prints (htokens ▸ hspelled)
    rw [render, ofString_spell, hprints]
    exact flatMap_canonical_scanFrom hlast
  · obtain ⟨q, hq, herase⟩ := Grammar.parse_render (Grammar.wellFormed_of_parse h)
    refine ⟨q, hq, ?_⟩
    rw [render, render, ← q.symbols_erase, herase, p.symbols_erase]

/-- A source with blanks around it, zeros in front of a number, and a number that is all zeros. -/
def paddedSource : Bytes := Bytes.ofString " f(A):sf(A-01)\nf(+00)f(120)\n "

/-- The program of that source. -/
def padded : Program where
  definitions := [⟨"f", ["A"], [.command .forward ⟨5, 6⟩, .call "f" [.arithmetic
    ⟨false, [⟨false, .parameter "A"⟩, ⟨true, .literal 1⟩], ⟨8, 12⟩⟩] ⟨6, 13⟩], ⟨0, 13⟩⟩]
  main := [.call "f" [.arithmetic ⟨true, [⟨false, .literal 0⟩], ⟨16, 19⟩⟩] ⟨14, 20⟩,
    .call "f" [.arithmetic ⟨false, [⟨false, .literal 120⟩], ⟨22, 25⟩⟩] ⟨20, 26⟩]

/-- The plus sign in front of the zero stays, and so does the zero at the end of the last number. -/
theorem padded_render : parse paddedSource = .ok padded ∧
    Bytes.shortenRuns (Bytes.trim paddedSource) =
      Bytes.ofString "f(A):sf(A-1)\nf(+0)f(120)" ∧
    Bytes.ofString padded.render = Bytes.shortenRuns (Bytes.trim paddedSource) ∧
    ∃ q, parse (Bytes.ofString padded.render) = .ok q ∧ q.render = padded.render := by
  have hparse : parse paddedSource = .ok padded := by decide +kernel
  exact ⟨hparse, by decide +kernel, render_keeps_source paddedSource padded hparse⟩

end Program

end RobotGolf
