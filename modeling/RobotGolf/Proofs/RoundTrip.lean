import RobotGolf.Proofs.Acceptance
import RobotGolf.Proofs.Legible
/-!
# Reading undoes spelling

A tree survives being spelled and read again if and only if it is well formed. Both halves go
through derivations, and so through nothing that the readers do:

* **what is derived is well formed** (`Sentence.wellFormed`), by recursion over the derivation. The
  leaves are tokens of a scan, hence spelled as their kinds, and the shape of a derivation does the
  rest: repetitions are not empty, and neither a quoted sequence nor a sum is a lone parameter;
* **what is well formed is derived** (`exists_sentence_of_shows`), by recursion over the tree:
  tokens of the right kinds and texts are the leaves of a derivation of that tree. The tokens are
  those of the spelled text, which `Program.WellFormed.scan_render` cuts out of it.
-/

namespace RobotGolf.Grammar

open Token

/-! ### What is derived is well formed -/

/-- Every one of some tokens is spelled as its kind. -/
def AllSpelled (tokens : List Token) : Prop := ∀ t ∈ tokens, Spells t.kind t.lexeme

theorem Leaf.spells {kind : TokenKind} (t : Leaf kind) (h : Spells t.token.kind t.token.lexeme) :
    Spells kind t.token.lexeme := by
  rwa [t.kind_eq] at h

theorem Addend.wellFormed (a : Addend) (h : Spells a.token.kind a.token.lexeme) :
    a.operand.WellFormed := by
  cases a with
  | number t n hn =>
    rw [operand, hn.eq_of_spells (t.spells h)]
    exact Int.natCast_nonneg _
  | parameter t => exact isParameterName_toText (t.spells h)

theorem Sum.wellFormed (e : Sum) (hlone : e.isLoneParameter = false) (h : AllSpelled e.tokens) :
    e.tree.WellFormed := by
  obtain ⟨sign, first, others⟩ := e
  have hfirst : first.operand.WellFormed := first.wellFormed (h _ (by simp [tokens]))
  have hothers : ∀ x ∈ others, x.2.operand.WellFormed := by
    intro x hx
    refine x.2.wellFormed (h _ ?_)
    simp only [tokens, tailTokens, List.mem_append, List.mem_cons, List.mem_flatMap]
    exact Or.inr (Or.inr ⟨x, hx, Or.inr (Or.inl rfl)⟩)
  refine ⟨by simp [tree, terms], ?_, ?_, ?_⟩
  · intro t ht
    simp only [tree, terms, tailTerms, List.mem_cons, List.mem_map] at ht
    rcases ht with rfl | ⟨x, hx, rfl⟩
    · exact hfirst
    · exact hothers x hx
  · intro t ht hnegative
    obtain rfl : _ = t := by simpa [tree, terms] using ht
    rcases sign with - | s
    · simp at hnegative
    · rfl
  · intro hsigned t name hterms
    -- Without a sign and with a single term, the sum would be the excluded one.
    obtain rfl : sign = none := by simpa [tree] using hsigned
    obtain ⟨ht, hnil⟩ : _ = t ∧ others = [] := by
      simpa [tree, terms, tailTerms] using hterms
    rw [← ht]
    cases first with
    | number t => simp [Addend.operand]
    | parameter t => simp [hnil, isLoneParameter] at hlone

/-- An item that is no statement is a parameter, and so is its tree. -/
theorem Item.exists_statement (i : Item) (h : ∀ name s, i.tree ≠ .parameter name s) :
    ∃ s : Statement, i = .statement s := by
  cases i with
  | statement s => exact ⟨s, rfl⟩
  | parameter t => exact absurd rfl (h _ _)

theorem Statement.tree_ne_parameter (s : Statement) (name : String) (span : Span) :
    s.tree ≠ .parameter name span := by
  cases s <;> simp [Statement.tree]

mutual
theorem Statement.wellFormed (s : Statement) (h : AllSpelled s.tokens) : s.tree.WellFormed := by
  match s with
  | .command t =>
    rw [Statement.tree]
    exact .command (Command.wellFormed_of_spells (t.spells (h _ (List.mem_cons_self ..))))
  | .plain name =>
    rw [Statement.tree]
    exact .call (isProcedureName_toText (name.spells (h _ (List.mem_cons_self ..)))) (by simp)
  | .applied name left args right =>
    rw [Statement.tokens] at h
    rw [Statement.tree]
    have hargs : AllSpelled args.tokens := fun t ht ↦ h t (by simp [ht])
    exact .call (isProcedureName_toText (name.spells (h _ (List.mem_cons_self ..))))
      (args.wellFormed hargs)

theorem Item.wellFormed (i : Item) (h : AllSpelled i.tokens) : i.tree.WellFormed := by
  match i with
  | .statement s => exact s.wellFormed h
  | .parameter t =>
    exact .parameter (isParameterName_toText (t.spells (h _ (List.mem_cons_self ..))))

theorem Items.wellFormed (is : Items) (h : AllSpelled is.tokens) :
    ∀ e ∈ is.tree, e.WellFormed := by
  match is with
  | .nil => simp [Items.tree]
  | .cons i others =>
    obtain ⟨hi, hothers⟩ := List.forall_mem_append.1 h
    exact List.forall_mem_cons.2 ⟨i.wellFormed hi, others.wellFormed hothers⟩

theorem Arg.wellFormed (a : Arg) (h : AllSpelled a.tokens) : a.tree.WellFormed := by
  match a with
  | .reference t =>
    exact .parameter (isParameterName_toText (t.spells (h _ (List.mem_cons_self ..))))
  | .quotedOne s =>
    refine .quoted (by simp) ?_ (List.forall_mem_singleton.2 (s.wellFormed h))
    intro name span heq
    exact s.tree_ne_parameter name span (List.singleton_inj.1 heq)
  | .quotedMany i j others =>
    obtain ⟨hi, hmore⟩ := List.forall_mem_append.1 h
    obtain ⟨hj, hothers⟩ := List.forall_mem_append.1 hmore
    exact .quoted (by simp) (by simp) (List.forall_mem_cons.2 ⟨i.wellFormed hi,
      List.forall_mem_cons.2 ⟨j.wellFormed hj, others.wellFormed hothers⟩⟩)
  | .sum e notLone => exact .arithmetic (e.wellFormed notLone h)

theorem Args.wellFormed (args : Args) (h : AllSpelled args.tokens) :
    ∀ a ∈ args.tree, a.WellFormed := by
  match args with
  | .last a => exact List.forall_mem_singleton.2 (a.wellFormed h)
  | .cons a comma others =>
    obtain ⟨ha, hmore⟩ := List.forall_mem_append.1 h
    exact List.forall_mem_cons.2
      ⟨a.wellFormed ha, others.wellFormed (List.forall_mem_cons.1 hmore).2⟩
end

theorem Params.wellFormed (ps : Params) (h : AllSpelled ps.tokens) :
    ∀ x ∈ ps.names, IsParameterName x := by
  intro x hx
  rw [tokens] at h
  simp only [names, List.mem_cons, List.mem_map] at hx
  rcases hx with rfl | ⟨y, hy, rfl⟩
  · exact isParameterName_toText (ps.first.spells (h _ (by simp)))
  · refine isParameterName_toText (y.2.spells (h _ ?_))
    simp only [List.mem_cons, List.mem_append, List.mem_flatMap]
    exact Or.inr (Or.inr (Or.inl ⟨y, hy, Or.inr (Or.inl rfl)⟩))

theorem Procedure.wellFormed (d : Procedure) (h : AllSpelled d.tokens) : d.tree.WellFormed := by
  obtain ⟨name, params, colon, first, others, newline⟩ := d
  obtain ⟨hname, hmore⟩ := List.forall_mem_cons.1 h
  obtain ⟨hparams, hmore⟩ := List.forall_mem_append.1 hmore
  obtain ⟨hfirst, hmore⟩ := List.forall_mem_append.1 (List.forall_mem_cons.1 hmore).2
  have hothers := (List.forall_mem_append.1 hmore).1
  refine ⟨isProcedureName_toText (name.spells hname), ?_, ?_, by simp [tree, body],
    List.forall_mem_cons.2 ⟨first.wellFormed hfirst, others.wellFormed hothers⟩⟩
  · rcases params with - | ps
    · simp [tree]
    · exact ps.wellFormed hparams
  · rcases params with - | ps
    · exact List.nodup_nil
    · exact ps.distinct

/-- **What is derived from tokens of a scan is well formed.** -/
theorem Sentence.wellFormed (d : Sentence)
    (h : AllSpelled (d.procedures.flatMap Procedure.tokens ++
      (d.first :: d.others).flatMap Statement.tokens)) : d.tree.WellFormed := by
  obtain ⟨hds, hmain⟩ := List.forall_mem_append.1 h
  refine ⟨fun d' hd' ↦ ?_, by simp [tree], fun e he ↦ ?_, fun name span hmem ↦ ?_⟩
  · obtain ⟨d'', hd'', rfl⟩ := List.mem_map.1 hd'
    exact d''.wellFormed fun t ht ↦ hds t (List.mem_flatMap.2 ⟨d'', hd'', ht⟩)
  · obtain ⟨s, hs, rfl⟩ := List.mem_map.1 he
    exact s.wellFormed fun t ht ↦ hmain t (List.mem_flatMap.2 ⟨s, hs, ht⟩)
  · obtain ⟨s, -, heq⟩ := List.mem_map.1 hmem
    exact s.tree_ne_parameter name span heq

/-- **Every program that is read is well formed.** -/
theorem wellFormed_of_parse {source : Bytes} {p : Program} (h : Program.parse source = .ok p) :
    p.WellFormed := by
  obtain ⟨d, rfl, htokens, -⟩ := exists_tokens_of_parse h
  refine d.wellFormed fun t ht ↦ ?_
  rw [htokens] at ht
  exact spells_of_mem_scan ht

/-! ### What is well formed is derived -/

/-- Tokens of the kinds and texts of some symbols. -/
def Shows (tokens : List Token) (symbols : List Symbol) : Prop :=
  tokens.map Token.shape = symbols.map Symbol.shape

variable {tokens : List Token} {s : Symbol} {xs ys : List Symbol}

theorem Shows.of_append (h : Shows tokens (xs ++ ys)) :
    ∃ ts us, tokens = ts ++ us ∧ Shows ts xs ∧ Shows us ys := by
  rw [Shows, List.map_append] at h
  exact List.map_eq_append_iff.1 h

theorem Shows.of_cons (h : Shows tokens (s :: xs)) :
    ∃ (t : Leaf s.kind) (ts : List Token), tokens = t.token :: ts ∧
      t.token.lexeme = Bytes.ofString s.text ∧ Shows ts xs := by
  rw [Shows, List.map_cons] at h
  obtain ⟨t, ts, rfl, hshape, hts⟩ := List.map_eq_cons_iff.1 h
  exact ⟨⟨t, congrArg Prod.fst hshape⟩, ts, rfl, congrArg Prod.snd hshape, hts⟩

theorem Shows.of_nil (h : Shows tokens []) : tokens = [] := List.map_eq_nil_iff.1 h

theorem Shows.of_singleton (h : Shows tokens [s]) :
    ∃ t : Leaf s.kind, tokens = [t.token] ∧ t.token.lexeme = Bytes.ofString s.text := by
  obtain ⟨t, ts, rfl, hlexeme, hts⟩ := h.of_cons
  exact ⟨t, by rw [hts.of_nil], hlexeme⟩

theorem exists_addend_of_shows {o : Operand} (ho : o.WellFormed) (h : Shows tokens [o.symbol]) :
    ∃ a : Addend, tokens = [a.token] ∧ a.operand = o := by
  cases o with
  | literal n =>
    obtain ⟨k, rfl⟩ := Int.eq_ofNat_of_zero_le ho
    obtain ⟨(t : Leaf .number), rfl, hlexeme⟩ := h.of_singleton
    have hlexeme : t.token.lexeme = Bytes.ofString (toString k) := hlexeme
    have hnumeral : Numeral t.token.lexeme (digitsValue t.token.lexeme) :=
      numeral_of_spells (hlexeme ▸ spells_number k)
    refine ⟨.number t _ hnumeral, rfl, ?_⟩
    rw [Addend.operand, ← decimal_eq_digitsValue, hlexeme, decimal_ofString]
  | parameter name =>
    obtain ⟨(t : Leaf .parameter), rfl, hlexeme⟩ := h.of_singleton
    have hlexeme : t.token.lexeme = Bytes.ofString name := hlexeme
    refine ⟨.parameter t, rfl, ?_⟩
    rw [Addend.operand, Token.text, hlexeme, ho.spells.2]
  | blank => exact ho.elim

/-- The terms behind the first one, each with its sign. -/
theorem exists_others_of_shows (terms : List Term) (hterms : ∀ t ∈ terms, t.operand.WellFormed)
    (h : Shows tokens (terms.flatMap (·.symbols true))) :
    ∃ others : List (Sign × Addend), Sum.tailTokens others = tokens ∧
      Sum.tailTerms others = terms := by
  induction terms generalizing tokens with
  | nil => exact ⟨[], h.of_nil.symm, rfl⟩
  | cons t terms ih =>
    obtain ⟨ht, hterms⟩ := List.forall_mem_cons.1 hterms
    obtain ⟨ts, us, rfl, hts, hus⟩ := h.of_append
    obtain ⟨others, rfl, rfl⟩ := ih hterms hus
    obtain ⟨negative, o⟩ := t
    cases negative with
    | true =>
      obtain ⟨sign, rest, rfl, -, hrest⟩ := hts.of_cons
      obtain ⟨a, rfl, rfl⟩ := exists_addend_of_shows ht hrest
      exact ⟨(.minus sign, a) :: others, rfl, rfl⟩
    | false =>
      obtain ⟨sign, rest, rfl, -, hrest⟩ := hts.of_cons
      obtain ⟨a, rfl, rfl⟩ := exists_addend_of_shows ht hrest
      exact ⟨(.plus sign, a) :: others, rfl, rfl⟩

theorem exists_sum_of_shows {a : Arithmetic} (ha : a.WellFormed) (h : Shows tokens a.symbols) :
    ∃ e : Sum, e.isLoneParameter = false ∧ e.tokens = tokens ∧ e.tree.erase = a.erase := by
  obtain ⟨signed, terms, span⟩ := a
  obtain ⟨hne, hoperands, hnegative, hlone⟩ := ha
  rcases terms with - | ⟨⟨negative, o⟩, terms⟩
  · exact absurd rfl hne
  obtain ⟨ho, hterms⟩ := List.forall_mem_cons.1 hoperands
  obtain ⟨ts, us, rfl, hts, hus⟩ := h.of_append
  obtain ⟨others, rfl, rfl⟩ := exists_others_of_shows terms hterms hus
  -- The first sign is a minus, a plus or missing, and a minus makes the sum a signed one.
  rcases negative with - | -
  · rcases signed with - | -
    · obtain ⟨a, rfl, rfl⟩ := exists_addend_of_shows ho hts
      refine ⟨⟨none, a, others⟩, ?_, rfl, rfl⟩
      rcases a with t | t
      · rfl
      · rcases others with - | ⟨x, others⟩
        · exact absurd rfl (hlone rfl _ t.token.text rfl)
        · rfl
    · obtain ⟨sign, rest, rfl, -, hrest⟩ := hts.of_cons
      obtain ⟨a, rfl, rfl⟩ := exists_addend_of_shows ho hrest
      exact ⟨⟨some (.plus sign), a, others⟩, rfl, rfl, rfl⟩
  · obtain rfl : signed = true := hnegative _ rfl rfl
    obtain ⟨sign, rest, rfl, -, hrest⟩ := hts.of_cons
    obtain ⟨a, rfl, rfl⟩ := exists_addend_of_shows ho hrest
    exact ⟨⟨some (.minus sign), a, others⟩, rfl, rfl, rfl⟩

mutual
theorem exists_item_of_shows (e : Element) (he : e.WellFormed) {tokens : List Token}
    (h : Shows tokens e.symbols) : ∃ i : Item, i.tokens = tokens ∧ i.tree.erase = e.erase := by
  match e, he with
  | .command c span, .command hc =>
    rw [Element.symbols] at h
    obtain ⟨t, rfl, hlexeme⟩ := h.of_singleton
    have hlexeme : t.token.lexeme = [c.code] := hlexeme.trans hc.spells.1
    refine ⟨.statement (.command t), rfl, ?_⟩
    simp [Item.tree, Statement.tree, Element.erase, hlexeme]
  | .parameter name span, .parameter hname =>
    rw [Element.symbols] at h
    obtain ⟨t, rfl, hlexeme⟩ := h.of_singleton
    have htext : t.token.text = name := by rw [Token.text, hlexeme, hname.spells.2]
    refine ⟨.parameter t, rfl, ?_⟩
    simp [Item.tree, Element.erase, htext]
  | .call callee args span, .call hcallee hargs =>
    rw [Element.symbols] at h
    obtain ⟨name, rest, rfl, hlexeme, hrest⟩ := h.of_cons
    have htext : name.token.text = callee := by rw [Token.text, hlexeme, hcallee.spells.2]
    match args with
    | [] =>
      rw [Argument.listSymbols] at hrest
      obtain rfl := hrest.of_nil
      refine ⟨.statement (.plain name), rfl, ?_⟩
      simp [Item.tree, Statement.tree, Element.erase, htext]
    | a :: others =>
      rw [Argument.listSymbols] at hrest
      obtain ⟨ha, hothers⟩ := List.forall_mem_cons.1 hargs
      obtain ⟨left, rest, rfl, -, hrest⟩ := hrest.of_cons
      obtain ⟨inner, rest, rfl, hinner, hrest⟩ := hrest.of_append
      obtain ⟨right, rfl, -⟩ := hrest.of_singleton
      obtain ⟨ts, us, rfl, hts, hus⟩ := hinner.of_append
      obtain ⟨x, rfl, hx⟩ := exists_arg_of_shows a ha hts
      obtain ⟨as, has, htree⟩ := exists_args_of_shows others hothers x hus
      refine ⟨.statement (.applied name left as right), ?_, ?_⟩
      · simp [Item.tokens, Statement.tokens, has]
      · simp [Item.tree, Statement.tree, Element.erase, htext, htree, hx, Argument.eraseList]

theorem exists_arg_of_shows (a : Argument) (ha : a.WellFormed) {tokens : List Token}
    (h : Shows tokens a.symbols) : ∃ x : Arg, x.tokens = tokens ∧ x.tree.erase = a.erase := by
  match a, ha with
  | .parameter name span, .parameter hname =>
    rw [Argument.symbols] at h
    obtain ⟨t, rfl, hlexeme⟩ := h.of_singleton
    have htext : t.token.text = name := by rw [Token.text, hlexeme, hname.spells.2]
    refine ⟨.reference t, rfl, ?_⟩
    simp [Arg.tree, Argument.erase, htext]
  | .quoted body span, .quoted hne hlone hbody =>
    rw [Argument.symbols] at h
    obtain ⟨is, rfl, htree⟩ := exists_items_of_shows body hbody h
    -- A lone item is a statement, for a lone parameter would be a reference.
    rcases is with - | ⟨i, - | ⟨j, others⟩⟩
    · rw [Items.tree, Element.eraseList] at htree
      exact absurd htree.symm ((Element.eraseList_ne_nil_iff body).2 hne)
    · obtain ⟨s, rfl⟩ : ∃ s : Statement, i = .statement s := by
        refine i.exists_statement fun name s heq ↦ ?_
        rw [Items.tree, Items.tree, heq] at htree
        exact (Element.eraseList_ne_lone_iff body).2 hlone name Span.null htree.symm
      refine ⟨.quotedOne s, by simp [Arg.tokens, Items.tokens, Item.tokens], ?_⟩
      simp only [Arg.tree, Argument.erase, ← htree, Items.tree, Item.tree]
    · refine ⟨.quotedMany i j others, rfl, ?_⟩
      simp only [Arg.tree, Argument.erase, ← htree, Items.tree]
  | .arithmetic sum, .arithmetic hsum =>
    rw [Argument.symbols] at h
    obtain ⟨e, hlone, rfl, htree⟩ := exists_sum_of_shows hsum h
    refine ⟨.sum e hlone, rfl, ?_⟩
    simp only [Arg.tree, Argument.erase, htree]

theorem exists_items_of_shows (body : List Element) (hbody : ∀ e ∈ body, e.WellFormed)
    {tokens : List Token} (h : Shows tokens (Element.sequenceSymbols body)) :
    ∃ is : Items, is.tokens = tokens ∧ Element.eraseList is.tree = Element.eraseList body := by
  match body with
  | [] =>
    rw [Element.sequenceSymbols] at h
    exact ⟨.nil, h.of_nil.symm, rfl⟩
  | e :: rest =>
    rw [Element.sequenceSymbols] at h
    obtain ⟨he, hrest⟩ := List.forall_mem_cons.1 hbody
    obtain ⟨ts, us, rfl, hts, hus⟩ := h.of_append
    obtain ⟨i, rfl, hi⟩ := exists_item_of_shows e he hts
    obtain ⟨others, rfl, hothers⟩ := exists_items_of_shows rest hrest hus
    refine ⟨.cons i others, rfl, ?_⟩
    rw [Items.tree, Element.eraseList, Element.eraseList, hi, hothers]

/-- The arguments behind one for which a derivation is known. -/
theorem exists_args_of_shows (args : List Argument) (hargs : ∀ a ∈ args, a.WellFormed) (x : Arg)
    {tokens : List Token}
    (h : Shows tokens ((Argument.listSymbols args).flatMap (Symbol.comma :: ·))) :
    ∃ as : Args, as.tokens = x.tokens ++ tokens ∧
      Argument.eraseList as.tree = x.tree.erase :: Argument.eraseList args := by
  match args with
  | [] =>
    rw [Argument.listSymbols] at h
    refine ⟨.last x, by rw [h.of_nil, List.append_nil, Args.tokens], ?_⟩
    simp only [Args.tree, Argument.eraseList]
  | a :: rest =>
    rw [Argument.listSymbols, List.flatMap_cons] at h
    obtain ⟨ha, hrest⟩ := List.forall_mem_cons.1 hargs
    obtain ⟨(comma : Leaf .comma), behind, rfl, -, hbehind⟩ := h.of_cons
    obtain ⟨ts, us, rfl, hts, hus⟩ := hbehind.of_append
    obtain ⟨y, rfl, hy⟩ := exists_arg_of_shows a ha hts
    obtain ⟨as, has, htree⟩ := exists_args_of_shows rest hrest y hus
    refine ⟨.cons x comma as, by rw [Args.tokens, has], ?_⟩
    rw [Args.tree, Argument.eraseList, htree, hy, Argument.eraseList]
end

theorem exists_params_of_shows {names : List String} (hnames : ∀ x ∈ names, IsParameterName x)
    (hdistinct : names.Nodup)
    (h : Shows tokens (Symbol.enclose (names.map fun name ↦ [⟨.parameter, name⟩]))) :
    ∃ params : Option Params, optTokens params = tokens ∧ optNames params = names := by
  have hothers : ∀ (names : List String) (tokens : List Token),
      (∀ x ∈ names, IsParameterName x) →
      Shows tokens ((names.map fun name ↦ [⟨.parameter, name⟩]).flatMap (Symbol.comma :: ·)) →
      ∃ others, paramTokens others = tokens ∧ paramNames others = names := by
    intro names
    induction names with
    | nil => exact fun tokens _ h ↦ ⟨[], h.of_nil.symm, rfl⟩
    | cons name names ih =>
      intro tokens hnames h
      obtain ⟨hname, hnames⟩ := List.forall_mem_cons.1 hnames
      obtain ⟨(comma : Leaf .comma), behind, rfl, -, hbehind⟩ := h.of_cons
      obtain ⟨t, us, rfl, hlexeme, hus⟩ := hbehind.of_cons
      obtain ⟨others, rfl, rfl⟩ := ih us hnames hus
      have htext : t.token.text = name := by rw [Token.text, hlexeme, hname.spells.2]
      exact ⟨(comma, t) :: others, rfl, by simp [paramNames, htext]⟩
  rcases names with - | ⟨name, names⟩
  · exact ⟨none, h.of_nil.symm, rfl⟩
  · obtain ⟨hname, hnames⟩ := List.forall_mem_cons.1 hnames
    obtain ⟨left, behind, rfl, -, hbehind⟩ := h.of_cons
    obtain ⟨inner, after, rfl, hinner, hafter⟩ := hbehind.of_append
    obtain ⟨right, rfl, -⟩ := hafter.of_singleton
    obtain ⟨t, us, rfl, hlexeme, hus⟩ := hinner.of_cons
    obtain ⟨others, rfl, rfl⟩ := hothers names us hnames hus
    have htext : t.token.text = name := by rw [Token.text, hlexeme, hname.spells.2]
    exact ⟨some ⟨left, t, others, right, by rw [htext]; exact hdistinct⟩, rfl,
      by simp [optNames, Params.names, htext]⟩

theorem exists_procedure_of_shows {d : Definition} (hd : d.WellFormed)
    (h : Shows tokens (d.symbols ++ [Symbol.newline])) :
    ∃ d' : Procedure, d'.tokens = tokens ∧ d'.tree.erase = d.erase := by
  obtain ⟨line, after, rfl, hline, hafter⟩ := h.of_append
  obtain ⟨(newline : Leaf .newline), rfl, -⟩ := hafter.of_singleton
  obtain ⟨head, behind, rfl, hhead, hbehind⟩ := hline.of_append
  obtain ⟨name, list, rfl, hlexeme, hlist⟩ := hhead.of_cons
  obtain ⟨(colon : Leaf .colon), tail, rfl, -, htail⟩ := hbehind.of_cons
  obtain ⟨params, rfl, hparams⟩ := exists_params_of_shows hd.params hd.distinct hlist
  obtain ⟨is, rfl, htree⟩ := exists_items_of_shows d.body hd.body htail
  have htext : name.token.text = d.name := by rw [Token.text, hlexeme, hd.name.spells.2]
  rcases is with - | ⟨i, others⟩
  · rw [Items.tree, Element.eraseList] at htree
    exact absurd htree.symm ((Element.eraseList_ne_nil_iff d.body).2 hd.body_ne_nil)
  · refine ⟨⟨name, params, colon, i, others, newline⟩, ?_, ?_⟩
    · simp [Procedure.tokens, optTokens, Items.tokens]
    · rw [Items.tree] at htree
      rw [optNames] at hparams
      simp only [Procedure.tree, Procedure.body, Definition.erase, htext, hparams, htree]

theorem exists_statements_of_shows {body : List Element} (hbody : ∀ e ∈ body, e.WellFormed)
    (hstatements : ∀ name span, .parameter name span ∉ body)
    (h : Shows tokens (Element.sequenceSymbols body)) :
    ∃ ss : List Statement, ss.flatMap Statement.tokens = tokens ∧
      Element.eraseList (ss.map Statement.tree) = Element.eraseList body := by
  induction body generalizing tokens with
  | nil =>
    rw [Element.sequenceSymbols] at h
    exact ⟨[], h.of_nil.symm, rfl⟩
  | cons e rest ih =>
    rw [Element.sequenceSymbols] at h
    obtain ⟨he, hrest⟩ := List.forall_mem_cons.1 hbody
    obtain ⟨ts, us, rfl, hts, hus⟩ := h.of_append
    obtain ⟨i, rfl, hi⟩ := exists_item_of_shows e he hts
    obtain ⟨ss, rfl, hss⟩ :=
      ih hrest (fun name span hmem ↦ hstatements name span (List.mem_cons_of_mem _ hmem)) hus
    obtain ⟨s, rfl⟩ : ∃ s : Statement, i = .statement s := by
      refine i.exists_statement fun name span heq ↦ ?_
      rw [heq, Element.erase] at hi
      obtain ⟨span', rfl⟩ := Element.eq_parameter_of_erase hi.symm
      exact hstatements name span' (List.mem_cons_self ..)
    refine ⟨s :: ss, rfl, ?_⟩
    rw [List.map_cons, Element.eraseList, Element.eraseList, hss]
    exact congrArg (· :: _) hi

/-- **What is well formed is derived**, from any tokens that show its symbols. -/
theorem exists_sentence_of_shows {p : Program} (hp : p.WellFormed) (h : Shows tokens p.symbols)
    (finish : Leaf .finish) :
    ∃ d : Sentence, d.tokens = tokens ++ [finish.token] ∧ d.tree.erase = p.erase := by
  have hprocedures : ∀ (ds : List Definition) (tokens : List Token), (∀ d ∈ ds, d.WellFormed) →
      Shows tokens (ds.flatMap fun d ↦ d.symbols ++ [Symbol.newline]) →
      ∃ ds' : List Procedure, ds'.flatMap Procedure.tokens = tokens ∧
        (ds'.map Procedure.tree).map Definition.erase = ds.map Definition.erase := by
    intro ds
    induction ds with
    | nil => exact fun tokens _ h ↦ ⟨[], h.of_nil.symm, rfl⟩
    | cons d ds ih =>
      intro tokens hds h
      obtain ⟨hd, hds⟩ := List.forall_mem_cons.1 hds
      obtain ⟨ts, us, rfl, hts, hus⟩ := h.of_append
      obtain ⟨d', rfl, hd'⟩ := exists_procedure_of_shows hd hts
      obtain ⟨ds', rfl, hds'⟩ := ih us hds hus
      exact ⟨d' :: ds', rfl, by rw [List.map_cons, List.map_cons, List.map_cons, hd', hds']⟩
  obtain ⟨ts, us, rfl, hts, hus⟩ := h.of_append
  obtain ⟨ds, rfl, hds⟩ := hprocedures p.definitions ts hp.definitions hts
  obtain ⟨ss, rfl, hss⟩ := exists_statements_of_shows hp.main hp.main_statements hus
  rcases ss with - | ⟨s, ss⟩
  · rw [List.map_nil, Element.eraseList] at hss
    exact absurd hss.symm ((Element.eraseList_ne_nil_iff p.main).2 hp.main_ne_nil)
  · refine ⟨⟨ds, s, ss, finish⟩, by rw [Sentence.tokens_eq], ?_⟩
    simp only [Sentence.tree, Program.erase, hds, hss]

theorem parse_render {p : Program} (hp : p.WellFormed) :
    ∃ q, Program.parse (Bytes.ofString p.render) = .ok q ∧ q.erase = p.erase := by
  obtain ⟨hshape, hlast⟩ := hp.scan_render
  obtain ⟨d, htokens, htree⟩ := exists_sentence_of_shows hp hshape ⟨_, hlast⟩
  exact ⟨d.tree, parse_eq_tree d htokens, htree⟩

/-- **Reading undoes spelling on exactly the well-formed trees.** Every program that is read is well
formed, and a program is read back from its own text, up to spans, if and only if it is well
formed. -/
theorem parse_undoes_render :
    (∀ (source : Bytes) (p : Program), Program.parse source = .ok p → p.WellFormed) ∧
    ∀ p : Program, p.WellFormed ↔
      ∃ q, Program.parse (Bytes.ofString p.render) = .ok q ∧ q.erase = p.erase := by
  refine ⟨fun source p h ↦ wellFormed_of_parse h, fun p ↦ ⟨parse_render, ?_⟩⟩
  rintro ⟨q, hq, herase⟩
  exact Program.wellFormed_of_erase_eq herase (wellFormed_of_parse hq)

end RobotGolf.Grammar
