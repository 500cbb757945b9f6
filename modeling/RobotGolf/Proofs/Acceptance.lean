import Mathlib.Data.List.Nodup
import RobotGolf.Proofs.Derivation
import RobotGolf.Proofs.Scanning
/-!
# Reading accepts exactly the grammar

The last stage from token sequences to programs: definitions, the main block, and the decision
between the two. `parse_accepts_grammar` puts everything together.

## Where each direction is decided

* **The look-ahead.** Whether a line is a definition is decided by a search for a colon, which may
  run over any number of tokens. It answers yes in front of every derived definition
  (`Procedure.definitionAhead_tokens`) and no in front of every derived main block
  (`definitionAhead_main`). Both rest on `balanced`: what is derived between two parentheses closes
  all that it opens.
* **Completeness** (`Sentence.ofScan_eq_tree`) takes the derivation apart from left to right and
  needs both answers of the search.
* **Soundness** (`Sentence.exists_of_ofScan`) takes the run of the readers apart. A yes of the
  search is used only for the kind of the first token, since the readers check everything again.
* **Unambiguity** (`Sentence.unique`) reads the look-ahead backwards: no token sequence starts both
  with a definition and with a main block.
-/

namespace RobotGolf.Grammar

open Parse

variable {stop : Token} {tokens rest : List Token}

/-- The numbers of a text are numerals. -/
theorem numeral_of_spells {lexeme : Bytes} (h : Token.Spells .number lexeme) :
    Numeral lexeme (digitsValue lexeme) := by
  obtain ⟨hne, hall⟩ := Token.spells_number_iff.1 h
  exact .digits hne hall

/-- They spell no other number. -/
theorem Numeral.eq_of_spells {lexeme : Bytes} {n : ℤ} (hn : Numeral lexeme n)
    (h : Token.Spells .number lexeme) : n = decimal lexeme := by
  have hsame : some n = some (digitsValue lexeme : ℤ) :=
    (numeral?_eq_some_iff.2 hn).symm.trans (numeral?_eq_some_iff.2 (numeral_of_spells h))
  rw [decimal_eq_digitsValue]
  exact Option.some.inj hsame

/-! ### Looking for the colon of a definition

Whether a line is a definition is decided by a search for the parenthesis that closes the list
behind its name. Everything that is derived between two parentheses is balanced and stays on its
line, so the search passes over it. -/

/-- The kinds of tokens that the search passes over without counting. -/
def isPassed : TokenKind → Bool
  | .leftParen | .rightParen | .newline | .finish | .illegal => false
  | _ => true

theorem colonBehindList_passed {t : Token} (h : isPassed t.kind = true) (depth : ℕ) :
    colonBehindList depth (t :: rest) = colonBehindList depth rest := by
  rcases hk : t.kind <;> simp [isPassed, hk] at h <;> simp [colonBehindList, hk]

theorem Leaf.passed {kind : TokenKind} (t : Leaf kind) (h : isPassed kind = true) (depth : ℕ) :
    colonBehindList depth (t.token :: rest) = colonBehindList depth rest :=
  colonBehindList_passed (by rw [t.kind_eq, h]) depth

theorem Addend.passed (a : Addend) (depth : ℕ) :
    colonBehindList depth (a.token :: rest) = colonBehindList depth rest := by
  cases a with
  | number t => exact t.passed rfl depth
  | parameter t => exact t.passed rfl depth

theorem Sign.passed (s : Sign) (depth : ℕ) :
    colonBehindList depth (s.token :: rest) = colonBehindList depth rest := by
  cases s with
  | plus t => exact t.passed rfl depth
  | minus t => exact t.passed rfl depth

theorem Sum.balanced (e : Sum) (depth : ℕ) :
    colonBehindList depth (e.tokens ++ rest) = colonBehindList depth rest := by
  have htail : ∀ others : List (Sign × Addend),
      colonBehindList depth (tailTokens others ++ rest) = colonBehindList depth rest := by
    intro others
    induction others with
    | nil => rfl
    | cons x others ih => exact (x.1.passed depth).trans ((x.2.passed depth).trans ih)
  obtain ⟨- | s, first, others⟩ := e
  · exact (first.passed depth).trans (htail others)
  · exact (s.passed depth).trans ((first.passed depth).trans (htail others))

mutual
theorem Statement.balanced (s : Statement) {rest : List Token} (depth : ℕ) :
    colonBehindList (depth + 1) (s.tokens ++ rest) = colonBehindList (depth + 1) rest := by
  match s with
  | .command t => exact t.passed rfl _
  | .plain name => exact name.passed rfl _
  | .applied name left args right =>
    -- the arguments are passed over one level deeper
    have hleft : colonBehindList (depth + 1) (left.token :: (args.tokens ++ right.token :: rest)) =
        colonBehindList (depth + 1 + 1) (args.tokens ++ right.token :: rest) := by
      simp [colonBehindList, left.kind_eq]
    have hright : colonBehindList (depth + 1 + 1) (right.token :: rest) =
        colonBehindList (depth + 1) rest := by
      simp [colonBehindList, right.kind_eq]
    have happ : (Statement.applied name left args right).tokens ++ rest =
        name.token :: left.token :: (args.tokens ++ right.token :: rest) := by
      simp [Statement.tokens]
    rw [happ, name.passed rfl, hleft, args.balanced, hright]

theorem Item.balanced (i : Item) {rest : List Token} (depth : ℕ) :
    colonBehindList (depth + 1) (i.tokens ++ rest) = colonBehindList (depth + 1) rest := by
  match i with
  | .statement s => exact s.balanced depth
  | .parameter t => exact t.passed rfl _

theorem Items.balanced (is : Items) {rest : List Token} (depth : ℕ) :
    colonBehindList (depth + 1) (is.tokens ++ rest) = colonBehindList (depth + 1) rest := by
  match is with
  | .nil => rfl
  | .cons i others => rw [Items.tokens, List.append_assoc, i.balanced, others.balanced]

theorem Arg.balanced (a : Arg) {rest : List Token} (depth : ℕ) :
    colonBehindList (depth + 1) (a.tokens ++ rest) = colonBehindList (depth + 1) rest := by
  match a with
  | .reference t => exact t.passed rfl _
  | .quotedOne s => exact s.balanced depth
  | .quotedMany i j others =>
    rw [Arg.tokens, List.append_assoc, List.append_assoc, i.balanced, j.balanced, others.balanced]
  | .sum e _ => exact e.balanced _

theorem Args.balanced (args : Args) {rest : List Token} (depth : ℕ) :
    colonBehindList (depth + 1) (args.tokens ++ rest) = colonBehindList (depth + 1) rest := by
  match args with
  | .last a => exact a.balanced depth
  | .cons a comma others =>
    rw [Args.tokens, List.append_assoc, a.balanced, List.cons_append, comma.passed rfl,
      others.balanced]
end

/-- Behind a statement of the main block there is neither a colon nor a parenthesis. -/
theorem Statement.kindAhead_flatMap (ss : List Statement) :
    kindAhead (ss.flatMap Statement.tokens) = none ∨
    kindAhead (ss.flatMap Statement.tokens) = some .command ∨
    kindAhead (ss.flatMap Statement.tokens) = some .procedure := by
  rcases ss with - | ⟨s, ss⟩
  · exact Or.inl rfl
  · obtain ⟨t, behind, heq, hk⟩ := s.exists_tokens_eq
    rcases hk with hk | hk <;> simp [heq, kindAhead, hk]

/-- **A main block is not taken for a definition.** -/
theorem definitionAhead_main (ss : List Statement) :
    definitionAhead (ss.flatMap Statement.tokens) = false := by
  rcases ss with - | ⟨s, ss⟩
  · rfl
  have hnext := Statement.kindAhead_flatMap ss
  rw [List.flatMap_cons]
  cases s with
  | command t =>
    rcases ss.flatMap Statement.tokens with - | ⟨u, behind⟩ <;>
      simp [Statement.tokens, definitionAhead, t.kind_eq]
  | plain name =>
    rcases htokens : ss.flatMap Statement.tokens with - | ⟨u, behind⟩
    · rfl
    · rw [htokens] at hnext
      rcases hnext with h | h | h <;> simp [kindAhead] at h <;>
        simp [Statement.tokens, definitionAhead, h]
  | applied name left args right =>
    have hclosed : colonBehindList 1 (args.tokens ++ right.token :: ss.flatMap Statement.tokens) =
        false := by
      rw [args.balanced 0]
      rcases hnext with h | h | h <;> simp [colonBehindList, right.kind_eq, h]
    simp [Statement.tokens, definitionAhead, left.kind_eq, hclosed]

/-! ### Parameter lists -/

/-- The tokens of the parameters behind the first one. -/
abbrev paramTokens (others : List (Leaf .comma × Leaf .parameter)) : List Token :=
  others.flatMap fun x ↦ [x.1.token, x.2.token]

/-- The names of the parameters behind the first one. -/
abbrev paramNames (others : List (Leaf .comma × Leaf .parameter)) : List String :=
  others.map fun x ↦ x.2.token.text

theorem notMem_of_nodup_append_cons {name : String} {before others : List String}
    (h : (before ++ name :: others).Nodup) : name ∉ before := by
  intro hmem
  exact (List.nodup_append.1 h).2.2 _ hmem _ (List.mem_cons_self ..) rfl

theorem parameters_complete {procedure : String} {before : List String} (first : Leaf .parameter)
    (others : List (Leaf .comma × Leaf .parameter)) (right : Leaf .rightParen)
    (h : (before ++ first.token.text :: paramNames others).Nodup) :
    Reads (parameters stop procedure before
        (first.token :: (paramTokens others ++ right.token :: rest)))
      (before ++ first.token.text :: paramNames others) rest := by
  induction others generalizing before first with
  | nil => exact parameters_last first.kind_eq (notMem_of_nodup_append_cons h) right.kind_eq
  | cons x others ih =>
    have h' : ((before ++ [first.token.text]) ++ x.2.token.text :: paramNames others).Nodup := by
      simpa using h
    have hmore := ih x.2 h'
    rw [List.append_assoc] at hmore
    exact parameters_cons first.kind_eq (notMem_of_nodup_append_cons h) x.1.kind_eq hmore

theorem exists_of_parameters {procedure : String} {before names : List String}
    (hbefore : before.Nodup) (h : Reads (parameters stop procedure before tokens) names rest) :
    ∃ (first : Leaf .parameter) (others : List (Leaf .comma × Leaf .parameter))
      (right : Leaf .rightParen),
      tokens = first.token :: (paramTokens others ++ right.token :: rest) ∧
      names = before ++ first.token.text :: paramNames others ∧ names.Nodup := by
  induction hn : tokens.length using Nat.strong_induction_on generalizing tokens before with
  | _ n ih =>
    obtain ⟨t, next, behind, rfl, ht, hnew, hcase⟩ := parameters_cases h
    have hbefore' : (before ++ [t.text]).Nodup := by
      refine List.nodup_append.2 ⟨hbefore, List.nodup_singleton _, ?_⟩
      intro a ha b hb heq
      rw [List.mem_singleton] at hb
      exact hnew (hb ▸ heq ▸ ha)
    rcases hcase with ⟨hnext, rfl, rfl⟩ | ⟨hnext, hmore⟩
    · exact ⟨⟨t, ht⟩, [], ⟨next, hnext⟩, rfl, rfl, hbefore'⟩
    · simp only [List.length_cons] at hn
      obtain ⟨first, others, right, rfl, rfl, hnodup⟩ :=
        ih behind.length (by omega) hbefore' hmore rfl
      exact ⟨⟨t, ht⟩, (⟨next, hnext⟩, first) :: others, right, rfl, by simp, hnodup⟩

theorem paramTokens_unique {others others' : List (Leaf .comma × Leaf .parameter)}
    {right right' : Leaf .rightParen} {rest rest' : List Token}
    (h : paramTokens others ++ right.token :: rest = paramTokens others' ++ right'.token :: rest') :
    others = others' ∧ right = right' ∧ rest = rest' := by
  induction others generalizing others' with
  | nil =>
    rcases others' with - | ⟨x', others'⟩ <;>
      simp only [paramTokens, List.flatMap_nil, List.nil_append, List.flatMap_cons,
        List.cons_append, List.cons.injEq] at h
    · exact ⟨rfl, Leaf.ext h.1, h.2⟩
    · exact absurd h.1 (right.token_ne x'.1 (by decide))
  | cons x others ih =>
    rcases others' with - | ⟨x', others'⟩ <;>
      simp only [paramTokens, List.flatMap_nil, List.nil_append, List.flatMap_cons,
        List.cons_append, List.cons.injEq] at h
    · exact absurd h.1 (x.1.token_ne right' (by decide))
    · obtain ⟨rfl, rfl, rfl⟩ := ih h.2.2
      exact ⟨by rw [Prod.ext (Leaf.ext h.1) (Leaf.ext h.2.1)], rfl, rfl⟩

/-! ### Definitions -/

/-- The tokens of an optional parameter list. -/
def optTokens (params : Option Params) : List Token := (params.map Params.tokens).getD []

/-- The names in an optional parameter list. -/
def optNames (params : Option Params) : List String := (params.map Params.names).getD []

theorem parameterList_complete {procedure : String} (params : Option Params)
    (hrest : kindAhead rest ≠ some .leftParen) :
    Reads (parameterList stop procedure (optTokens params ++ rest)) (optNames params) rest := by
  rcases params with - | ⟨left, first, others, right, distinct⟩
  · exact parameterList_none hrest
  · have happ : optTokens (some ⟨left, first, others, right, distinct⟩) ++ rest =
        left.token :: first.token :: (paramTokens others ++ right.token :: rest) := by
      simp [optTokens, Params.tokens]
    rw [happ]
    exact parameterList_some left.kind_eq (parameters_complete first others right distinct)

theorem exists_of_parameterList {procedure : String} {names : List String}
    (h : Reads (parameterList stop procedure tokens) names rest) :
    ∃ params : Option Params, tokens = optTokens params ++ rest ∧ names = optNames params := by
  rcases parameterList_cases h with ⟨rfl, rfl, -⟩ | ⟨t, behind, rfl, ht, hparams⟩
  · exact ⟨none, rfl, rfl⟩
  · obtain ⟨first, others, right, rfl, rfl, hnodup⟩ :=
      exists_of_parameters List.nodup_nil hparams
    exact ⟨some ⟨⟨t, ht⟩, first, others, right, hnodup⟩, by simp [optTokens, Params.tokens], rfl⟩

/-- The search passes over a parameter list and looks at the token behind it. -/
theorem colonBehindList_params (first : Leaf .parameter)
    (others : List (Leaf .comma × Leaf .parameter)) (right : Leaf .rightParen) :
    colonBehindList 1 (first.token :: (paramTokens others ++ right.token :: rest)) =
      (kindAhead rest == some .colon) := by
  have hpassed : ∀ (xs : List (Leaf .comma × Leaf .parameter)) (after : List Token),
      colonBehindList 1 (paramTokens xs ++ after) = colonBehindList 1 after := by
    intro xs after
    induction xs with
    | nil => rfl
    | cons x xs ih => exact (x.1.passed rfl 1).trans ((x.2.passed rfl 1).trans ih)
  rw [first.passed rfl, hpassed]
  simp [colonBehindList, right.kind_eq]

/-- **A definition is told from the token behind its head.** -/
theorem definitionAhead_head {name : Token} (hname : name.kind = .procedure)
    (params : Option Params) (hrest : params = none → kindAhead rest ≠ some .leftParen) :
    definitionAhead (name :: (optTokens params ++ rest)) = (kindAhead rest == some .colon) := by
  rcases params with - | ⟨left, first, others, right, distinct⟩
  · have hparen := hrest rfl
    rcases rest with - | ⟨next, behind⟩
    · rfl
    · rcases hk : next.kind <;> simp [kindAhead, hk] at hparen <;>
        simp [optTokens, definitionAhead, hname, kindAhead, hk]
  · simp [optTokens, Params.tokens, definitionAhead, hname, left.kind_eq, colonBehindList_params]

namespace Procedure

/-- The tokens of a definition and what follows it, in the order in which they are looked at. -/
theorem tokens_append (d : Procedure) (rest : List Token) :
    d.tokens ++ rest = d.name.token :: (optTokens d.params ++
      d.colon.token :: (d.first.tokens ++ (d.others.tokens ++ d.newline.token :: rest))) := by
  simp [tokens, optTokens]

theorem goesOn_newline (d : Procedure) (rest : List Token) :
    goesOn (kindAhead (d.newline.token :: rest)) = false := by
  simp [kindAhead, goesOn, d.newline.kind_eq]

/-- **A definition is taken for one.** -/
theorem definitionAhead_tokens (d : Procedure) (rest : List Token) :
    definitionAhead (d.tokens ++ rest) = true := by
  rw [tokens_append, definitionAhead_head d.name.kind_eq d.params]
  · simp [kindAhead, d.colon.kind_eq]
  · simp [kindAhead, d.colon.kind_eq]

theorem reads (d : Procedure) (rest : List Token) :
    Reads (definition stop d.name.token (optTokens d.params ++
      d.colon.token :: (d.first.tokens ++ (d.others.tokens ++ d.newline.token :: rest))))
      d.tree rest := by
  have hbody : Reads (sequence stop true (d.first.tokens ++
      (d.others.tokens ++ d.newline.token :: rest))) d.body (d.newline.token :: rest) :=
    d.first.reads_cons
      (d.others.kindAhead_tokens (ne_leftParen_of_goesOn (d.goesOn_newline rest)))
      (d.others.reads (d.goesOn_newline rest))
  refine definition_intro (parameterList_complete d.params ?_) d.colon.kind_eq hbody ?_
    d.newline.kind_eq
  · simp [kindAhead, d.colon.kind_eq]
  · exact List.getLast?_eq_some_getLast (by simp [body])

end Procedure

theorem exists_of_definition {name : Token} {d : Definition} (hname : name.kind = .procedure)
    (h : Reads (definition stop name tokens) d rest) :
    ∃ d' : Procedure, name :: tokens = d'.tokens ++ rest ∧ d = d'.tree := by
  obtain ⟨names, body, last, colon, newline, behind, hparams, hcolon, hbody, hlast, hnewline,
    rfl⟩ := definition_cases h
  obtain ⟨params, rfl, rfl⟩ := exists_of_parameterList hparams
  obtain ⟨is, rfl, rfl⟩ := exists_of_sequence hbody
  rcases is with - | ⟨i, others⟩
  · simp [Items.tree] at hlast
  · refine ⟨⟨⟨name, hname⟩, params, ⟨colon, hcolon⟩, i, others, ⟨newline, hnewline⟩⟩, ?_, ?_⟩
    · rw [Procedure.tokens_append]
      simp [Items.tokens]
    · have hlast' : (i.tree :: others.tree).getLast (by simp) = last := by
        simpa [Items.tree, List.getLast?_eq_some_getLast] using hlast
      simp only [Procedure.tree, Procedure.body, hlast']
      rfl

theorem optTokens_unique {params params' : Option Params} {colon colon' : Leaf .colon}
    {rest rest' : List Token}
    (h : optTokens params ++ colon.token :: rest = optTokens params' ++ colon'.token :: rest') :
    params = params' ∧ colon = colon' ∧ rest = rest' := by
  rcases params with - | ⟨left, first, others, right, distinct⟩ <;>
    rcases params' with - | ⟨left', first', others', right', distinct'⟩ <;>
    simp only [optTokens, Params.tokens, Option.map_none, Option.map_some, Option.getD_none,
      Option.getD_some, List.nil_append, List.cons_append, List.append_assoc,
      List.cons.injEq] at h
  · exact ⟨rfl, Leaf.ext h.1, h.2⟩
  · exact absurd h.1 (colon.token_ne left' (by decide))
  · exact absurd h.1 (left.token_ne colon' (by decide))
  · obtain ⟨hleft, hfirst, h⟩ := h
    obtain ⟨rfl, rfl, hrest⟩ := paramTokens_unique h
    obtain rfl := Leaf.ext hleft
    obtain rfl := Leaf.ext hfirst
    simp only [List.cons.injEq] at hrest
    exact ⟨rfl, Leaf.ext hrest.1, hrest.2⟩

theorem Procedure.unique {d d' : Procedure} {rest rest' : List Token}
    (h : d.tokens ++ rest = d'.tokens ++ rest') : d = d' ∧ rest = rest' := by
  have hparen := ne_leftParen_of_goesOn (d.goesOn_newline rest)
  have hparen' := ne_leftParen_of_goesOn (d'.goesOn_newline rest')
  rw [tokens_append, tokens_append, List.cons.injEq] at h
  obtain ⟨hname, h⟩ := h
  obtain ⟨hparams, hcolon, h⟩ := optTokens_unique h
  obtain ⟨hfirst, h⟩ := d.first.unique d'.first h (d.others.kindAhead_tokens hparen)
    (d'.others.kindAhead_tokens hparen')
  obtain ⟨hothers, h⟩ := d.others.unique d'.others h (d.goesOn_newline rest)
    (d'.goesOn_newline rest')
  rw [List.cons.injEq] at h
  obtain ⟨name, params, colon, first, others, newline⟩ := d
  obtain ⟨name', params', colon', first', others', newline'⟩ := d'
  simp only at hname hparams hcolon hfirst hothers h
  rw [Leaf.ext hname, hparams, hcolon, hfirst, hothers, Leaf.ext h.1]
  exact ⟨rfl, h.2⟩

/-! ### Definitions and the main block -/

theorem kind_of_definitionAhead {name : Token} (h : definitionAhead (name :: tokens) = true) :
    name.kind = .procedure := by
  rcases tokens with - | ⟨next, behind⟩
  · simp [definitionAhead] at h
  · simp only [definitionAhead, Bool.and_eq_true, beq_iff_eq] at h
    exact h.1

theorem definitions_complete (ds : List Procedure) (hrest : definitionAhead rest = false) :
    Reads (definitions stop (ds.flatMap Procedure.tokens ++ rest)) (ds.map Procedure.tree)
      rest := by
  induction ds with
  | nil => exact definitions_stop hrest
  | cons d ds ih =>
    have hahead := d.definitionAhead_tokens (ds.flatMap Procedure.tokens ++ rest)
    rw [List.flatMap_cons, List.append_assoc]
    rw [d.tokens_append] at hahead ⊢
    exact definitions_cons hahead (d.reads _) ih

theorem exists_of_definitions {ds : List Definition}
    (h : Reads (definitions stop tokens) ds rest) :
    ∃ ds' : List Procedure, tokens = ds'.flatMap Procedure.tokens ++ rest ∧
      ds = ds'.map Procedure.tree := by
  induction ds generalizing tokens with
  | nil =>
    rcases definitions_cases h with ⟨-, rfl, -⟩ | ⟨name, behind, d, after, more, -, -, hnil, -⟩
    · exact ⟨[], rfl, rfl⟩
    · simp at hnil
  | cons d ds ih =>
    rcases definitions_cases h with ⟨hnil, -⟩ |
      ⟨name, behind, d, after, more, rfl, hahead, heq, hd, hmore⟩
    · simp at hnil
    · obtain ⟨rfl, rfl⟩ := List.cons.inj heq
      obtain ⟨d', htokens, rfl⟩ := exists_of_definition (kind_of_definitionAhead hahead) hd
      obtain ⟨ds', rfl, rfl⟩ := ih hmore
      exact ⟨d' :: ds', by rw [htokens, List.flatMap_cons, List.append_assoc], rfl⟩

theorem Statement.ne_leftParen_flatMap (ss : List Statement) :
    kindAhead (ss.flatMap Statement.tokens) ≠ some .leftParen := by
  rcases Statement.kindAhead_flatMap ss with h | h | h <;> simp [h]

theorem mainBlock_complete (s : Statement) (ss : List Statement) (hstop : stop.kind = .finish) :
    mainBlock stop ((s :: ss).flatMap Statement.tokens) = .ok ((s :: ss).map Statement.tree) := by
  have hmain : ∀ ss : List Statement,
      Reads (sequence stop false (ss.flatMap Statement.tokens)) (ss.map Statement.tree) [] := by
    intro ss
    induction ss with
    | nil => exact sequence_stop rfl
    | cons s ss ih => exact s.reads_cons (Statement.ne_leftParen_flatMap ss) ih
  refine mainBlock_intro ?_ (hmain (s :: ss)) (by simp) hstop
  rcases Statement.kindAhead_flatMap (s :: ss) with h | h | h <;> rw [h] <;> simp

/-! ### Programs -/

namespace Sentence

variable {scan : Scan}

theorem tokens_eq (d : Sentence) :
    d.tokens = (d.procedures.flatMap Procedure.tokens ++
      (d.first :: d.others).flatMap Statement.tokens) ++ [d.finish.token] := by
  simp [tokens]

/-- The end of the text is what ended the scan. -/
theorem last_eq (d : Sentence) (h : d.tokens = scan.tokens ++ [scan.last]) :
    d.finish.token = scan.last := by
  rw [tokens_eq] at h
  exact (List.cons.inj (List.append_inj' h rfl).2).1

/-- **Completeness.** What is derived is read, and as the tree of its derivation. -/
theorem ofScan_eq_tree (d : Sentence) (h : d.tokens = scan.tokens ++ [scan.last]) :
    Program.ofScan scan = .ok d.tree := by
  have hstop : scan.last.kind = .finish := by rw [← d.last_eq h, d.finish.kind_eq]
  rw [tokens_eq] at h
  have htokens := (List.append_inj' h rfl).1
  obtain ⟨hle, hds⟩ : Reads (definitions scan.last scan.tokens) (d.procedures.map Procedure.tree)
      ((d.first :: d.others).flatMap Statement.tokens) := by
    rw [← htokens]
    exact definitions_complete d.procedures (definitionAhead_main _)
  simp only [Program.ofScan, hds, mainBlock_complete d.first d.others hstop]
  rfl

/-- **Soundness.** What is read has a derivation, in a text that does not end before its last
token. -/
theorem exists_of_ofScan {p : Program} (hinner : ∀ t ∈ scan.tokens, t.kind ≠ .finish)
    (h : Program.ofScan scan = .ok p) :
    ∃ d : Sentence, d.tokens = scan.tokens ++ [scan.last] := by
  rw [Program.ofScan] at h
  rcases hds : definitions scan.last scan.tokens with f | found <;>
    simp only [hds, reduceCtorEq] at h
  rcases hmain : mainBlock scan.last found.rest with f | main <;>
    simp only [hmain, reduceCtorEq] at h
  obtain ⟨ds, htokens, -⟩ := exists_of_definitions (Reads.of_eq_ok hds)
  obtain ⟨rest, hne, hseq, hfinish⟩ := mainBlock_cases hmain
  obtain ⟨ss, hss, hv⟩ := exists_of_sequence_false hseq
  -- The main block stops at an end of text, which no token within the text is.
  have hrest : rest = [] := by
    rcases rest with - | ⟨t, behind⟩
    · rfl
    · exact absurd hfinish (hinner t (by rw [htokens, hss]; simp))
  subst hrest
  rcases ss with - | ⟨s, ss⟩
  · exact absurd hv hne
  · refine ⟨⟨ds, s, ss, ⟨scan.last, hfinish⟩⟩, ?_⟩
    rw [tokens_eq, htokens, hss, List.append_nil]

theorem statements_unique {ss ss' : List Statement}
    (h : ss.flatMap Statement.tokens = ss'.flatMap Statement.tokens) : ss = ss' := by
  have hne : ∀ s : Statement, s.tokens ≠ [] := by
    intro s hs
    obtain ⟨t, behind, heq, -⟩ := s.exists_tokens_eq
    simp [heq] at hs
  induction ss generalizing ss' with
  | nil =>
    rcases ss' with - | ⟨s', ss'⟩
    · rfl
    · rw [List.flatMap_nil, List.flatMap_cons] at h
      exact absurd (List.append_eq_nil_iff.1 h.symm).1 (hne s')
  | cons s ss ih =>
    rcases ss' with - | ⟨s', ss'⟩
    · rw [List.flatMap_nil, List.flatMap_cons] at h
      exact absurd (List.append_eq_nil_iff.1 h).1 (hne s)
    · rw [List.flatMap_cons, List.flatMap_cons] at h
      obtain ⟨rfl, hmore⟩ := s.unique s' h (Statement.ne_leftParen_flatMap ss)
        (Statement.ne_leftParen_flatMap ss')
      rw [ih hmore]

/-- Where the definitions end is seen from the tokens ahead: a definition is taken for one, and the
main block is not. -/
theorem procedures_unique {ds ds' : List Procedure} {ss ss' : List Statement}
    (h : ds.flatMap Procedure.tokens ++ ss.flatMap Statement.tokens =
      ds'.flatMap Procedure.tokens ++ ss'.flatMap Statement.tokens) : ds = ds' ∧ ss = ss' := by
  have hclash : ∀ (ss : List Statement) (d : Procedure) (rest : List Token),
      ss.flatMap Statement.tokens ≠ d.tokens ++ rest := by
    intro ss d rest heq
    have hmain := definitionAhead_main ss
    rw [heq, d.definitionAhead_tokens] at hmain
    simp at hmain
  induction ds generalizing ds' with
  | nil =>
    rcases ds' with - | ⟨d', ds'⟩
    · exact ⟨rfl, statements_unique h⟩
    · rw [List.flatMap_nil, List.nil_append, List.flatMap_cons, List.append_assoc] at h
      exact absurd h (hclash ss d' _)
  | cons d ds ih =>
    rcases ds' with - | ⟨d', ds'⟩
    · rw [List.flatMap_nil, List.nil_append, List.flatMap_cons, List.append_assoc] at h
      exact absurd h.symm (hclash ss' d _)
    · rw [List.flatMap_cons, List.flatMap_cons, List.append_assoc, List.append_assoc] at h
      obtain ⟨rfl, hmore⟩ := Procedure.unique h
      obtain ⟨rfl, rfl⟩ := ih hmore
      exact ⟨rfl, rfl⟩

/-- **Unambiguity.** A token sequence has at most one derivation. -/
theorem unique {d d' : Sentence} (h : d.tokens = d'.tokens) : d = d' := by
  rw [tokens_eq, tokens_eq] at h
  obtain ⟨hinner, hlast⟩ := List.append_inj' h rfl
  obtain ⟨hds, hss⟩ := procedures_unique hinner
  obtain ⟨ds, s, ss, finish⟩ := d
  obtain ⟨ds', s', ss', finish'⟩ := d'
  simp only [List.cons.injEq, and_true] at hds hss hlast
  rw [hds, hss.1, hss.2, Leaf.ext hlast]

end Sentence

variable {source : Bytes}

theorem parse_eq_tree (d : Sentence)
    (h : d.tokens = (Token.scan (Bytes.trim source)).deliver 0) :
    Program.parse source = .ok d.tree := by
  rw [Program.parse, d.ofScan_eq_tree h]

/-- A program that was read is the tree of a derivation of its tokens. -/
theorem exists_of_parse {p : Program} (h : Program.parse source = .ok p) :
    ∃ d : Sentence, d.tokens = (Token.scan (Bytes.trim source)).deliver 0 ∧ p = d.tree := by
  have hp := h
  rw [Program.parse] at hp
  rcases hscan : Program.ofScan (Token.scan (Bytes.trim source)) with f | q <;>
    simp only [hscan, reduceCtorEq] at hp
  obtain ⟨d, hd⟩ := Sentence.exists_of_ofScan
    (fun t ht ↦ (Token.spells_of_mem_scan ht).ne_last.1) hscan
  rw [parse_eq_tree d hd, Except.ok.injEq] at h
  exact ⟨d, hd, h.symm⟩

/-- The same for the tokens within the text, which then ends as a text should. -/
theorem exists_tokens_of_parse {p : Program} (h : Program.parse source = .ok p) :
    ∃ d : Sentence, d.tree = p ∧
      d.procedures.flatMap Procedure.tokens ++ (d.first :: d.others).flatMap Statement.tokens =
        (Token.scan (Bytes.trim source)).tokens ∧
      (Token.scan (Bytes.trim source)).last.kind = .finish := by
  obtain ⟨d, hd, rfl⟩ := exists_of_parse h
  have hlast := d.last_eq hd
  rw [Sentence.tokens_eq] at hd
  exact ⟨d, rfl, (List.append_inj' hd rfl).1, by rw [← hlast, d.finish.kind_eq]⟩

/-- **Reading accepts exactly the grammar, and builds the tree of the derivation.** A source is read
if and only if the scan of its trimmed text meets no illegal character and its tokens, the end of
the text included, are derivable. The program that is read is then the tree of the derivation, of
which there is only one. -/
theorem parse_accepts_grammar (source : Bytes) :
    ((∃ p, Program.parse source = .ok p) ↔
      (∀ t ∈ (Token.scan (Bytes.trim source)).deliver 0, t.kind ≠ .illegal) ∧
        ∃ d : Sentence, d.tokens = (Token.scan (Bytes.trim source)).deliver 0) ∧
    ∀ d : Sentence, d.tokens = (Token.scan (Bytes.trim source)).deliver 0 →
      Program.parse source = .ok d.tree ∧
        ∀ d' : Sentence, d'.tokens = (Token.scan (Bytes.trim source)).deliver 0 → d' = d := by
  refine ⟨⟨?_, ?_⟩, fun d h ↦ ⟨parse_eq_tree d h, fun d' h' ↦ Sentence.unique (h'.trans h.symm)⟩⟩
  · rintro ⟨p, hp⟩
    obtain ⟨d, hd, -⟩ := exists_of_parse hp
    refine ⟨fun t ht ↦ ?_, d, hd⟩
    rcases List.mem_append.1 ht with ht | ht
    · exact (Token.spells_of_mem_scan ht).ne_last.2
    · rw [List.mem_singleton.1 ht, ← d.last_eq hd, d.finish.kind_eq]
      simp
  · rintro ⟨-, d, hd⟩
    exact ⟨d.tree, parse_eq_tree d hd⟩

end RobotGolf.Grammar
