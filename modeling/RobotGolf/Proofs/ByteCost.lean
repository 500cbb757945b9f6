import RobotGolf.Program.Cost
import RobotGolf.Proofs.Acceptance
import RobotGolf.Proofs.Tiling
/-!
# The byte cost of a program is the number of its operand tokens

The cost of a program is computed from its tree, by a recursion that halves the length of every sum.
For a program that was read from a source there is a plain account of it: every command, procedure
name, parameter and number of the source costs one byte, and everything else is free
(`Program.cost_counts_operands`).

Both sides are compared on derivations. A derivation has a tree and tokens, and the cost of the tree
is the number of operands among the tokens, by recursion over the derivation
(`Statement.cost_tree`, …). In a sum, signs and terms take turns, so half of the tokens are terms
(`Sum.length_tokens`); and since tokens cover the text without gaps, the tokens of a sum are those
within its span (`Sum.span_tree`).
-/

namespace RobotGolf

/-! ### The sums of a program -/

mutual
/-- The sums in an element, at any depth. -/
def Element.sums : Element → List Arithmetic
  | .command _ _ => []
  | .parameter _ _ => []
  | .call _ args _ => Argument.listSums args

/-- The sums in an argument, at any depth. -/
def Argument.sums : Argument → List Arithmetic
  | .parameter _ _ => []
  | .quoted body _ => Element.sequenceSums body
  | .arithmetic sum => [sum]

/-- The sums in a sequence of elements. -/
def Element.sequenceSums : List Element → List Arithmetic
  | [] => []
  | e :: rest => e.sums ++ Element.sequenceSums rest

/-- The sums in the arguments of a call. -/
def Argument.listSums : List Argument → List Arithmetic
  | [] => []
  | a :: rest => a.sums ++ Argument.listSums rest
end

/-- All sums of a program. -/
def Program.sums (p : Program) : List Arithmetic :=
  p.definitions.flatMap (fun d ↦ Element.sequenceSums d.body) ++ Element.sequenceSums p.main

/-- Extending a span by one that begins behind it. -/
theorem Span.extend_of_le {span other : Span} (hspan : span.start < span.stop)
    (hstart : span.start ≤ other.start) (hstop : span.stop ≤ other.stop) :
    span.extend other = ⟨span.start, other.stop⟩ := by
  have hnull : span.isNull = false := by
    rw [isNull, beq_eq_false_iff_ne]
    rintro rfl
    exact Nat.lt_irrefl _ hspan
  rw [extend, hnull, if_neg Bool.false_ne_true, Nat.min_eq_left hstart, Nat.max_eq_right hstop]

/-- A sum costs one byte for each of its terms. -/
theorem Arithmetic.cost_eq_length (a : Arithmetic) : a.cost = a.terms.length := by
  unfold cost tokenCount
  split <;> omega

namespace Grammar

/-- The number of tokens that cost a byte. -/
def operands (tokens : List Token) : ℕ := tokens.countP (·.kind.isOperand)

@[simp]
theorem operands_nil : operands [] = 0 := rfl

@[simp]
theorem operands_append (tokens others : List Token) :
    operands (tokens ++ others) = operands tokens + operands others :=
  List.countP_append

/-- A leaf of a derivation costs a byte or not by its kind alone. -/
@[simp]
theorem operands_leaf {kind : TokenKind} (t : Leaf kind) (rest : List Token) :
    operands (t.token :: rest) = (if kind.isOperand then 1 else 0) + operands rest := by
  rw [operands, List.countP_cons, t.kind_eq, Nat.add_comm]
  rfl

/-! ### Sums -/

@[simp]
theorem operands_addend (a : Addend) (rest : List Token) :
    operands (a.token :: rest) = 1 + operands rest := by
  cases a with
  | number t => exact operands_leaf t rest
  | parameter t => exact operands_leaf t rest

@[simp]
theorem operands_sign (s : Sign) (rest : List Token) :
    operands (s.token :: rest) = operands rest := by
  cases s with
  | plus t => exact (operands_leaf t rest).trans (Nat.zero_add _)
  | minus t => exact (operands_leaf t rest).trans (Nat.zero_add _)

namespace Sum

theorem operands_tailTokens (others : List (Sign × Addend)) :
    operands (tailTokens others) = others.length := by
  induction others with
  | nil => rfl
  | cons x others ih =>
    have htail : tailTokens (x :: others) = x.1.token :: x.2.token :: tailTokens others := rfl
    rw [htail, operands_sign, operands_addend, ih, List.length_cons, Nat.add_comm]

/-- The operands of a sum are its terms. -/
theorem operands_tokens (e : Sum) : operands e.tokens = e.tree.terms.length := by
  obtain ⟨- | s, first, others⟩ := e <;>
    simp [tokens, tree, terms, tailTerms, operands_tailTokens, Nat.add_comm]

theorem length_tailTokens (others : List (Sign × Addend)) :
    (tailTokens others).length = 2 * others.length := by
  induction others with
  | nil => rfl
  | cons x others ih =>
    have htail : tailTokens (x :: others) = x.1.token :: x.2.token :: tailTokens others := rfl
    rw [htail, List.length_cons, List.length_cons, List.length_cons, ih]
    omega

/-- The tokens of a sum are as many as its tree says. -/
theorem length_tokens (e : Sum) : (e.tokens.length : ℤ) = e.tree.tokenCount := by
  obtain ⟨sign, first, others⟩ := e
  have htail := length_tailTokens others
  rcases sign with - | s
  · simp [tokens, tree, terms, tailTerms, Arithmetic.tokenCount, htail]
    omega
  · simp [tokens, tree, terms, tailTerms, Arithmetic.tokenCount, htail]
    omega

/-- A span that is not empty grows to the right, term by term, as far as the terms reach. -/
theorem extend_tailTokens {others : List (Sign × Addend)} {start middle stop : ℕ}
    (hspan : start < middle) (h : Token.Tiles middle (tailTokens others) stop) :
    extend ⟨start, middle⟩ (others.map Prod.snd) = ⟨start, stop⟩ := by
  induction others generalizing middle with
  | nil =>
    cases h
    rfl
  | cons x others ih =>
    obtain ⟨hsign, hsignPos, h⟩ := Token.tiles_cons_iff.1 h
    obtain ⟨haddend, haddendPos, h⟩ := Token.tiles_cons_iff.1 h
    have hreach : Span.extend ⟨start, middle⟩ x.2.token.span = ⟨start, x.2.token.span.stop⟩ :=
      Span.extend_of_le hspan (by show start ≤ _; omega) (by show middle ≤ _; omega)
    have hfold : extend ⟨start, middle⟩ ((x :: others).map Prod.snd) =
        extend (Span.extend ⟨start, middle⟩ x.2.token.span) (others.map Prod.snd) := rfl
    rw [hfold, hreach]
    exact ih (by omega) h

/-- **A sum covers what its tokens cover.** -/
theorem span_tree (e : Sum) {start stop : ℕ} (h : Token.Tiles start e.tokens stop) :
    e.tree.span = ⟨start, stop⟩ := by
  obtain ⟨sign, first, others⟩ := e
  have hfold : (tree ⟨sign, first, others⟩).span =
      extend ((sign.elim first.token.span fun s ↦ s.token.span).extend first.token.span)
        (others.map Prod.snd) := rfl
  rw [hfold]
  rcases sign with - | s
  · obtain ⟨rfl, hfirst, h⟩ := Token.tiles_cons_iff.1 h
    rw [Option.elim_none, Span.extend_of_le hfirst le_rfl le_rfl]
    exact extend_tailTokens hfirst h
  · obtain ⟨rfl, hsign, h⟩ := Token.tiles_cons_iff.1 h
    obtain ⟨hstart, hfirst, h⟩ := Token.tiles_cons_iff.1 h
    dsimp only at hstart hfirst h
    rw [Option.elim_some, Span.extend_of_le hsign (by omega) (by omega)]
    exact extend_tailTokens (by omega) h

end Sum

/-! ### Statements and arguments -/

mutual
theorem Statement.cost_tree (s : Statement) : s.tree.cost = operands s.tokens := by
  match s with
  | .command t => simp [Statement.tree, Statement.tokens, Element.cost, TokenKind.isOperand]
  | .plain name =>
    simp [Statement.tree, Statement.tokens, Element.cost, Argument.listCost, TokenKind.isOperand]
  | .applied name left args right =>
    simp [Statement.tree, Statement.tokens, Element.cost, args.cost_tree, TokenKind.isOperand]

theorem Item.cost_tree (i : Item) : i.tree.cost = operands i.tokens := by
  match i with
  | .statement s => exact s.cost_tree
  | .parameter t => simp [Item.tree, Item.tokens, Element.cost, TokenKind.isOperand]

theorem Items.cost_tree (is : Items) : Element.sequenceCost is.tree = operands is.tokens := by
  match is with
  | .nil => rfl
  | .cons i others =>
    rw [Items.tree, Items.tokens, Element.sequenceCost, operands_append, i.cost_tree,
      others.cost_tree]

theorem Arg.cost_tree (a : Arg) : a.tree.cost = operands a.tokens := by
  match a with
  | .reference t => simp [Arg.tree, Arg.tokens, Argument.cost, TokenKind.isOperand]
  | .quotedOne s => simp [Arg.tree, Arg.tokens, Argument.cost, Element.sequenceCost, s.cost_tree]
  | .quotedMany first second others =>
    simp only [Arg.tree, Arg.tokens, Argument.cost, Element.sequenceCost, operands_append,
      first.cost_tree, second.cost_tree, others.cost_tree]
  | .sum e _ => rw [Arg.tree, Arg.tokens, Argument.cost, Arithmetic.cost_eq_length,
      e.operands_tokens]

theorem Args.cost_tree (args : Args) : Argument.listCost args.tree = operands args.tokens := by
  match args with
  | .last a => simp [Args.tree, Args.tokens, Argument.listCost, a.cost_tree]
  | .cons a comma others =>
    simp [Args.tree, Args.tokens, Argument.listCost, a.cost_tree, others.cost_tree,
      TokenKind.isOperand]
end

/-- Sums that are trees of derivations within some tokens. -/
def SumsWithin (sums : List Arithmetic) (tokens : List Token) : Prop :=
  ∀ a ∈ sums, ∃ e : Sum, e.tree = a ∧ e.tokens <:+: tokens

namespace SumsWithin

variable {sums more : List Arithmetic} {tokens others : List Token}

theorem nil (tokens : List Token) : SumsWithin [] tokens := by simp [SumsWithin]

theorem of_part (h : SumsWithin sums tokens) (hpart : tokens <:+: others) :
    SumsWithin sums others := by
  intro a ha
  obtain ⟨e, rfl, he⟩ := h a ha
  exact ⟨e, rfl, he.trans hpart⟩

theorem append (h : SumsWithin sums tokens) (hmore : SumsWithin more others) :
    SumsWithin (sums ++ more) (tokens ++ others) := by
  intro a ha
  rcases List.mem_append.1 ha with ha | ha
  · exact h.of_part (List.prefix_append ..).isInfix a ha
  · exact hmore.of_part (List.suffix_append ..).isInfix a ha

end SumsWithin

mutual
theorem Statement.sumsWithin (s : Statement) : SumsWithin s.tree.sums s.tokens := by
  match s with
  | .command t => exact .nil _
  | .plain name => exact .nil _
  | .applied name left args right =>
    rw [Statement.tree, Element.sums]
    exact args.sumsWithin.of_part
      ⟨[name.token, left.token], [right.token], by simp [Statement.tokens]⟩

theorem Item.sumsWithin (i : Item) : SumsWithin i.tree.sums i.tokens := by
  match i with
  | .statement s => exact s.sumsWithin
  | .parameter t => exact .nil _

theorem Items.sumsWithin (is : Items) :
    SumsWithin (Element.sequenceSums is.tree) is.tokens := by
  match is with
  | .nil => exact .nil _
  | .cons i others =>
    rw [Items.tree, Element.sequenceSums]
    exact i.sumsWithin.append others.sumsWithin

theorem Arg.sumsWithin (a : Arg) : SumsWithin a.tree.sums a.tokens := by
  match a with
  | .reference t => exact .nil _
  | .quotedOne s =>
    rw [Arg.tree, Argument.sums, Element.sequenceSums, Element.sequenceSums, List.append_nil]
    exact s.sumsWithin
  | .quotedMany first second others =>
    rw [Arg.tree, Argument.sums, Element.sequenceSums, Element.sequenceSums]
    exact first.sumsWithin.append (second.sumsWithin.append others.sumsWithin)
  | .sum e _ =>
    rw [Arg.tree, Argument.sums]
    exact List.forall_mem_singleton.2 ⟨e, rfl, List.infix_refl _⟩

theorem Args.sumsWithin (args : Args) : SumsWithin (Argument.listSums args.tree) args.tokens := by
  match args with
  | .last a =>
    rw [Args.tree, Argument.listSums, Argument.listSums, List.append_nil]
    exact a.sumsWithin
  | .cons a comma others =>
    rw [Args.tree, Argument.listSums]
    exact a.sumsWithin.append (others.sumsWithin.of_part (List.suffix_cons ..).isInfix)
end

/-! ### Definitions and programs -/

theorem operands_params (params : Option Params) :
    operands (optTokens params) = (optNames params).length := by
  rcases params with - | ⟨left, first, others, right, distinct⟩
  · rfl
  · have hothers : operands (paramTokens others) = others.length := by
      clear distinct
      induction others with
      | nil => rfl
      | cons x others ih =>
        have hcons : paramTokens (x :: others) = x.1.token :: x.2.token :: paramTokens others := rfl
        rw [hcons, operands_leaf, operands_leaf, ih]
        simp [TokenKind.isOperand, Nat.add_comm]
    simp [optTokens, optNames, Params.tokens, Params.names, hothers, TokenKind.isOperand,
      Nat.add_comm]

theorem Procedure.cost_tree (d : Procedure) : d.tree.cost = operands d.tokens := by
  have htokens := d.tokens_append []
  rw [List.append_nil] at htokens
  have hparams : d.tree.params = optNames d.params := rfl
  have hbody : Element.sequenceCost d.tree.body = operands d.first.tokens +
      operands d.others.tokens := by
    show Element.sequenceCost (d.first.tree :: d.others.tree) = _
    rw [Element.sequenceCost, d.first.cost_tree, d.others.cost_tree]
  rw [htokens, Definition.cost, hparams, hbody]
  simp [operands_params, TokenKind.isOperand]
  omega

theorem Procedure.sumsWithin (d : Procedure) :
    SumsWithin (Element.sequenceSums d.tree.body) d.tokens := by
  have hbody : d.first.tokens ++ d.others.tokens <:+: d.tokens :=
    ⟨d.name.token :: (optTokens d.params ++ [d.colon.token]), [d.newline.token],
      by simp [Procedure.tokens, optTokens]⟩
  have hsums : Element.sequenceSums d.tree.body =
      d.first.tree.sums ++ Element.sequenceSums d.others.tree := by
    show Element.sequenceSums (d.first.tree :: d.others.tree) = _
    rw [Element.sequenceSums]
  rw [hsums]
  exact (d.first.sumsWithin.append d.others.sumsWithin).of_part hbody

theorem Statement.cost_map (ss : List Statement) :
    Element.sequenceCost (ss.map Statement.tree) = operands (ss.flatMap Statement.tokens) := by
  induction ss with
  | nil => rfl
  | cons s ss ih =>
    rw [List.map_cons, Element.sequenceCost, List.flatMap_cons, operands_append, s.cost_tree, ih]

theorem Statement.sumsWithin_map (ss : List Statement) :
    SumsWithin (Element.sequenceSums (ss.map Statement.tree)) (ss.flatMap Statement.tokens) := by
  induction ss with
  | nil => exact .nil _
  | cons s ss ih =>
    rw [List.map_cons, Element.sequenceSums, List.flatMap_cons]
    exact s.sumsWithin.append ih

/-- **The cost of a derived program is the number of operands among its tokens.** -/
theorem Sentence.cost_tree (d : Sentence) : d.tree.cost =
    operands (d.procedures.flatMap Procedure.tokens ++
      (d.first :: d.others).flatMap Statement.tokens) := by
  have hdefinitions : ∀ (ds : List Procedure) (main : ℕ),
      (ds.map Procedure.tree).foldr (fun d rest ↦ d.cost + rest) main =
        operands (ds.flatMap Procedure.tokens) + main := by
    intro ds main
    induction ds with
    | nil => exact (Nat.zero_add main).symm
    | cons d ds ih =>
      rw [List.map_cons, List.foldr_cons, ih, List.flatMap_cons, operands_append, d.cost_tree,
        Nat.add_assoc]
  rw [operands_append, ← Statement.cost_map]
  exact hdefinitions d.procedures _

theorem Sentence.sumsWithin (d : Sentence) : SumsWithin d.tree.sums
    (d.procedures.flatMap Procedure.tokens ++ (d.first :: d.others).flatMap Statement.tokens) := by
  have hdefinitions : ∀ ds : List Procedure,
      SumsWithin ((ds.map Procedure.tree).flatMap fun d ↦ Element.sequenceSums d.body)
        (ds.flatMap Procedure.tokens) := by
    intro ds
    induction ds with
    | nil => exact .nil _
    | cons d ds ih =>
      rw [List.map_cons, List.flatMap_cons, List.flatMap_cons]
      exact d.sumsWithin.append ih
  exact (hdefinitions d.procedures).append (Statement.sumsWithin_map (d.first :: d.others))

/-- The tokens of a sum are the ones within its span. -/
theorem Sum.countP_within (e : Sum) {tokens : List Token} {total : ℕ}
    (htiles : Token.Tiles 0 tokens total) (hpart : e.tokens <:+: tokens) :
    tokens.countP (·.span.within e.tree.span) = e.tokens.length := by
  -- the sum cuts the tokens in three, and its span goes from the one cut to the other
  obtain ⟨before, after, rfl⟩ := hpart
  obtain ⟨stop, hfront, hafter⟩ := Token.tiles_append_iff.1 htiles
  obtain ⟨start, hbefore, hsum⟩ := Token.tiles_append_iff.1 hfront
  rw [e.span_tree hsum]
  exact Token.countP_within hbefore hsum hafter

end Grammar

namespace Program

theorem one_le_cost_of_main_ne_nil {p : Program} (h : p.main ≠ []) : 1 ≤ p.cost := by
  have hmain : 1 ≤ Element.sequenceCost p.main := by
    rcases hp : p.main with - | ⟨e, rest⟩
    · exact absurd hp h
    · have he : 1 ≤ e.cost := by cases e <;> simp [Element.cost]
      rw [Element.sequenceCost]
      omega
  have hdefinitions : ∀ ds : List Definition, Element.sequenceCost p.main ≤
      ds.foldr (fun d rest ↦ d.cost + rest) (Element.sequenceCost p.main) := by
    intro ds
    induction ds with
    | nil => exact Nat.le_refl _
    | cons d ds ih => exact Nat.le_trans ih (Nat.le_add_left ..)
  exact Nat.le_trans hmain (hdefinitions p.definitions)

/-- **The byte cost is the number of operand tokens of the source.** It is the number of commands,
procedure names, parameters and numbers in the scan of the trimmed source, and so at least one. Of
every sum in the program, the token count is the number of tokens within its span, and the cost is
the number of its terms. -/
theorem cost_counts_operands (source : Bytes) (p : Program) (h : parse source = .ok p) :
    p.cost = (Token.scan (Bytes.trim source)).tokens.countP (·.kind.isOperand) ∧
      1 ≤ p.cost ∧
      ∀ a ∈ p.sums,
        a.tokenCount = (Token.scan (Bytes.trim source)).tokens.countP (·.span.within a.span) ∧
          a.cost = a.terms.length := by
  obtain ⟨d, rfl, htokens, hlast⟩ := Grammar.exists_tokens_of_parse h
  refine ⟨?_, one_le_cost_of_main_ne_nil (by simp [Grammar.Sentence.tree]), fun a ha ↦
    ⟨?_, a.cost_eq_length⟩⟩
  · rw [d.cost_tree, htokens]
    rfl
  · obtain ⟨e, rfl, hpart⟩ := d.sumsWithin a ha
    rw [htokens] at hpart
    rw [e.countP_within (Token.tiles_scan hlast) hpart, e.length_tokens]

/-- A source with white space around it, and with zeros in front of its numbers. -/
def countdownSource : Bytes := Bytes.ofString " f(A):f(A-01)\nf(+12-03)\n"

/-- The program of that source. -/
def countdown : Program where
  definitions := [⟨"f", ["A"], [.call "f" [.arithmetic
    ⟨false, [⟨false, .parameter "A"⟩, ⟨true, .literal 1⟩], ⟨7, 11⟩⟩] ⟨5, 12⟩], ⟨0, 12⟩⟩]
  main := [.call "f" [.arithmetic
    ⟨true, [⟨false, .literal 12⟩, ⟨true, .literal 3⟩], ⟨15, 21⟩⟩] ⟨13, 22⟩]

/-- The countdown costs eight bytes. Its two sums have three and four tokens, and two terms each. -/
theorem countdown_cost : parse countdownSource = .ok countdown ∧
    countdown.cost = 8 ∧
    countdown.cost =
      (Token.scan (Bytes.trim countdownSource)).tokens.countP (·.kind.isOperand) ∧
    countdown.sums.map Arithmetic.tokenCount = [3, 4] ∧
    ∀ a ∈ countdown.sums, a.tokenCount =
      (Token.scan (Bytes.trim countdownSource)).tokens.countP (·.span.within a.span) := by
  have hparse : parse countdownSource = .ok countdown := by decide +kernel
  obtain ⟨hcost, -, hsums⟩ := cost_counts_operands countdownSource countdown hparse
  exact ⟨hparse, by decide, hcost, by decide, fun a ha ↦ (hsums a ha).1⟩

end Program

end RobotGolf
