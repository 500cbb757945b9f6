import RobotGolf.Proofs.ByteCost
import RobotGolf.Proofs.TokenText
/-!
# Spans are the source text of their nodes

Every node of a program that was read from a source has a span, and what stands there in the trimmed
source is the text of the node, up to zeros in front of numbers (`Program.spans_show_source`). The
elements of a sequence are found one right behind the other, the arguments of a call with one octet
between them, and a quoted argument covers its elements and nothing else.

Spans are put together in different ways: some are those of a token, some are extended from a name
to a parenthesis or to the last element of a body, some are folded over a sequence, and in a sum
they grow term by term. All of this is compared with one thing, the stretch that the tokens of a
derivation fill.

* **A node spans what its tokens fill** (`Statement.span_tree`, `Arg.span_tree`, …). No stretch is
  empty, so none is taken for the span that is found nowhere, not even at the front of the text.
* **Nodes next to each other are a row of spans** (`Span.Row`), without gaps in a sequence and with
  gaps of one octet in an argument list.
* **Every node stands for some tokens** of the scan, next to each other (`Grammar.NodesWithin`).
-/

namespace RobotGolf

open Token

/-! ### Rows of spans -/

namespace Span

/-- An offset within a span. -/
def Covers (s : Span) (i : ℕ) : Prop := s.start ≤ i ∧ i < s.stop

/-- Spans that are not empty, one behind the other, with gaps of a fixed width. -/
inductive Row (gap : ℕ) : ℕ → List Span → ℕ → Prop where
  | single {start stop : ℕ} (nonempty : start < stop) : Row gap start [⟨start, stop⟩] stop
  | cons {start middle stop : ℕ} {spans : List Span} (nonempty : start < middle)
      (behind : Row gap (middle + gap) spans stop) : Row gap start (⟨start, middle⟩ :: spans) stop

namespace Row

variable {gap start stop : ℕ} {spans : List Span} {s : Span}

theorem lt (h : Row gap start spans stop) : start < stop := by
  induction h with
  | single nonempty => exact nonempty
  | cons nonempty _ ih => omega

theorem ne_nil (h : Row gap start spans stop) : spans ≠ [] := by
  cases h <;> exact List.cons_ne_nil _ _

theorem start_head? (h : Row gap start spans stop) : ∀ s ∈ spans.head?, s.start = start := by
  cases h <;> simp

/-- Each one begins where the one before it ends, behind the gap. -/
theorem isChain (h : Row gap start spans stop) :
    spans.IsChain fun s t ↦ t.start = s.stop + gap := by
  induction h with
  | single => exact .singleton _
  | cons _ behind ih => exact List.isChain_cons.2 ⟨behind.start_head?, ih⟩

theorem of_mem (h : Row gap start spans stop) (hs : s ∈ spans) :
    start ≤ s.start ∧ s.start < s.stop ∧ s.stop ≤ stop := by
  induction h with
  | single nonempty =>
    obtain rfl := List.mem_singleton.1 hs
    exact ⟨le_rfl, nonempty, le_rfl⟩
  | cons nonempty behind ih =>
    have hlt := behind.lt
    rcases List.mem_cons.1 hs with rfl | hs
    · exact ⟨le_rfl, nonempty, by dsimp only; omega⟩
    · have hinside := ih hs
      omega

theorem stop_getLast (h : Row gap start spans stop) : (spans.getLast h.ne_nil).stop = stop := by
  induction h with
  | single => rfl
  | cons _ behind ih => rwa [List.getLast_cons behind.ne_nil]

/-- Extending a span by a row behind it reaches up to the end of the row. -/
theorem foldl_extend (h : Row gap start spans stop) {span : Span} (hspan : span.start < span.stop)
    (hle : span.stop ≤ start) : spans.foldl extend span = ⟨span.start, stop⟩ := by
  induction h generalizing span with
  | single nonempty => exact extend_of_le hspan (by dsimp only; omega) (by dsimp only; omega)
  | cons nonempty _ ih =>
    rw [List.foldl_cons, extend_of_le hspan (by dsimp only; omega) (by dsimp only; omega)]
    exact ih (by dsimp only; omega) (by dsimp only; omega)

/-- **A fold over a row covers the row**, though it starts nowhere. -/
theorem foldl_extend_null (h : Row gap start spans stop) :
    spans.foldl extend null = ⟨start, stop⟩ := by
  cases h with
  | single => rfl
  | cons nonempty behind =>
    rw [List.foldl_cons, extend_null]
    exact behind.foldl_extend nonempty (Nat.le_add_right ..)

/-- **Without gaps a row covers what its spans cover.** -/
theorem covers_iff (h : Row 0 start spans stop) (i : ℕ) :
    Covers ⟨start, stop⟩ i ↔ ∃ s ∈ spans, s.Covers i := by
  induction h with
  | single => simp
  | @cons start middle stop spans nonempty behind ih =>
    have hlt := behind.lt
    rw [List.exists_mem_cons_iff, ← ih]
    unfold Covers
    dsimp only
    omega

end Row

end Span

/-! ### Nodes -/

namespace Program

/-- A part of a program that has a span. -/
inductive Node where
  | definition (d : Definition)
  | element (e : Element)
  | argument (a : Argument)

namespace Node

/-- Where a node stands in the source. -/
def span : Node → Span
  | definition d => d.span
  | element e => e.span
  | argument a => a.span

/-- The symbols of a node. -/
def symbols : Node → List Symbol
  | definition d => d.symbols
  | element e => e.symbols
  | argument a => a.symbols

/-- The source text of a node. -/
def render : Node → String
  | definition d => d.render
  | element e => e.render
  | argument a => a.render

theorem render_eq (n : Node) : n.render = Symbol.spell n.symbols := by
  cases n <;> rfl

end Node

end Program

open Program (Node)

mutual
/-- An element and the nodes in it, at any depth. -/
def Element.nodes : Element → List Node
  | .command c span => [.element (.command c span)]
  | .parameter name span => [.element (.parameter name span)]
  | .call callee args span => .element (.call callee args span) :: Argument.listNodes args

/-- An argument and the nodes in it, at any depth. -/
def Argument.nodes : Argument → List Node
  | .parameter name span => [.argument (.parameter name span)]
  | .quoted body span => .argument (.quoted body span) :: Element.sequenceNodes body
  | .arithmetic sum => [.argument (.arithmetic sum)]

/-- The nodes in a sequence of elements. -/
def Element.sequenceNodes : List Element → List Node
  | [] => []
  | e :: rest => e.nodes ++ Element.sequenceNodes rest

/-- The nodes in the arguments of a call. -/
def Argument.listNodes : List Argument → List Node
  | [] => []
  | a :: rest => a.nodes ++ Argument.listNodes rest
end

/-- All nodes of a program. -/
def Program.nodes (p : Program) : List Node :=
  p.definitions.flatMap (fun d ↦ .definition d :: Element.sequenceNodes d.body)
    ++ Element.sequenceNodes p.main

/-- An element that begins where another one ends. -/
def Element.Adjacent (e f : Element) : Prop := f.span.start = e.span.stop

/-- How the parts of a node are laid out in its span: elements without gaps, arguments with one
octet between them, and a quoted sequence covering what its elements cover. -/
def Program.Node.LaidOut : Node → Prop
  | .definition d => d.body.IsChain Element.Adjacent
  | .element (.call _ args span) =>
    (∀ a ∈ args, a.span.within span = true) ∧
      args.IsChain fun a b ↦ b.span.start = a.span.stop + 1
  | .argument (.quoted body span) =>
    body.IsChain Element.Adjacent ∧ ∀ i, span.Covers i ↔ ∃ e ∈ body, e.span.Covers i
  | _ => True

/-! ### What a node spans -/

namespace Grammar

theorem Statement.tokens_ne_nil (s : Statement) : s.tokens ≠ [] := by
  obtain ⟨t, behind, heq, -⟩ := s.exists_tokens_eq
  simp [heq]

theorem Item.tokens_ne_nil (i : Item) : i.tokens ≠ [] := by
  obtain ⟨t, behind, heq, -⟩ := i.exists_tokens_eq
  simp [heq]

theorem Arg.tokens_ne_nil (a : Arg) : a.tokens ≠ [] := by
  cases a with
  | reference t => exact List.cons_ne_nil _ _
  | quotedOne s => exact s.tokens_ne_nil
  | quotedMany first second others => exact List.append_ne_nil_of_left_ne_nil first.tokens_ne_nil _
  | sum e _ => simp [Arg.tokens, Sum.tokens]

/-- A call reaches from its name to the parenthesis that closes it. -/
theorem Statement.span_tree (s : Statement) {start stop : ℕ} (h : Fills start s.tokens stop) :
    s.tree.span = ⟨start, stop⟩ := by
  cases s with
  | command t => exact h.of_singleton.1
  | plain name => exact h.of_singleton.1
  | applied name left args right =>
    obtain ⟨hstart, hname, -, h⟩ := h.of_cons
    obtain ⟨hleft, hleftPos, -, h⟩ := h.of_cons
    obtain ⟨middle, hargs, hright⟩ := h.of_append
    have hle := hargs.tiles.le
    obtain ⟨hspan, hlt⟩ := hright.of_singleton
    show name.token.span.extend right.token.span = _
    rw [hspan, Span.extend_of_le (by omega) (by dsimp only; omega) (by dsimp only; omega), hstart]

theorem Item.span_tree (i : Item) {start stop : ℕ} (h : Fills start i.tokens stop) :
    i.tree.span = ⟨start, stop⟩ := by
  cases i with
  | statement s => exact s.span_tree h
  | parameter t => exact h.of_singleton.1

/-- **The elements of a sequence are in a row.** -/
theorem Items.row (is : Items) (i : Item) {start stop : ℕ}
    (h : Fills start (i.tokens ++ is.tokens) stop) :
    Span.Row 0 start ((i.tree :: is.tree).map Element.span) stop := by
  match is with
  | .nil =>
    rw [Items.tokens, List.append_nil] at h
    rw [Items.tree, List.map_singleton, i.span_tree h]
    exact .single (h.lt i.tokens_ne_nil)
  | .cons j others =>
    obtain ⟨middle, hi, hothers⟩ := h.of_append
    rw [List.map_cons, i.span_tree hi]
    exact .cons (hi.lt i.tokens_ne_nil) (others.row j hothers)

/-- Elements in a row are covered together. -/
theorem cover_of_row {gap start stop : ℕ} {body : List Element}
    (h : Span.Row gap start (body.map Element.span) stop) : Element.cover body = ⟨start, stop⟩ := by
  rw [← h.foldl_extend_null, List.foldl_map]
  rfl

theorem Statement.row_singleton (s : Statement) {start stop : ℕ} (h : Fills start s.tokens stop) :
    Span.Row 0 start ([s.tree].map Element.span) stop := by
  rw [List.map_singleton, s.span_tree h]
  exact .single (h.lt s.tokens_ne_nil)

theorem Arg.span_tree (a : Arg) {start stop : ℕ} (h : Fills start a.tokens stop) :
    a.tree.span = ⟨start, stop⟩ := by
  cases a with
  | reference t => exact h.of_singleton.1
  | quotedOne s => exact cover_of_row (s.row_singleton h)
  | quotedMany first second others => exact cover_of_row ((Items.cons second others).row first h)
  | sum e _ => exact e.span_tree h.tiles

/-- **The arguments of a call are in a row, with a comma in every gap.** -/
theorem Args.row (args : Args) {start stop : ℕ} (h : Fills start args.tokens stop) :
    Span.Row 1 start (args.tree.map Argument.span) stop := by
  match args with
  | .last a =>
    rw [Args.tree, List.map_singleton, a.span_tree h]
    exact .single (h.lt a.tokens_ne_nil)
  | .cons a comma others =>
    obtain ⟨middle, ha, hothers⟩ := h.of_append
    obtain ⟨hstart, -, hgenuine, hothers⟩ := hothers.of_cons
    rw [hgenuine.stop_eq (by simp [comma.kind_eq]), hstart] at hothers
    rw [Args.tree, List.map_cons, a.span_tree ha]
    exact .cons (ha.lt a.tokens_ne_nil) (others.row hothers)

/-- The body of a definition is a row behind its colon. -/
theorem Procedure.row (d : Procedure) {start stop : ℕ} (h : Fills start d.inner stop) :
    d.name.token.span.start = start ∧ start < d.name.token.span.stop ∧
      ∃ middle, d.name.token.span.stop ≤ middle ∧
        Span.Row 0 middle (d.body.map Element.span) stop := by
  obtain ⟨hstart, hname, -, h⟩ := h.of_cons
  obtain ⟨before, hparams, h⟩ := h.of_append
  obtain ⟨hcolon, hcolonPos, -, h⟩ := h.of_cons
  have hle := hparams.tiles.le
  exact ⟨hstart, hname, _, by omega, d.others.row d.first h⟩

/-- A definition reaches from its name to the last element of its body. -/
theorem Procedure.span_tree (d : Procedure) {start stop : ℕ} (h : Fills start d.inner stop) :
    d.tree.span = ⟨start, stop⟩ := by
  obtain ⟨hstart, hname, middle, hle, hrow⟩ := d.row h
  have hne : d.body ≠ [] := List.cons_ne_nil _ _
  have hlast := hrow.stop_getLast
  rw [List.getLast_map] at hlast
  have hmem := hrow.of_mem (List.mem_map_of_mem (List.getLast_mem hne))
  have hspan : d.tree.span = d.name.token.span.extend (d.body.getLast hne).span := rfl
  rw [hspan, Span.extend_of_le (by omega) (by omega) (by omega), hstart, hlast]

/-! ### Nodes and their tokens -/

/-- A node that is read off some tokens: it spans what they fill, its symbols show them, and its
parts are laid out in it. -/
structure Stands (n : Node) (tokens : List Token) : Prop where
  ne_nil : tokens ≠ []
  span_eq {start stop : ℕ} (h : Fills start tokens stop) : n.span = ⟨start, stop⟩
  prints (h : AllSpelled tokens) : Prints n.symbols tokens
  laidOut {start stop : ℕ} (h : Fills start tokens stop) : n.LaidOut

theorem isChain_of_row {α : Type} {f : α → Span} {gap start stop : ℕ} {members : List α}
    (h : Span.Row gap start (members.map f) stop) :
    members.IsChain fun a b ↦ (f b).start = (f a).stop + gap :=
  (List.isChain_map f).1 h.isChain

theorem laidOut_quoted {start stop : ℕ} {body : List Element}
    (h : Span.Row 0 start (body.map Element.span) stop) :
    Node.LaidOut (.argument (.quoted body (Element.cover body))) := by
  refine ⟨isChain_of_row h, fun i ↦ ?_⟩
  rw [cover_of_row h, h.covers_iff]
  simp only [List.mem_map, exists_exists_and_eq_and]

theorem Statement.stands (s : Statement) : Stands (.element s.tree) s.tokens where
  ne_nil := s.tokens_ne_nil
  span_eq := s.span_tree
  prints := s.prints
  laidOut {start stop} h := by
    have hspan := s.span_tree h
    cases s with
    | command t => trivial
    | plain name => exact ⟨by simp, .nil⟩
    | applied name left args right =>
      obtain ⟨hstart, hname, -, h⟩ := h.of_cons
      obtain ⟨hleft, hleftPos, -, h⟩ := h.of_cons
      obtain ⟨middle, hargs, hright⟩ := h.of_append
      have hrow := args.row hargs
      refine ⟨fun a ha ↦ ?_, isChain_of_row hrow⟩
      obtain ⟨hle, -, hle'⟩ := hrow.of_mem (List.mem_map_of_mem ha)
      have hlt := hright.of_singleton.2
      rw [Statement.tree, Element.span] at hspan
      rw [hspan, Span.within]
      simp only [Bool.and_eq_true, decide_eq_true_eq]
      omega

theorem Item.stands (i : Item) : Stands (.element i.tree) i.tokens := by
  cases i with
  | statement s => exact s.stands
  | parameter t => exact ⟨Item.tokens_ne_nil _, Item.span_tree _, Item.prints _, fun _ ↦ trivial⟩

theorem Arg.stands (a : Arg) : Stands (.argument a.tree) a.tokens where
  ne_nil := a.tokens_ne_nil
  span_eq := a.span_tree
  prints := a.prints
  laidOut {start stop} h := by
    cases a with
    | reference t => trivial
    | quotedOne s => exact laidOut_quoted (s.row_singleton h)
    | quotedMany first second others =>
      exact laidOut_quoted ((Items.cons second others).row first h)
    | sum e _ => trivial

theorem Procedure.stands (d : Procedure) : Stands (.definition d.tree) d.inner where
  ne_nil := List.cons_ne_nil _ _
  span_eq := d.span_tree
  prints := d.prints_inner
  laidOut {start stop} h := by
    obtain ⟨-, -, middle, -, hrow⟩ := d.row h
    exact isChain_of_row hrow

/-- Nodes that stand for parts of some tokens. -/
def NodesWithin (nodes : List Node) (tokens : List Token) : Prop :=
  ∀ n ∈ nodes, ∃ part, part <:+: tokens ∧ Stands n part

namespace NodesWithin

variable {nodes more : List Node} {n : Node} {tokens others : List Token}

theorem nil (tokens : List Token) : NodesWithin [] tokens := by simp [NodesWithin]

theorem cons (hn : Stands n tokens) (h : NodesWithin nodes tokens) :
    NodesWithin (n :: nodes) tokens :=
  List.forall_mem_cons.2 ⟨⟨tokens, List.infix_refl _, hn⟩, h⟩

theorem of_part (h : NodesWithin nodes tokens) (hpart : tokens <:+: others) :
    NodesWithin nodes others := by
  intro n hn
  obtain ⟨part, hinfix, hstands⟩ := h n hn
  exact ⟨part, hinfix.trans hpart, hstands⟩

theorem append (h : NodesWithin nodes tokens) (hmore : NodesWithin more others) :
    NodesWithin (nodes ++ more) (tokens ++ others) := by
  intro n hn
  rcases List.mem_append.1 hn with hn | hn
  · exact h.of_part (List.prefix_append ..).isInfix n hn
  · exact hmore.of_part (List.suffix_append ..).isInfix n hn

end NodesWithin

mutual
theorem Statement.nodesWithin (s : Statement) : NodesWithin s.tree.nodes s.tokens := by
  have hstands := s.stands
  match s with
  | .command t => exact .cons hstands (.nil _)
  | .plain name =>
    rw [Statement.tree, Element.nodes, Argument.listNodes]
    exact .cons hstands (.nil _)
  | .applied name left args right =>
    rw [Statement.tree, Element.nodes]
    exact .cons hstands (args.nodesWithin.of_part
      ⟨[name.token, left.token], [right.token], by simp [Statement.tokens]⟩)

theorem Item.nodesWithin (i : Item) : NodesWithin i.tree.nodes i.tokens := by
  have hstands := i.stands
  match i with
  | .statement s => exact s.nodesWithin
  | .parameter t => exact .cons hstands (.nil _)

theorem Items.nodesWithin (is : Items) :
    NodesWithin (Element.sequenceNodes is.tree) is.tokens := by
  match is with
  | .nil => exact .nil _
  | .cons i others =>
    rw [Items.tree, Element.sequenceNodes]
    exact i.nodesWithin.append others.nodesWithin

theorem Arg.nodesWithin (a : Arg) : NodesWithin a.tree.nodes a.tokens := by
  have hstands := a.stands
  match a with
  | .reference t => exact .cons hstands (.nil _)
  | .quotedOne s =>
    rw [Arg.tree, Argument.nodes, Element.sequenceNodes, Element.sequenceNodes, List.append_nil]
    exact .cons hstands s.nodesWithin
  | .quotedMany first second others =>
    rw [Arg.tree, Argument.nodes, Element.sequenceNodes, Element.sequenceNodes]
    exact .cons hstands (first.nodesWithin.append (second.nodesWithin.append others.nodesWithin))
  | .sum e _ => exact .cons hstands (.nil _)

theorem Args.nodesWithin (args : Args) :
    NodesWithin (Argument.listNodes args.tree) args.tokens := by
  match args with
  | .last a =>
    rw [Args.tree, Argument.listNodes, Argument.listNodes, List.append_nil]
    exact a.nodesWithin
  | .cons a comma others =>
    rw [Args.tree, Argument.listNodes]
    exact a.nodesWithin.append (others.nodesWithin.of_part (List.suffix_cons ..).isInfix)
end

theorem Procedure.nodesWithin (d : Procedure) :
    NodesWithin (.definition d.tree :: Element.sequenceNodes d.tree.body) d.tokens := by
  have hbody : NodesWithin (Element.sequenceNodes d.tree.body) d.inner := by
    refine (Items.cons d.first d.others).nodesWithin.of_part ?_
    exact ⟨d.name.token :: (optTokens d.params ++ [d.colon.token]), [],
      by simp [Procedure.inner, Items.tokens]⟩
  rw [d.tokens_eq_inner]
  exact (NodesWithin.cons d.stands hbody).of_part (List.prefix_append ..).isInfix

/-- Statements are the elements of a sequence without parameters. -/
theorem exists_items (ss : List Statement) : ∃ is : Items,
    is.tokens = ss.flatMap Statement.tokens ∧ is.tree = ss.map Statement.tree := by
  induction ss with
  | nil => exact ⟨.nil, rfl, rfl⟩
  | cons s ss ih =>
    obtain ⟨is, htokens, htree⟩ := ih
    refine ⟨.cons (.statement s) is, ?_, ?_⟩
    · rw [Items.tokens, Item.tokens, htokens, List.flatMap_cons]
    · rw [Items.tree, Item.tree, htree, List.map_cons]

/-- **Every node of a derived program stands for some of its tokens.** -/
theorem Sentence.nodesWithin (d : Sentence) : NodesWithin d.tree.nodes
    (d.procedures.flatMap Procedure.tokens ++ (d.first :: d.others).flatMap Statement.tokens) := by
  have hdefinitions : ∀ ds : List Procedure,
      NodesWithin ((ds.map Procedure.tree).flatMap fun d ↦
        .definition d :: Element.sequenceNodes d.body) (ds.flatMap Procedure.tokens) := by
    intro ds
    induction ds with
    | nil => exact .nil _
    | cons d ds ih =>
      rw [List.map_cons, List.flatMap_cons, List.flatMap_cons]
      exact d.nodesWithin.append ih
  obtain ⟨is, htokens, htree⟩ := exists_items (d.first :: d.others)
  rw [← htokens, Program.nodes, Sentence.tree, ← htree]
  exact (hdefinitions d.procedures).append is.nodesWithin

/-- The statements of the main block are in a row behind the definitions. -/
theorem Sentence.row_main (d : Sentence) {stop : ℕ}
    (h : Fills 0 (d.procedures.flatMap Procedure.tokens ++
      (d.first :: d.others).flatMap Statement.tokens) stop) :
    ∃ middle, Span.Row 0 middle (d.tree.main.map Element.span) stop := by
  obtain ⟨middle, -, hmain⟩ := h.of_append
  obtain ⟨is, htokens, htree⟩ := exists_items d.others
  rw [List.flatMap_cons, ← htokens] at hmain
  rw [Sentence.tree, List.map_cons, ← htree]
  exact ⟨middle, is.row (.statement d.first) hmain⟩

/-- **A node that stands for a part of a scan is found in the text**: within its span is its own
text, but for zeros in front of numbers, and its parts are laid out there. -/
theorem Stands.of_scan {n : Node} {part : List Token} {text : Bytes}
    (hlast : (scan text).last.kind = .finish) (hpart : part <:+: (scan text).tokens)
    (h : Stands n part) :
    n.span.start < n.span.stop ∧ n.span.stop ≤ text.length ∧
      Bytes.shortenRuns (n.span.slice text) = Bytes.ofString n.render ∧ n.LaidOut := by
  obtain ⟨before, after, hsplit⟩ := hpart
  have hfills := fills_scan hlast
  have hapart : ((scan text).tokens.map shape).IsChain Apart := isChain_scanFrom _ _ _ _
  have htext : lexemes (scan text).tokens = text := lexemes_scanFrom hlast
  rw [← hsplit] at hfills hapart htext
  obtain ⟨stop, hfront, hafter⟩ := hfills.of_append
  obtain ⟨start, hbefore, hpart⟩ := hfront.of_append
  rw [List.map_append, List.map_append] at hapart
  rw [h.span_eq hpart]
  refine ⟨hpart.lt h.ne_nil, hafter.tiles.le, ?_, h.laidOut hpart⟩
  have hslice : Span.slice ⟨start, stop⟩ text = lexemes part := by
    rw [← htext]
    exact hbefore.slice_eq hpart
  rw [hslice, shortenRuns_lexemes hpart.allSpelled hapart.left_of_append.right_of_append,
    n.render_eq, ofString_spell, h.prints hpart.allSpelled]

end Grammar

namespace Program

/-- **The span of a node is where its text stands in the trimmed source**, up to zeros in front of
numbers. Elements of one sequence are adjacent, a quoted argument covers its elements, and the
arguments of a call stand within it, in order, with one octet between them. -/
theorem spans_show_source (source : Bytes) (p : Program) (h : parse source = .ok p) :
    (∀ n ∈ p.nodes, n.span.start < n.span.stop ∧ n.span.stop ≤ (Bytes.trim source).length ∧
      Bytes.shortenRuns (n.span.slice (Bytes.trim source)) = Bytes.ofString n.render) ∧
    (p.main.IsChain Element.Adjacent ∧ ∀ d ∈ p.definitions, d.body.IsChain Element.Adjacent) ∧
    (∀ body span, Node.argument (.quoted body span) ∈ p.nodes →
      body.IsChain Element.Adjacent ∧ ∀ i, span.Covers i ↔ ∃ e ∈ body, e.span.Covers i) ∧
    ∀ callee args span, Node.element (.call callee args span) ∈ p.nodes →
      (∀ a ∈ args, a.span.within span = true) ∧
        args.IsChain fun a b ↦ b.span.start = a.span.stop + 1 := by
  obtain ⟨d, rfl, htokens, hlast⟩ := Grammar.exists_tokens_of_parse h
  have hnodes := d.nodesWithin
  have hfills := fills_scan hlast
  rw [← htokens] at hfills
  rw [htokens] at hnodes
  obtain ⟨middle, hmain⟩ := d.row_main hfills
  have hlaid : ∀ n ∈ d.tree.nodes, n.LaidOut := by
    intro n hn
    obtain ⟨part, hpart, hstands⟩ := hnodes n hn
    exact (hstands.of_scan hlast hpart).2.2.2
  refine ⟨?_, ?_, ?_, ?_⟩
  · intro n hn
    obtain ⟨part, hpart, hstands⟩ := hnodes n hn
    obtain ⟨hlt, hle, htext, -⟩ := hstands.of_scan hlast hpart
    exact ⟨hlt, hle, htext⟩
  · refine ⟨Grammar.isChain_of_row hmain, fun d' hd ↦ ?_⟩
    exact hlaid (.definition d')
      (List.mem_append_left _ (List.mem_flatMap.2 ⟨d', hd, List.mem_cons_self ..⟩))
  · exact fun body span hn ↦ hlaid _ hn
  · exact fun callee args span hn ↦ hlaid _ hn

/-- A source with blanks around it, a call in a quoted argument, and zeros in front of numbers. -/
def nestedSource : Bytes := Bytes.ofString " f(A,B):sAf(B-01,sB)\nf(007,rf(1,l))g "

/-- The program of that source. -/
def nested : Program where
  definitions := [⟨"f", ["A", "B"], [.command .forward ⟨7, 8⟩, .parameter "A" ⟨8, 9⟩,
    .call "f" [.arithmetic ⟨false, [⟨false, .parameter "B"⟩, ⟨true, .literal 1⟩], ⟨11, 15⟩⟩,
      .quoted [.command .forward ⟨16, 17⟩, .parameter "B" ⟨17, 18⟩] ⟨16, 18⟩] ⟨9, 19⟩], ⟨0, 19⟩⟩]
  main := [.call "f" [.arithmetic ⟨false, [⟨false, .literal 7⟩], ⟨22, 25⟩⟩,
    .quoted [.command .turnRight ⟨26, 27⟩,
      .call "f" [.arithmetic ⟨false, [⟨false, .literal 1⟩], ⟨29, 30⟩⟩,
        .quoted [.command .turnLeft ⟨31, 32⟩] ⟨31, 32⟩] ⟨27, 33⟩] ⟨26, 33⟩] ⟨20, 34⟩,
    .call "g" [] ⟨34, 35⟩]

/-- The text of the definition is found from its name on, blanks in front of it not counted. In the
source its number has a zero, in its text none. -/
theorem nested_spans : parse nestedSource = .ok nested ∧
    Span.slice ⟨0, 19⟩ (Bytes.trim nestedSource) = Bytes.ofString "f(A,B):sAf(B-01,sB)" ∧
    nested.definitions.map Definition.render = ["f(A,B):sAf(B-1,sB)"] ∧
    ∀ n ∈ nested.nodes, n.span.start < n.span.stop ∧
      n.span.stop ≤ (Bytes.trim nestedSource).length ∧
      Bytes.shortenRuns (n.span.slice (Bytes.trim nestedSource)) = Bytes.ofString n.render := by
  have hparse : parse nestedSource = .ok nested := by decide +kernel
  exact ⟨hparse, by decide +kernel, by decide +kernel,
    (spans_show_source nestedSource nested hparse).1⟩

end Program

end RobotGolf
