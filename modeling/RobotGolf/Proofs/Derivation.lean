import Mathlib.Data.Nat.Digits.Defs
import Mathlib.Data.Nat.SuccPred
import RobotGolf.Proofs.Grammar
import RobotGolf.Proofs.Reading
/-!
# The readers find exactly the derivations

For sums, sequences, calls and arguments, the three halves of one statement:

* **completeness**, by recursion over the derivation: in front of tokens that cannot continue it, a
  derivation is read as its tree (`terms_complete`, `Items.reads`, `Args.reads`, …);
* **soundness**, by induction on the number of tokens: what a reader took has a derivation whose
  tree it returned (`exists_of_terms`, `soundBelow`);
* **unambiguity**, by recursion over two derivations of the same tokens (`Items.unique`,
  `Args.unique`, …).

## What may follow

A reader takes all that it can, so a derivation is read back only if what follows does not go on
with it. There are three such conditions on the token ahead, and each is the weakest that its proofs
use: no sign behind a sum (`isSign`), no element and no parenthesis behind a sequence (`goesOn`),
and behind an argument a comma or a right parenthesis (`closes`), which implies the other two. A
statement alone only needs that no parenthesis follows.
-/

namespace RobotGolf.Grammar

open Parse

variable {stop : Token} {tokens rest : List Token}

/-! ### Sums -/

/-- Reading digits from left to right gives their value in base ten. -/
theorem decimal_eq_digitsValue (digits : Bytes) : decimal digits = digitsValue digits := by
  rw [decimal, digitsValue, Nat.ofDigits_eq_foldr, List.foldr_map, List.foldr_reverse]
  simp only [Nat.cast_id, Nat.add_comm]

/-- Digits do not begin with a sign. -/
theorem splitSign_of_digits {digits : Bytes} (h : ∀ b ∈ digits, Token.isDigit b = true) :
    splitSign digits = (false, digits) := by
  rcases digits with - | ⟨b, rest⟩
  · rfl
  · have hb : Token.isDigit b = true := h b (List.mem_cons_self ..)
    have hminus : b ≠ 45 := by rintro rfl; simp [Token.isDigit] at hb
    have hplus : b ≠ 43 := by rintro rfl; simp [Token.isDigit] at hb
    rw [splitSign, if_neg hminus, if_neg hplus]

/-- What was split off is a sign, or nothing. -/
theorem splitSign_cases (lexeme : Bytes) :
    (∃ digits, splitSign lexeme = (true, digits) ∧ lexeme = 45 :: digits) ∨
    ∃ digits, splitSign lexeme = (false, digits) ∧ (lexeme = 43 :: digits ∨ lexeme = digits) := by
  rcases lexeme with - | ⟨b, rest⟩
  · exact Or.inr ⟨[], rfl, Or.inr rfl⟩
  · rw [splitSign]
    split
    · next hb => exact Or.inl ⟨rest, rfl, by rw [hb]⟩
    · split
      · next hb => exact Or.inr ⟨rest, rfl, Or.inl (by rw [hb])⟩
      · exact Or.inr ⟨b :: rest, rfl, Or.inr rfl⟩

/-- **Numerals are what the reader takes for numbers.** -/
theorem numeral?_eq_some_iff {lexeme : Bytes} {n : ℤ} :
    numeral? lexeme = some n ↔ Numeral lexeme n := by
  have hread : ∀ negative digits, splitSign lexeme = (negative, digits) →
      (numeral? lexeme = some n ↔ (digits ≠ [] ∧ ∀ b ∈ digits, Token.isDigit b = true) ∧
        (if negative then -(digitsValue digits : ℤ) else digitsValue digits) = n) := by
    intro negative digits hsplit
    rw [numeral?, hsplit]
    dsimp only
    rw [decimal_eq_digitsValue]
    by_cases hdigits : digits ≠ [] ∧ ∀ b ∈ digits, Token.isDigit b = true
    · simp [hdigits]
    · have hnot : (digits.isEmpty || !digits.all Token.isDigit) = true := by
        simpa [imp_iff_not_or] using hdigits
      simp [hdigits, hnot]
  constructor
  · intro h
    rcases splitSign_cases lexeme with ⟨digits, hsplit, rfl⟩ | ⟨digits, hsplit, rfl | rfl⟩ <;>
      obtain ⟨⟨hne, hall⟩, rfl⟩ := (hread _ _ hsplit).1 h
    · exact .minus hne hall
    · exact .plus hne hall
    · exact .digits hne hall
  · intro h
    cases h with
    | digits hne hall => exact (hread _ _ (splitSign_of_digits hall)).2 ⟨⟨hne, hall⟩, rfl⟩
    | plus hne hall => exact (hread _ _ rfl).2 ⟨⟨hne, hall⟩, rfl⟩
    | minus hne hall => exact (hread _ _ rfl).2 ⟨⟨hne, hall⟩, rfl⟩

theorem Addend.operand?_token (a : Addend) : operand? a.token = some a.operand := by
  cases a with
  | number t n hn =>
    simp only [operand?, Addend.token, t.kind_eq, Addend.operand, numeral?_eq_some_iff.2 hn,
      Option.map_some]
  | parameter t => simp only [operand?, Addend.token, t.kind_eq, Addend.operand]

theorem exists_addend {t : Token} {o : Operand} (h : operand? t = some o) :
    ∃ a : Addend, a.token = t ∧ a.operand = o := by
  unfold operand? at h
  split at h
  · next hk =>
    obtain ⟨n, hn, rfl⟩ := Option.map_eq_some_iff.1 h
    exact ⟨.number ⟨t, hk⟩ n (numeral?_eq_some_iff.1 hn), rfl, rfl⟩
  · next hk =>
    obtain rfl := Option.some.inj h
    exact ⟨.parameter ⟨t, hk⟩, rfl, rfl⟩
  · simp at h

theorem Sign.kind_token (s : Sign) : s.token.kind = .plus ∨ s.token.kind = .minus := by
  cases s with
  | plus t => exact Or.inl t.kind_eq
  | minus t => exact Or.inr t.kind_eq

theorem Sign.decide_minus (s : Sign) : decide (s.token.kind = .minus) = s.negative := by
  cases s with
  | plus t => simp [Sign.token, t.kind_eq, Sign.negative]
  | minus t => simp [Sign.token, t.kind_eq, Sign.negative]

theorem exists_sign {t : Token} (h : t.kind = .plus ∨ t.kind = .minus) :
    ∃ s : Sign, s.token = t := by
  rcases h with h | h
  · exact ⟨.plus ⟨t, h⟩, rfl⟩
  · exact ⟨.minus ⟨t, h⟩, rfl⟩

theorem terms_complete (negative : Bool) (span : Span) (a : Addend) (others : List (Sign × Addend))
    (hrest : isSign (kindAhead rest) = false) :
    Reads (terms stop negative span (a.token :: (Sum.tailTokens others ++ rest)))
      (⟨negative, a.operand⟩ :: Sum.tailTerms others,
        Sum.extend span (a :: others.map Prod.snd)) rest := by
  induction others generalizing negative span a with
  | nil => exact terms_last a.operand?_token hrest
  | cons x others ih =>
    refine terms_cons a.operand?_token x.1.kind_token ?_
    rw [x.1.decide_minus]
    exact ih _ _ x.2

theorem exists_of_terms {negative : Bool} {span covered : Span} {more : List Term}
    (h : Reads (terms stop negative span tokens) (more, covered) rest) :
    ∃ (a : Addend) (others : List (Sign × Addend)),
      tokens = a.token :: (Sum.tailTokens others ++ rest) ∧
      more = ⟨negative, a.operand⟩ :: Sum.tailTerms others ∧
      covered = Sum.extend span (a :: others.map Prod.snd) := by
  induction hn : tokens.length using Nat.strong_induction_on
    generalizing tokens negative span more with
  | _ n ih =>
    obtain ⟨t, o, behind, rfl, ht, hcase⟩ := terms_cases h
    obtain ⟨a, rfl, rfl⟩ := exists_addend ht
    rcases hcase with ⟨heq, rfl, -⟩ | ⟨sign, after, more', covered', rfl, hsign, heq, hmore⟩
    · simp only [Prod.mk.injEq] at heq
      exact ⟨a, [], rfl, heq.1, heq.2⟩
    · simp only [Prod.mk.injEq] at heq
      obtain ⟨rfl, rfl⟩ := heq
      obtain ⟨s, rfl⟩ := exists_sign hsign
      rw [s.decide_minus] at hmore
      have hlt : after.length < n := by
        simp only [← hn, List.length_cons]
        omega
      obtain ⟨a', others, rfl, rfl, rfl⟩ := ih after.length hlt hmore rfl
      exact ⟨a, (s, a') :: others, rfl, rfl, rfl⟩

theorem arithmetic_complete (e : Sum) (hrest : isSign (kindAhead rest) = false) :
    Reads (arithmetic stop (e.tokens ++ rest)) e.tree rest := by
  obtain ⟨sign, first, others⟩ := e
  rcases sign with - | s
  · have hfirst : ¬(first.token.kind = .plus ∨ first.token.kind = .minus) := by
      rcases first with t | t <;> simp [Addend.token, t.kind_eq]
    exact arithmetic_unsigned hfirst (terms_complete false first.token.span first others hrest)
  · refine arithmetic_signed s.kind_token ?_
    rw [s.decide_minus]
    exact terms_complete s.negative s.token.span first others hrest

theorem exists_of_arithmetic {found : Arithmetic} (h : Reads (arithmetic stop tokens) found rest) :
    ∃ e : Sum, tokens = e.tokens ++ rest ∧ found = e.tree := by
  obtain ⟨t, behind, more, covered, rfl, hcase⟩ := arithmetic_cases h
  rcases hcase with ⟨ht, rfl, hterms⟩ | ⟨-, rfl, hterms⟩
  · obtain ⟨s, rfl⟩ := exists_sign ht
    rw [s.decide_minus] at hterms
    obtain ⟨a, others, rfl, rfl, rfl⟩ := exists_of_terms hterms
    exact ⟨⟨some s, a, others⟩, rfl, rfl⟩
  · obtain ⟨a, others, heq, rfl, rfl⟩ := exists_of_terms hterms
    simp only [List.cons.injEq] at heq
    obtain ⟨rfl, rfl⟩ := heq
    exact ⟨⟨none, a, others⟩, rfl, rfl⟩

/-! ### First tokens, and what follows

Which tokens may follow a nonterminal is what makes the readers' lookahead enough: behind an
argument there is a comma or a right parenthesis, and behind a sequence nothing that could go on
with it. -/

/-- The kinds of tokens that may stand behind an argument. -/
def closes : Option TokenKind → Bool
  | some .comma | some .rightParen => true
  | _ => false

theorem goesOn_of_closes {k : Option TokenKind} (h : closes k = true) : goesOn k = false := by
  unfold closes at h
  split at h <;> simp_all [goesOn]

theorem isSign_of_closes {k : Option TokenKind} (h : closes k = true) : isSign k = false := by
  unfold closes at h
  split at h <;> simp_all [isSign]

theorem closes_comma (t : Leaf .comma) (behind : List Token) :
    closes (kindAhead (t.token :: behind)) = true := by
  simp [kindAhead, closes, t.kind_eq]

theorem closes_rightParen {t : Token} (h : t.kind = .rightParen) (behind : List Token) :
    closes (kindAhead (t :: behind)) = true := by
  simp [kindAhead, closes, h]

/-- No argument starts where one has ended. -/
theorem argumentForm?_of_closes (h : closes (kindAhead tokens) = true) :
    argumentForm? tokens = none := by
  rcases tokens with - | ⟨t, behind⟩
  · rfl
  · unfold closes at h
    split at h <;> simp_all [kindAhead, argumentForm?]

theorem ne_leftParen_of_goesOn {k : Option TokenKind} (h : goesOn k = false) :
    k ≠ some .leftParen := by
  rintro rfl
  simp [goesOn] at h

theorem Statement.exists_tokens_eq (s : Statement) :
    ∃ t behind, s.tokens = t :: behind ∧ (t.kind = .command ∨ t.kind = .procedure) := by
  cases s with
  | command t => exact ⟨_, _, rfl, Or.inl t.kind_eq⟩
  | plain name => exact ⟨_, _, rfl, Or.inr name.kind_eq⟩
  | applied name left args right => exact ⟨_, _, rfl, Or.inr name.kind_eq⟩

theorem Item.exists_tokens_eq (i : Item) :
    ∃ t behind, i.tokens = t :: behind ∧
      (t.kind = .command ∨ t.kind = .procedure ∨ t.kind = .parameter) := by
  cases i with
  | statement s =>
    obtain ⟨t, behind, heq, hk⟩ := s.exists_tokens_eq
    exact ⟨t, behind, heq, hk.elim Or.inl fun h ↦ Or.inr (Or.inl h)⟩
  | parameter t => exact ⟨_, _, rfl, Or.inr (Or.inr t.kind_eq)⟩

theorem Item.kindAhead_tokens (i : Item) (others : List Token) :
    kindAhead (i.tokens ++ others) ≠ some .leftParen := by
  obtain ⟨t, behind, heq, hk⟩ := i.exists_tokens_eq
  rw [heq]
  rcases hk with hk | hk | hk <;> simp [kindAhead, hk]

theorem Items.kindAhead_tokens (is : Items) (h : kindAhead rest ≠ some .leftParen) :
    kindAhead (is.tokens ++ rest) ≠ some .leftParen := by
  cases is with
  | nil => exact h
  | cons i others =>
    rw [Items.tokens, List.append_assoc]
    exact i.kindAhead_tokens _

theorem Sum.exists_of_isLoneParameter {e : Sum} (h : e.isLoneParameter = true) :
    ∃ t : Leaf .parameter, e = ⟨none, .parameter t, []⟩ := by
  unfold isLoneParameter at h
  split at h
  · next t => exact ⟨t, rfl⟩
  · simp at h

/-- The form of an argument, which its derivation shows. -/
def Arg.form : Arg → ArgumentForm
  | .reference _ => .reference
  | .quotedOne _ => .sequence
  | .quotedMany _ _ _ => .sequence
  | .sum _ _ => .sum

/-- **Two tokens tell the form of an argument.** -/
theorem Arg.form_eq (a : Arg) (hrest : closes (kindAhead rest) = true) :
    argumentForm? (a.tokens ++ rest) = some a.form := by
  cases a with
  | reference t =>
    simp only [Arg.tokens, List.singleton_append, argumentForm?, t.kind_eq, Arg.form]
    unfold closes at hrest
    split at hrest <;> simp_all
  | quotedOne s =>
    obtain ⟨t, behind, heq, hk⟩ := s.exists_tokens_eq
    rw [Arg.tokens, heq]
    rcases hk with hk | hk <;> simp [argumentForm?, hk, Arg.form]
  | quotedMany i j others =>
    cases i with
    | statement s =>
      obtain ⟨t, behind, heq, hk⟩ := s.exists_tokens_eq
      rw [Arg.tokens, Item.tokens, heq]
      rcases hk with hk | hk <;> simp [argumentForm?, hk, Arg.form]
    | parameter t =>
      obtain ⟨u, behind, heq, hk⟩ := j.exists_tokens_eq
      rw [Arg.tokens, Item.tokens, heq]
      rcases hk with hk | hk | hk <;> simp [argumentForm?, t.kind_eq, kindAhead, hk, Arg.form]
  | sum e notLone =>
    obtain ⟨sign, first, others⟩ := e
    rcases sign with - | s
    · rcases first with t | t
      · simp [Arg.tokens, Sum.tokens, argumentForm?, Addend.token, t.kind_eq, Arg.form]
      · -- a parameter without a sign has a sign behind it, since it is not alone
        rcases others with - | ⟨⟨s, b⟩, others⟩
        · simp [Sum.isLoneParameter] at notLone
        · rcases s.kind_token with hs | hs <;>
            simp [Arg.tokens, Sum.tokens, Sum.tailTokens, argumentForm?, Addend.token, t.kind_eq,
              kindAhead, hs, Arg.form]
    · rcases s.kind_token with hs | hs <;>
        simp [Arg.tokens, Sum.tokens, argumentForm?, hs, Arg.form]

/-! ### Whatever is derived is read

The induction follows the derivation. A statement is read in front of whatever its sequence goes on
with, so the claim about it speaks of the whole sequence. -/

mutual
theorem Statement.reads_cons (s : Statement) {tokens rest : List Token} {allowed : Bool}
    {v : List Element} (htokens : kindAhead tokens ≠ some .leftParen)
    (h : Reads (sequence stop allowed tokens) v rest) :
    Reads (sequence stop allowed (s.tokens ++ tokens)) (s.tree :: v) rest := by
  match s with
  | .command t => exact sequence_command t.kind_eq h
  | .plain name => exact sequence_procedure name.kind_eq (call_plain htokens) h
  | .applied name left args right =>
    have hargs : Reads (arguments stop (args.tokens ++ right.token :: tokens))
        (args.tree, right.token.span) tokens := args.reads right.kind_eq
    have happ : (Statement.applied name left args right).tokens ++ tokens =
        name.token :: left.token :: (args.tokens ++ right.token :: tokens) := by
      simp [Statement.tokens]
    rw [happ]
    exact sequence_procedure name.kind_eq (call_applied left.kind_eq hargs) h

theorem Item.reads_cons (i : Item) {tokens rest : List Token} {v : List Element}
    (htokens : kindAhead tokens ≠ some .leftParen) (h : Reads (sequence stop true tokens) v rest) :
    Reads (sequence stop true (i.tokens ++ tokens)) (i.tree :: v) rest := by
  match i with
  | .statement s => exact s.reads_cons htokens h
  | .parameter t => exact sequence_parameter t.kind_eq h

theorem Items.reads (is : Items) {rest : List Token} (hrest : goesOn (kindAhead rest) = false) :
    Reads (sequence stop true (is.tokens ++ rest)) is.tree rest := by
  match is with
  | .nil => exact sequence_stop hrest
  | .cons i others =>
    rw [Items.tokens, List.append_assoc]
    exact i.reads_cons (others.kindAhead_tokens (ne_leftParen_of_goesOn hrest))
      (others.reads hrest)

theorem Arg.reads (a : Arg) {rest : List Token} (hrest : closes (kindAhead rest) = true) :
    Reads (argument stop (a.tokens ++ rest)) a.tree rest := by
  have hform := a.form_eq hrest
  have hstop := goesOn_of_closes hrest
  have hparen := ne_leftParen_of_goesOn hstop
  match a with
  | .reference t => exact argument_reference hform
  | .quotedOne s => exact argument_sequence hform (s.reads_cons hparen (sequence_stop hstop))
  | .quotedMany i j others =>
    refine argument_sequence hform ?_
    rw [Arg.tokens, List.append_assoc, List.append_assoc]
    exact i.reads_cons (j.kindAhead_tokens _)
      (j.reads_cons (others.kindAhead_tokens hparen) (others.reads hstop))
  | .sum e notLone => exact argument_sum hform (arithmetic_complete e (isSign_of_closes hrest))

theorem Args.reads (args : Args) {rest : List Token} {right : Token}
    (hright : right.kind = .rightParen) :
    Reads (arguments stop (args.tokens ++ right :: rest)) (args.tree, right.span) rest := by
  match args with
  | .last a =>
    exact arguments_last (a.reads (closes_rightParen hright _)) hright
  | .cons a comma others =>
    rw [Args.tokens, List.append_assoc]
    exact arguments_cons (a.reads (closes_comma comma _)) comma.kind_eq
      (others.reads hright)
end

/-! ### Whatever is read is derived

The readers call each other on fewer tokens or in a fixed order on the same ones, so the induction
is on a bound for the number of tokens. Each step is one lemma for each reader. -/

/-- What the readers accept of fewer than `n` tokens is derived. -/
structure SoundBelow (stop : Token) (n : ℕ) : Prop where
  sequence : ∀ {tokens rest : List Token} {v : List Element}, tokens.length < n →
    Reads (sequence stop true tokens) v rest →
    ∃ is : Items, tokens = is.tokens ++ rest ∧ v = is.tree
  call : ∀ {name : Token} {tokens rest : List Token} {e : Element}, tokens.length < n →
    name.kind = .procedure → Reads (call stop name tokens) e rest →
    ∃ s : Statement, name :: tokens = s.tokens ++ rest ∧ e = s.tree
  arguments : ∀ {tokens rest : List Token} {args : List Argument} {span : Span},
    tokens.length < n → Reads (arguments stop tokens) (args, span) rest →
    ∃ (as : Args) (right : Leaf .rightParen),
      tokens = as.tokens ++ right.token :: rest ∧ args = as.tree ∧ span = right.token.span

namespace SoundBelow

variable {n : ℕ}

theorem sequence_succ (h : SoundBelow stop n) {v : List Element} (hlen : tokens.length < n + 1)
    (hread : Reads (Parse.sequence stop true tokens) v rest) :
    ∃ is : Items, tokens = is.tokens ++ rest ∧ v = is.tree := by
  rcases sequence_cases hread with ⟨rfl, rfl, -⟩ | ⟨t, behind, v', rfl, ht, rfl, hmore⟩ |
    ⟨t, behind, e, after, v', rfl, ht, rfl, hcall, hmore⟩ | ⟨t, behind, v', rfl, -, ht, rfl, hmore⟩
  · exact ⟨.nil, rfl, rfl⟩
  · rw [List.length_cons] at hlen
    obtain ⟨is, rfl, rfl⟩ := h.sequence (by omega) hmore
    exact ⟨.cons (.statement (.command ⟨t, ht⟩)) is, rfl, rfl⟩
  · rw [List.length_cons] at hlen
    obtain ⟨s, htokens, rfl⟩ := h.call (by omega) ht hcall
    obtain ⟨is, rfl, rfl⟩ := h.sequence (hcall.length_le.trans_lt (by omega)) hmore
    exact ⟨.cons (.statement s) is, by simp [Items.tokens, Item.tokens, htokens], rfl⟩
  · rw [List.length_cons] at hlen
    obtain ⟨is, rfl, rfl⟩ := h.sequence (by omega) hmore
    exact ⟨.cons (.parameter ⟨t, ht⟩) is, rfl, rfl⟩

theorem call_succ (h : SoundBelow stop n) {name : Token} {e : Element}
    (hlen : tokens.length < n + 1) (hname : name.kind = .procedure)
    (hread : Reads (Parse.call stop name tokens) e rest) :
    ∃ s : Statement, name :: tokens = s.tokens ++ rest ∧ e = s.tree := by
  rcases call_cases hread with ⟨rfl, rfl, -⟩ | ⟨t, behind, args, right, rfl, ht, rfl, hargs⟩
  · exact ⟨.plain ⟨name, hname⟩, rfl, rfl⟩
  · rw [List.length_cons] at hlen
    obtain ⟨as, right, rfl, rfl, rfl⟩ := h.arguments (by omega) hargs
    exact ⟨.applied ⟨name, hname⟩ ⟨t, ht⟩ as right, by simp [Statement.tokens], rfl⟩

/-- Two tokens were enough to tell a reference from the other two forms: neither of them can be a
lone parameter in front of a comma or a right parenthesis. -/
theorem argument_succ (h : SoundBelow stop n) {a : Argument} (hlen : tokens.length < n + 1)
    (hrest : closes (kindAhead rest) = true) (hread : Reads (argument stop tokens) a rest) :
    ∃ a' : Arg, tokens = a'.tokens ++ rest ∧ a = a'.tree := by
  have hlone : ∀ t : Leaf .parameter, argumentForm? (t.token :: rest) = some .reference :=
    fun t ↦ (Arg.reference t).form_eq hrest
  rcases argument_cases hread with ⟨sum, hform, rfl, hsum⟩ | ⟨t, hform, rfl, rfl⟩ |
    ⟨v, hform, rfl, hseq⟩
  · obtain ⟨e, rfl, rfl⟩ := exists_of_arithmetic hsum
    refine ⟨.sum e ?_, rfl, rfl⟩
    rw [Bool.eq_false_iff]
    intro hcon
    obtain ⟨t, rfl⟩ := Sum.exists_of_isLoneParameter hcon
    exact absurd ((hlone t).symm.trans hform) (by simp)
  · have ht : t.kind = .parameter := by
      rcases hk : t.kind <;> simp [argumentForm?, hk] at hform ⊢
    exact ⟨.reference ⟨t, ht⟩, rfl, rfl⟩
  · obtain ⟨is, rfl, rfl⟩ := h.sequence_succ hlen hseq
    -- only the empty sequence and a lone parameter are no arguments of this form
    rcases is with - | ⟨s | t, - | ⟨j, others⟩⟩
    · exact absurd ((argumentForm?_of_closes hrest).symm.trans hform) (by simp)
    · exact ⟨.quotedOne s, by simp [Items.tokens, Item.tokens, Arg.tokens], rfl⟩
    · exact ⟨.quotedMany (.statement s) j others, rfl, rfl⟩
    · exact absurd ((hlone t).symm.trans hform) (by simp)
    · exact ⟨.quotedMany (.parameter t) j others, rfl, rfl⟩

theorem arguments_succ (h : SoundBelow stop n) {args : List Argument} {span : Span}
    (hlen : tokens.length < n + 1) (hread : Reads (Parse.arguments stop tokens) (args, span) rest) :
    ∃ (as : Args) (right : Leaf .rightParen),
      tokens = as.tokens ++ right.token :: rest ∧ args = as.tree ∧ span = right.token.span := by
  obtain ⟨a, t, behind, ha, hcase⟩ := arguments_cases hread
  rcases hcase with ⟨ht, heq, rfl⟩ | ⟨args', span', ht, heq, hmore⟩
  · obtain ⟨a', rfl, rfl⟩ := h.argument_succ hlen (by simp [kindAhead, closes, ht]) ha
    simp only [Prod.mk.injEq] at heq
    exact ⟨.last a', ⟨t, ht⟩, rfl, heq.1, heq.2⟩
  · obtain ⟨a', rfl, rfl⟩ := h.argument_succ hlen (by simp [kindAhead, closes, ht]) ha
    simp only [Prod.mk.injEq] at heq
    obtain ⟨rfl, rfl⟩ := heq
    rw [List.length_append, List.length_cons] at hlen
    obtain ⟨as, right, rfl, rfl, rfl⟩ := h.arguments (by omega) hmore
    exact ⟨.cons a' ⟨t, ht⟩ as, right, by simp [Args.tokens], rfl, rfl⟩

end SoundBelow

theorem soundBelow (stop : Token) (n : ℕ) : SoundBelow stop n := by
  induction n with
  | zero => exact ⟨fun h ↦ absurd h (by omega), fun h ↦ absurd h (by omega),
      fun h ↦ absurd h (by omega)⟩
  | succ n ih => exact ⟨ih.sequence_succ, ih.call_succ, ih.arguments_succ⟩

/-- **A sequence that is read is derived.** -/
theorem exists_of_sequence {v : List Element} (h : Reads (sequence stop true tokens) v rest) :
    ∃ is : Items, tokens = is.tokens ++ rest ∧ v = is.tree :=
  (soundBelow stop (tokens.length + 1)).sequence (by omega) h

/-- Where parameters are not allowed, only statements are read. -/
theorem exists_of_sequence_false {v : List Element}
    (h : Reads (sequence stop false tokens) v rest) :
    ∃ ss : List Statement, tokens = ss.flatMap Statement.tokens ++ rest ∧
      v = ss.map Statement.tree := by
  induction hn : tokens.length using Nat.strong_induction_on generalizing tokens v with
  | _ n ih =>
    rcases sequence_cases h with ⟨rfl, rfl, -⟩ | ⟨t, behind, v', rfl, ht, rfl, hmore⟩ |
      ⟨t, behind, e, after, v', rfl, ht, rfl, hcall, hmore⟩ | ⟨t, behind, v', rfl, hfalse, -⟩
    · exact ⟨[], rfl, rfl⟩
    · rw [List.length_cons] at hn
      obtain ⟨ss, rfl, rfl⟩ := ih behind.length (by omega) hmore rfl
      exact ⟨.command ⟨t, ht⟩ :: ss, rfl, rfl⟩
    · rw [List.length_cons] at hn
      have hlt := hcall.length_le
      obtain ⟨s, htokens, rfl⟩ := (soundBelow stop (behind.length + 1)).call (by omega) ht hcall
      obtain ⟨ss, rfl, rfl⟩ := ih after.length (by omega) hmore rfl
      exact ⟨s :: ss, by simp [htokens], rfl⟩
    · simp at hfalse

/-! ### Derivations are unique

Two derivations with the same tokens, each in front of something that may follow it, are the same
and leave the same tokens. -/

theorem Leaf.token_ne {kind kind' : TokenKind} (t : Leaf kind) (t' : Leaf kind')
    (h : kind ≠ kind') : t.token ≠ t'.token := by
  intro heq
  exact h (by rw [← t.kind_eq, heq, t'.kind_eq])

theorem Sign.token_injective : Function.Injective Sign.token := by
  rintro (t | t) (t' | t') h
  · rw [Leaf.ext h]
  · exact absurd h (t.token_ne t' (by decide))
  · exact absurd h (t.token_ne t' (by decide))
  · rw [Leaf.ext h]

theorem Addend.token_injective : Function.Injective Addend.token := by
  rintro (⟨t, n, hn⟩ | t) (⟨t', n', hn'⟩ | t') h
  · obtain rfl := Leaf.ext h
    -- a numeral spells one number
    have hsame : some n = some n' :=
      (numeral?_eq_some_iff.2 hn).symm.trans (numeral?_eq_some_iff.2 hn')
    obtain rfl := Option.some.inj hsame
    rfl
  · exact absurd h (t.token_ne t' (by decide))
  · exact absurd h (t.token_ne t' (by decide))
  · rw [Leaf.ext h]

theorem isSign_token (s : Sign) (tokens : List Token) :
    isSign (kindAhead (s.token :: tokens)) = true := by
  rcases s.kind_token with h | h <;> simp [kindAhead, isSign, h]

theorem Sum.tail_unique {others others' : List (Sign × Addend)} {rest rest' : List Token}
    (h : tailTokens others ++ rest = tailTokens others' ++ rest')
    (hrest : isSign (kindAhead rest) = false) (hrest' : isSign (kindAhead rest') = false) :
    others = others' ∧ rest = rest' := by
  induction others generalizing others' with
  | nil =>
    rcases others' with - | ⟨x', others'⟩
    · exact ⟨rfl, h⟩
    · obtain rfl : rest = x'.1.token :: x'.2.token :: (tailTokens others' ++ rest') := h
      simp [isSign_token] at hrest
  | cons x others ih =>
    rcases others' with - | ⟨x', others'⟩
    · obtain rfl : x.1.token :: x.2.token :: (tailTokens others ++ rest) = rest' := h
      simp [isSign_token] at hrest'
    · have h' : x.1.token :: x.2.token :: (tailTokens others ++ rest) =
          x'.1.token :: x'.2.token :: (tailTokens others' ++ rest') := h
      simp only [List.cons.injEq] at h'
      obtain ⟨rfl, rfl⟩ := ih h'.2.2
      exact ⟨by rw [Prod.ext (Sign.token_injective h'.1) (Addend.token_injective h'.2.1)], rfl⟩

theorem Sum.unique {e e' : Sum} {rest rest' : List Token}
    (h : e.tokens ++ rest = e'.tokens ++ rest') (hrest : isSign (kindAhead rest) = false)
    (hrest' : isSign (kindAhead rest') = false) : e = e' ∧ rest = rest' := by
  obtain ⟨sign, first, others⟩ := e
  obtain ⟨sign', first', others'⟩ := e'
  have hclash : ∀ (s : Sign) (a : Addend), s.token ≠ a.token := by
    rintro (s | s) (a | a) <;> exact s.token_ne a (by decide)
  rcases sign with - | s <;> rcases sign' with - | s' <;>
    simp only [tokens, Option.map_none, Option.map_some, Option.toList_none, Option.toList_some,
      List.nil_append, List.cons_append, List.cons.injEq] at h
  · obtain ⟨rfl, rfl⟩ := tail_unique h.2 hrest hrest'
    exact ⟨by rw [Addend.token_injective h.1], rfl⟩
  · exact absurd h.1.symm (hclash s' first)
  · exact absurd h.1 (hclash s first')
  · obtain ⟨rfl, rfl⟩ := tail_unique h.2.2 hrest hrest'
    exact ⟨by rw [Sign.token_injective h.1, Addend.token_injective h.2.1], rfl⟩

/-- The first token tells a statement from a parameter. -/
theorem Statement.tokens_ne (s : Statement) (t : Leaf .parameter) (rest rest' : List Token) :
    s.tokens ++ rest ≠ t.token :: rest' := by
  obtain ⟨u, behind, heq, hk⟩ := s.exists_tokens_eq
  rw [heq]
  intro h
  simp only [List.cons_append, List.cons.injEq] at h
  rw [h.1, t.kind_eq] at hk
  simp at hk

/-- No element of a sequence starts where an argument has ended. -/
theorem Item.tokens_ne_of_closes (i : Item) (others rest : List Token)
    (hrest : closes (kindAhead rest) = true) : rest ≠ i.tokens ++ others := by
  obtain ⟨t, behind, heq, hk⟩ := i.exists_tokens_eq
  rintro rfl
  rcases hk with hk | hk | hk <;> simp [heq, kindAhead, hk, closes] at hrest

mutual
theorem Statement.unique (s s' : Statement) {rest rest' : List Token}
    (h : s.tokens ++ rest = s'.tokens ++ rest') (hrest : kindAhead rest ≠ some .leftParen)
    (hrest' : kindAhead rest' ≠ some .leftParen) : s = s' ∧ rest = rest' := by
  have hkind := congrArg kindAhead h
  match s, s' with
  | .command t, .command t' =>
    simp only [Statement.tokens, List.singleton_append, List.cons.injEq] at h
    exact ⟨by rw [Leaf.ext h.1], h.2⟩
  | .plain name, .plain name' =>
    simp only [Statement.tokens, List.singleton_append, List.cons.injEq] at h
    exact ⟨by rw [Leaf.ext h.1], h.2⟩
  | .applied name left args right, .applied name' left' args' right' =>
    simp only [Statement.tokens, List.cons_append, List.append_assoc, List.nil_append,
      List.cons.injEq] at h
    obtain ⟨hn, hl, h⟩ := h
    obtain ⟨rfl, hr, rfl⟩ := Args.unique args args' right.kind_eq right'.kind_eq h
    rw [Leaf.ext hn, Leaf.ext hl, Leaf.ext hr]
    exact ⟨rfl, rfl⟩
  -- a name stands alone only if no parenthesis follows it
  | .plain name, .applied name' left' args' right' =>
    simp only [Statement.tokens, List.cons_append, List.nil_append, List.cons.injEq] at h
    exact absurd (by rw [h.2, kindAhead, List.head?_cons, Option.map_some, left'.kind_eq]) hrest
  | .applied name left args right, .plain name' =>
    simp only [Statement.tokens, List.cons_append, List.nil_append, List.cons.injEq] at h
    exact absurd (by rw [← h.2, kindAhead, List.head?_cons, Option.map_some, left.kind_eq]) hrest'
  | .command t, .plain name' => simp [Statement.tokens, kindAhead, Leaf.kind_eq] at hkind
  | .command t, .applied name' _ _ _ => simp [Statement.tokens, kindAhead, Leaf.kind_eq] at hkind
  | .plain name, .command t' => simp [Statement.tokens, kindAhead, Leaf.kind_eq] at hkind
  | .applied name _ _ _, .command t' => simp [Statement.tokens, kindAhead, Leaf.kind_eq] at hkind

theorem Item.unique (i i' : Item) {rest rest' : List Token}
    (h : i.tokens ++ rest = i'.tokens ++ rest') (hrest : kindAhead rest ≠ some .leftParen)
    (hrest' : kindAhead rest' ≠ some .leftParen) : i = i' ∧ rest = rest' := by
  match i, i' with
  | .statement s, .statement s' =>
    obtain ⟨rfl, rfl⟩ := Statement.unique s s' h hrest hrest'
    exact ⟨rfl, rfl⟩
  | .parameter t, .parameter t' =>
    simp only [Item.tokens, List.singleton_append, List.cons.injEq] at h
    exact ⟨by rw [Leaf.ext h.1], h.2⟩
  | .statement s, .parameter t' => exact absurd h (s.tokens_ne t' rest rest')
  | .parameter t, .statement s' => exact absurd h.symm (s'.tokens_ne t rest' rest)

theorem Items.unique (is is' : Items) {rest rest' : List Token}
    (h : is.tokens ++ rest = is'.tokens ++ rest') (hrest : goesOn (kindAhead rest) = false)
    (hrest' : goesOn (kindAhead rest') = false) : is = is' ∧ rest = rest' := by
  match is, is' with
  | .nil, .nil => exact ⟨rfl, h⟩
  | .cons i others, .cons i' others' =>
    rw [Items.tokens, Items.tokens, List.append_assoc, List.append_assoc] at h
    obtain ⟨rfl, h'⟩ := Item.unique i i' h
      (others.kindAhead_tokens (ne_leftParen_of_goesOn hrest))
      (others'.kindAhead_tokens (ne_leftParen_of_goesOn hrest'))
    obtain ⟨rfl, rfl⟩ := Items.unique others others' h' hrest hrest'
    exact ⟨rfl, rfl⟩
  | .nil, .cons i' others' =>
    obtain ⟨t, behind, heq, hk⟩ := i'.exists_tokens_eq
    rw [Items.tokens, Items.tokens, heq, List.nil_append] at h
    rcases hk with hk | hk | hk <;> simp [h, kindAhead, hk, goesOn] at hrest
  | .cons i others, .nil =>
    obtain ⟨t, behind, heq, hk⟩ := i.exists_tokens_eq
    rw [Items.tokens, Items.tokens, heq, List.nil_append] at h
    rcases hk with hk | hk | hk <;> simp [← h, kindAhead, hk, goesOn] at hrest'

theorem Arg.unique (a a' : Arg) {rest rest' : List Token}
    (h : a.tokens ++ rest = a'.tokens ++ rest') (hrest : closes (kindAhead rest) = true)
    (hrest' : closes (kindAhead rest') = true) : a = a' ∧ rest = rest' := by
  have hform : a.form = a'.form := by
    have := (a.form_eq hrest).symm.trans (h ▸ a'.form_eq hrest')
    simpa using this
  have hparen := ne_leftParen_of_goesOn (goesOn_of_closes hrest)
  have hparen' := ne_leftParen_of_goesOn (goesOn_of_closes hrest')
  match a, a' with
  | .reference t, .reference t' =>
    simp only [Arg.tokens, List.singleton_append, List.cons.injEq] at h
    exact ⟨by rw [Leaf.ext h.1], h.2⟩
  | .sum e notLone, .sum e' notLone' =>
    obtain ⟨rfl, rfl⟩ := Sum.unique h (isSign_of_closes hrest) (isSign_of_closes hrest')
    exact ⟨rfl, rfl⟩
  | .quotedOne s, .quotedOne s' =>
    obtain ⟨rfl, rfl⟩ := Statement.unique s s' h hparen hparen'
    exact ⟨rfl, rfl⟩
  | .quotedMany i j others, .quotedMany i' j' others' =>
    simp only [Arg.tokens, List.append_assoc] at h
    obtain ⟨rfl, h₁⟩ := Item.unique i i' h (j.kindAhead_tokens _) (j'.kindAhead_tokens _)
    obtain ⟨rfl, h₂⟩ := Item.unique j j' h₁ (others.kindAhead_tokens hparen)
      (others'.kindAhead_tokens hparen')
    obtain ⟨rfl, rfl⟩ := Items.unique others others' h₂ (goesOn_of_closes hrest)
      (goesOn_of_closes hrest')
    exact ⟨rfl, rfl⟩
  -- behind a lone statement the argument ends, so no second element starts there
  | .quotedOne s, .quotedMany (.statement s') j' others' =>
    simp only [Arg.tokens, Item.tokens, List.append_assoc] at h
    obtain ⟨-, h₁⟩ := Statement.unique s s' h hparen (j'.kindAhead_tokens _)
    exact absurd h₁ (j'.tokens_ne_of_closes _ _ hrest)
  | .quotedMany (.statement s) j others, .quotedOne s' =>
    simp only [Arg.tokens, Item.tokens, List.append_assoc] at h
    obtain ⟨-, h₁⟩ := Statement.unique s s' h (j.kindAhead_tokens _) hparen'
    exact absurd h₁.symm (j.tokens_ne_of_closes _ _ hrest')
  | .quotedOne s, .quotedMany (.parameter t') j' others' =>
    simp only [Arg.tokens, Item.tokens, List.singleton_append] at h
    exact absurd h (s.tokens_ne t' _ _)
  | .quotedMany (.parameter t) j others, .quotedOne s' =>
    simp only [Arg.tokens, Item.tokens, List.singleton_append] at h
    exact absurd h.symm (s'.tokens_ne t _ _)
  | .reference _, .sum _ _ | .reference _, .quotedOne _ | .reference _, .quotedMany _ _ _
  | .sum _ _, .reference _ | .sum _ _, .quotedOne _ | .sum _ _, .quotedMany _ _ _
  | .quotedOne _, .reference _ | .quotedOne _, .sum _ _
  | .quotedMany _ _ _, .reference _ | .quotedMany _ _ _, .sum _ _ => simp [Arg.form] at hform

theorem Args.unique (args args' : Args) {rest rest' : List Token} {right right' : Token}
    (hright : right.kind = .rightParen) (hright' : right'.kind = .rightParen)
    (h : args.tokens ++ right :: rest = args'.tokens ++ right' :: rest') :
    args = args' ∧ right = right' ∧ rest = rest' := by
  match args, args' with
  | .last a, .last a' =>
    obtain ⟨rfl, h₁⟩ := Arg.unique a a' h (closes_rightParen hright _)
      (closes_rightParen hright' _)
    simp only [List.cons.injEq] at h₁
    exact ⟨rfl, h₁⟩
  | .cons a comma others, .cons a' comma' others' =>
    simp only [Args.tokens, List.append_assoc, List.cons_append] at h
    obtain ⟨rfl, h₁⟩ := Arg.unique a a' h (closes_comma comma _) (closes_comma comma' _)
    simp only [List.cons.injEq] at h₁
    obtain ⟨rfl, hr, rfl⟩ := Args.unique others others' hright hright' h₁.2
    exact ⟨by rw [Leaf.ext h₁.1], hr, rfl⟩
  | .last a, .cons a' comma' others' =>
    simp only [Args.tokens, List.append_assoc, List.cons_append] at h
    obtain ⟨-, h₁⟩ := Arg.unique a a' h (closes_rightParen hright _) (closes_comma comma' _)
    simp only [List.cons.injEq] at h₁
    rw [h₁.1, comma'.kind_eq] at hright
    simp at hright
  | .cons a comma others, .last a' =>
    simp only [Args.tokens, List.append_assoc, List.cons_append] at h
    obtain ⟨-, h₁⟩ := Arg.unique a a' h (closes_comma comma _) (closes_rightParen hright' _)
    simp only [List.cons.injEq] at h₁
    rw [← h₁.1, comma.kind_eq] at hright'
    simp at hright'
end

end RobotGolf.Grammar
