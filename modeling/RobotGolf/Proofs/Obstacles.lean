import RobotGolf.Proofs.Lookahead
import RobotGolf.Proofs.Refusal
/-!
# Where a reader fails, and what could have stood there

A reader that fails has taken some tokens, `before`, and met another one that does not fit. The two
sides of this are put together in `Obstacle`:

* **the tokens before were all right**: they can be completed to what the reader was looking for,
  and a few tokens of fixed kinds are enough for that (`Completable`);
* **the token itself was not**: in front of any token of its kind the reader fails in the same way,
  whatever comes behind it.

Every failure of the readers below the level of definitions is of this form, if all numbers among
the tokens are numerals, as they are in a text. For a sum the missing term is completed, for an
argument the closing parenthesis, and a sequence fails only within one of its calls. As in the proof
that what is read is derived, the induction is on a bound for the number of tokens.
-/

namespace RobotGolf.Grammar

open Parse

variable {α : Type} {stop : Token} {tokens rest : List Token} {f : Fault}

/-! ### Completions -/

/-- The tokens that a text is completed with. None of them is a number, which could run into one
that stands before it. -/
inductive Filler where
  | command
  | parameter
  | rightParen
  | newline
  deriving DecidableEq, Repr

namespace Filler

/-- The kind of token. -/
def kind : Filler → TokenKind
  | command => .command
  | parameter => .parameter
  | rightParen => .rightParen
  | newline => .newline

end Filler

/-- Some tokens of fixed kinds complete `before` to something with the property `P`. -/
def Completable (P : List Token → Prop) (before : List Token) : Prop :=
  ∃ fill : List Filler, ∀ tokens : List Token,
    tokens.map Token.kind = fill.map Filler.kind → P (before ++ tokens)

namespace Completable

variable {P Q : List Token → Prop} {before : List Token}

theorem done (h : P before) : Completable P before := by
  refine ⟨[], fun tokens htokens ↦ ?_⟩
  obtain rfl := List.map_eq_nil_iff.1 htokens
  rwa [List.append_nil]

/-- More in front. -/
theorem imp (front : List Token) (h : ∀ tokens, P tokens → Q (front ++ tokens))
    (hP : Completable P before) : Completable Q (front ++ before) := by
  obtain ⟨fill, hfill⟩ := hP
  refine ⟨fill, fun tokens htokens ↦ ?_⟩
  rw [List.append_assoc]
  exact h _ (hfill tokens htokens)

/-- One more token behind. -/
theorem snoc (x : Filler) (h : ∀ tokens t, P tokens → t.kind = x.kind → Q (tokens ++ [t]))
    (hP : Completable P before) : Completable Q before := by
  obtain ⟨fill, hfill⟩ := hP
  refine ⟨fill ++ [x], fun tokens htokens ↦ ?_⟩
  rw [List.map_append] at htokens
  obtain ⟨first, others, rfl, hfirst, hothers⟩ := List.map_eq_append_iff.1 htokens
  obtain ⟨t, rfl, ht⟩ := List.map_eq_singleton_iff.1 hothers
  rw [← List.append_assoc]
  exact h _ t (hfill first hfirst) ht

/-- A single token completes it. -/
theorem single (x : Filler) (h : ∀ t : Token, t.kind = x.kind → P (before ++ [t])) :
    Completable P before := by
  refine ⟨[x], fun tokens htokens ↦ ?_⟩
  obtain ⟨t, rfl, ht⟩ := List.map_eq_singleton_iff.1 htokens
  exact h t ht

end Completable

/-- A reader takes `before`, which could be completed, and fails at the first token of `ahead` for
its kind. -/
structure Obstacle (run : Token → (tokens : List Token) → Except Fault (Parsed α tokens.length))
    (P : List Token → Prop) (before ahead : List Token) : Prop where
  completable : Completable P before
  blocks : ∃ e, ∀ stop ahead', kindAhead ahead' = kindAhead ahead →
    run stop (before ++ ahead') = .error (unexpected stop ahead' e)

/-! ### Sums -/

/-- The numbers among some tokens are numerals. -/
def Numerals (tokens : List Token) : Prop :=
  ∀ t ∈ tokens, t.kind = .number → numeral? t.lexeme ≠ none

theorem Numerals.of_cons {t : Token} (h : Numerals (t :: tokens)) : Numerals tokens :=
  fun u hu ↦ h u (List.mem_cons_of_mem t hu)

theorem Numerals.of_append {front : List Token} (h : Numerals (front ++ tokens)) :
    Numerals tokens :=
  fun u hu ↦ h u (List.mem_append_right front hu)

theorem terms_obstacle {negative : Bool} {span : Span} (hnumerals : Numerals tokens)
    (h : terms stop negative span tokens = .error f) :
    ∃ before ahead, tokens = before ++ ahead ∧
      (before = [] → isAddend (kindAhead ahead) = false) ∧
      Obstacle (fun stop ↦ terms stop negative span)
        (fun ts ↦ ∃ (a : Addend) (others : List (Sign × Addend)),
          ts = a.token :: Sum.tailTokens others) before ahead := by
  induction hn : tokens.length using Nat.strong_induction_on
    generalizing tokens negative span with
  | _ n ih =>
    rcases terms_eq_error_iff.1 h with ⟨hkind, -⟩ | ⟨t, behind, rfl, hkind, hnumeral, -⟩ |
      ⟨t, o, sign, after, rfl, ht, hsign, hmore⟩
    · refine ⟨[], tokens, rfl, fun _ ↦ hkind, ?_, .operand, fun stop ahead' hahead ↦ ?_⟩
      · exact .single .parameter fun t ht ↦ ⟨.parameter ⟨t, ht⟩, [], rfl⟩
      · exact terms_eq_error_iff.2 (Or.inl ⟨by rwa [List.nil_append, hahead], rfl⟩)
    · exact absurd hnumeral (hnumerals t (List.mem_cons_self ..) hkind)
    · have hlt : after.length < n := by
        simp only [← hn, List.length_cons]
        omega
      obtain ⟨before, ahead, rfl, -, hcompletable, e, hblocks⟩ :=
        ih _ hlt hnumerals.of_cons.of_cons hmore rfl
      obtain ⟨a, rfl, -⟩ := exists_addend ht
      obtain ⟨s, rfl⟩ := exists_sign hsign
      refine ⟨a.token :: s.token :: before, ahead, rfl, by simp, ?_, e, fun stop ahead' hahead ↦ ?_⟩
      · refine hcompletable.imp [a.token, s.token] ?_
        rintro _ ⟨a', others, rfl⟩
        exact ⟨a, (s, a') :: others, rfl⟩
      · exact terms_eq_error_iff.2 (Or.inr (Or.inr ⟨a.token, o, s.token, _, rfl, ht, hsign,
          hblocks stop ahead' hahead⟩))

theorem arithmetic_obstacle (hnumerals : Numerals tokens)
    (hform : argumentForm? tokens = some .sum) (h : arithmetic stop tokens = .error f) :
    ∃ before ahead, tokens = before ++ ahead ∧ before ≠ [] ∧
      Obstacle arithmetic (fun ts ↦ ∃ e : Sum, ts = e.tokens) before ahead := by
  rcases arithmetic_eq_error_iff.1 h with ⟨rfl, -⟩ | ⟨t, behind, rfl, ht, hterms⟩ |
    ⟨t, behind, rfl, ht, hterms⟩
  · cases hform
  · obtain ⟨before, ahead, rfl, -, hcompletable, e, hblocks⟩ :=
      terms_obstacle hnumerals.of_cons hterms
    obtain ⟨s, rfl⟩ := exists_sign ht
    refine ⟨s.token :: before, ahead, rfl, by simp, ?_, e, fun stop ahead' hahead ↦ ?_⟩
    · refine hcompletable.imp [s.token] ?_
      rintro _ ⟨a, others, rfl⟩
      exact ⟨⟨some s, a, others⟩, rfl⟩
    · exact arithmetic_eq_error_iff.2 (Or.inr (Or.inl ⟨s.token, _, rfl, ht,
        hblocks stop ahead' hahead⟩))
  · obtain ⟨before, ahead, heq, hnil, hcompletable, e, hblocks⟩ := terms_obstacle hnumerals hterms
    -- A sum that starts without a sign starts with a term, so the first token is not the obstacle.
    rcases before with - | ⟨u, before⟩
    · have hkind := hnil rfl
      rw [List.nil_append] at heq
      rw [← heq] at hkind
      rcases hk : t.kind <;> simp [hk] at ht <;>
        simp [argumentForm?, kindAhead, isAddend, hk] at hform hkind
    · obtain ⟨rfl, rfl⟩ := List.cons.inj heq
      refine ⟨t :: before, ahead, rfl, by simp, ?_, e, fun stop ahead' hahead ↦ ?_⟩
      · refine hcompletable.imp [] ?_
        rintro _ ⟨a, others, rfl⟩
        exact ⟨⟨none, a, others⟩, rfl⟩
      · exact arithmetic_eq_error_iff.2 (Or.inr (Or.inr ⟨t, _, rfl, ht,
          hblocks stop ahead' hahead⟩))

/-! ### Sequences, calls and arguments -/

/-- The kinds of tokens that open an argument. -/
def opensArgument : Option TokenKind → Bool
  | some .plus | some .minus | some .number | some .command | some .procedure
  | some .parameter => true
  | _ => false

theorem argumentForm?_eq_none_iff :
    argumentForm? tokens = none ↔ opensArgument (kindAhead tokens) = false := by
  rcases tokens with - | ⟨t, behind⟩
  · exact iff_of_true rfl rfl
  · rcases hk : t.kind <;> simp [argumentForm?, kindAhead, opensArgument, hk]
    split <;> simp

/-- The tokens of an argument. -/
def IsArgument (tokens : List Token) : Prop := ∃ a : Arg, a.tokens = tokens

/-- The tokens of some arguments, and the parenthesis that closes the list. -/
def IsArguments (tokens : List Token) : Prop :=
  ∃ (as : Args) (right : Leaf .rightParen), tokens = as.tokens ++ [right.token]

/-- Where an argument is missing, a command is one. -/
theorem completable_argument : Completable IsArgument [] :=
  .single .command fun t ht ↦ ⟨.quotedOne (.command ⟨t, ht⟩), rfl⟩

/-- Behind an argument, the list can be closed. -/
theorem Completable.close {before : List Token} (h : Completable IsArgument before) :
    Completable IsArguments before := by
  refine h.snoc .rightParen ?_
  rintro _ t ⟨a, rfl⟩ ht
  exact ⟨.last a, ⟨t, ht⟩, rfl⟩

/-- What stops the readers among fewer than `n` tokens is an obstacle. -/
structure ObstacleBelow (n : ℕ) : Prop where
  sequence : ∀ {stop : Token} {allowed : Bool} {tokens : List Token} {f : Fault},
    tokens.length < n → Numerals tokens → sequence stop allowed tokens = .error f →
    ∃ before ahead, tokens = before ++ ahead ∧ before ≠ [] ∧
      Obstacle (fun stop ↦ sequence stop allowed) (IsSequence allowed) before ahead
  call : ∀ {stop name : Token} {tokens : List Token} {f : Fault}, tokens.length < n →
    Numerals tokens → name.kind = .procedure → call stop name tokens = .error f →
    ∃ before ahead, tokens = before ++ ahead ∧
      Obstacle (fun stop ↦ call stop name) (fun ts ↦ ∃ s : Statement, s.tokens = name :: ts)
        before ahead
  arguments : ∀ {stop : Token} {tokens : List Token} {f : Fault}, tokens.length < n →
    Numerals tokens → arguments stop tokens = .error f →
    ∃ before ahead, tokens = before ++ ahead ∧ Obstacle arguments IsArguments before ahead

namespace ObstacleBelow

variable {n : ℕ}

theorem sequence_succ (h : ObstacleBelow n) {allowed : Bool} (hlen : tokens.length < n + 1)
    (hnumerals : Numerals tokens) (herr : Parse.sequence stop allowed tokens = .error f) :
    ∃ before ahead, tokens = before ++ ahead ∧ before ≠ [] ∧
      Obstacle (fun stop ↦ Parse.sequence stop allowed) (IsSequence allowed) before ahead := by
  rcases sequence_eq_error_iff.1 herr with ⟨t, behind, rfl, ht, hmore⟩ |
    ⟨t, behind, rfl, ht, hcall⟩ | ⟨t, behind, e, after, rfl, ht, hcall, hmore⟩ |
    ⟨t, behind, rfl, rfl, ht, hmore⟩ <;> rw [List.length_cons] at hlen <;>
    replace hnumerals := hnumerals.of_cons
  · obtain ⟨before, ahead, rfl, -, hcompletable, e, hblocks⟩ :=
      h.sequence (by omega) hnumerals hmore
    refine ⟨t :: before, ahead, rfl, by simp, ?_, e, fun stop ahead' hahead ↦ ?_⟩
    · exact hcompletable.imp [t] fun _ hts ↦ hts.statement_cons (.command ⟨t, ht⟩)
    · exact sequence_eq_error_iff.2 (Or.inl ⟨t, _, rfl, ht, hblocks stop ahead' hahead⟩)
  · obtain ⟨before, ahead, rfl, hcompletable, e, hblocks⟩ :=
      h.call (by omega) hnumerals ht hcall
    refine ⟨t :: before, ahead, rfl, by simp, ?_, e, fun stop ahead' hahead ↦ ?_⟩
    · refine hcompletable.imp [t] ?_
      rintro ts ⟨s, hs⟩
      have := (isSequence_nil allowed).statement_cons s
      rwa [hs, List.append_nil] at this
    · exact sequence_eq_error_iff.2 (Or.inr (Or.inl ⟨t, _, rfl, ht, hblocks stop ahead' hahead⟩))
  · have hle := hcall.length_le
    obtain ⟨used, rfl, ⟨s, hs⟩, hreads⟩ := call_rereads ht hcall
    obtain ⟨before, ahead, rfl, -, hcompletable, e', hblocks⟩ :=
      h.sequence (by omega) hnumerals.of_append hmore
    refine ⟨t :: (used ++ before), ahead, by simp, by simp, ?_, e', fun stop ahead' hahead ↦ ?_⟩
    · refine hcompletable.imp (t :: used) fun ts hts ↦ ?_
      rw [← hs]
      exact hts.statement_cons s
    · rw [List.cons_append, List.append_assoc]
      exact sequence_eq_error_iff.2 (Or.inr (Or.inr (Or.inl ⟨t, _, e, _, rfl, ht,
        hreads stop _ (kindAhead_append_congr before hahead), hblocks stop ahead' hahead⟩)))
  · obtain ⟨before, ahead, rfl, -, hcompletable, e, hblocks⟩ :=
      h.sequence (by omega) hnumerals hmore
    refine ⟨t :: before, ahead, rfl, by simp, ?_, e, fun stop ahead' hahead ↦ ?_⟩
    · exact hcompletable.imp [t] fun _ hts ↦ hts.parameter_cons ⟨t, ht⟩
    · exact sequence_eq_error_iff.2 (Or.inr (Or.inr (Or.inr ⟨t, _, rfl, rfl, ht,
        hblocks stop ahead' hahead⟩)))

theorem call_succ (h : ObstacleBelow n) {name : Token} (hlen : tokens.length < n + 1)
    (hnumerals : Numerals tokens) (hname : name.kind = .procedure)
    (herr : Parse.call stop name tokens = .error f) :
    ∃ before ahead, tokens = before ++ ahead ∧
      Obstacle (fun stop ↦ Parse.call stop name) (fun ts ↦ ∃ s : Statement, s.tokens = name :: ts)
        before ahead := by
  obtain ⟨t, behind, rfl, ht, hargs⟩ := call_eq_error_iff.1 herr
  rw [List.length_cons] at hlen
  obtain ⟨before, ahead, rfl, hcompletable, e, hblocks⟩ :=
    h.arguments (by omega) hnumerals.of_cons hargs
  refine ⟨t :: before, ahead, rfl, ?_, e, fun stop ahead' hahead ↦ ?_⟩
  · refine hcompletable.imp [t] ?_
    rintro _ ⟨as, right, rfl⟩
    exact ⟨.applied ⟨name, hname⟩ ⟨t, ht⟩ as right, rfl⟩
  · exact call_eq_error_iff.2 ⟨t, _, rfl, ht, hblocks stop ahead' hahead⟩

theorem argument_succ (h : ObstacleBelow n) (hlen : tokens.length < n + 1)
    (hnumerals : Numerals tokens) (herr : argument stop tokens = .error f) :
    ∃ before ahead, tokens = before ++ ahead ∧ Obstacle argument IsArgument before ahead := by
  rcases argument_eq_error_iff.1 herr with ⟨hform, -⟩ | ⟨hform, hsum⟩ | ⟨hform, hseq⟩
  · refine ⟨[], tokens, rfl, completable_argument, .argument, fun stop ahead' hahead ↦ ?_⟩
    rw [argumentForm?_eq_none_iff, ← hahead, ← argumentForm?_eq_none_iff] at hform
    exact argument_eq_error_iff.2 (Or.inl ⟨hform, rfl⟩)
  · obtain ⟨before, ahead, rfl, hne, hcompletable, e, hblocks⟩ :=
      arithmetic_obstacle hnumerals hform hsum
    refine ⟨before, ahead, rfl, ?_, e, fun stop ahead' hahead ↦ ?_⟩
    · refine hcompletable.imp [] ?_
      rintro _ ⟨e, rfl⟩
      exact e.exists_arg
    · exact argument_eq_error_iff.2 (Or.inr (Or.inl
        ⟨(argumentForm?_append_congr hne hahead).trans hform, hblocks stop ahead' hahead⟩))
  · obtain ⟨before, ahead, rfl, hne, ⟨fill, hfill⟩, e, hblocks⟩ :=
      h.sequence_succ hlen hnumerals hseq
    refine ⟨before, ahead, rfl, ⟨fill, fun ts hts ↦ ?_⟩, e, fun stop ahead' hahead ↦ ?_⟩
    · exact (hfill ts hts).exists_arg (by simp [hne])
    · exact argument_eq_error_iff.2 (Or.inr (Or.inr
        ⟨(argumentForm?_append_congr hne hahead).trans hform, hblocks stop ahead' hahead⟩))

theorem arguments_succ (h : ObstacleBelow n) (hlen : tokens.length < n + 1)
    (hnumerals : Numerals tokens) (herr : Parse.arguments stop tokens = .error f) :
    ∃ before ahead, tokens = before ++ ahead ∧
      Obstacle Parse.arguments IsArguments before ahead := by
  rcases arguments_eq_error_iff.1 herr with harg | ⟨a, rest, hread, hcomma, hright, -⟩ |
    ⟨a, t, behind, hread, ht, hmore⟩
  · obtain ⟨before, ahead, rfl, hcompletable, e, hblocks⟩ := h.argument_succ hlen hnumerals harg
    exact ⟨before, ahead, rfl, hcompletable.close, e, fun stop ahead' hahead ↦
      arguments_eq_error_iff.2 (Or.inl (hblocks stop ahead' hahead))⟩
  · obtain ⟨arg, rfl, hreads⟩ := argument_rereads hread
    refine ⟨arg.tokens, rest, rfl, (Completable.done ⟨arg, rfl⟩).close, .token .rightParen,
      fun stop ahead' hahead ↦ ?_⟩
    exact arguments_eq_error_iff.2 (Or.inr (Or.inl ⟨a, ahead', hreads stop ahead' hahead,
      hahead ▸ hcomma, hahead ▸ hright, rfl⟩))
  · obtain ⟨arg, rfl, hreads⟩ := argument_rereads hread
    rw [List.length_append, List.length_cons] at hlen
    obtain ⟨before, ahead, rfl, hcompletable, e, hblocks⟩ :=
      h.arguments (by omega) hnumerals.of_append.of_cons hmore
    refine ⟨arg.tokens ++ t :: before, ahead, by simp, ?_, e, fun stop ahead' hahead ↦ ?_⟩
    · rw [List.append_cons]
      refine hcompletable.imp (arg.tokens ++ [t]) ?_
      rintro _ ⟨as, right, rfl⟩
      exact ⟨.cons arg ⟨t, ht⟩ as, right, by simp [Args.tokens]⟩
    · rw [List.append_assoc, List.cons_append]
      exact arguments_eq_error_iff.2 (Or.inr (Or.inr ⟨a, t, _, hreads stop _ rfl, ht,
        hblocks stop ahead' hahead⟩))

end ObstacleBelow

theorem obstacleBelow (n : ℕ) : ObstacleBelow n := by
  induction n with
  | zero => exact ⟨fun h ↦ absurd h (by omega), fun h ↦ absurd h (by omega),
      fun h ↦ absurd h (by omega)⟩
  | succ n ih => exact ⟨ih.sequence_succ, ih.call_succ, ih.arguments_succ⟩

/-- **A sequence that cannot be read meets an obstacle.** -/
theorem sequence_obstacle {allowed : Bool} (hnumerals : Numerals tokens)
    (h : sequence stop allowed tokens = .error f) :
    ∃ before ahead, tokens = before ++ ahead ∧ before ≠ [] ∧
      Obstacle (fun stop ↦ sequence stop allowed) (IsSequence allowed) before ahead :=
  (obstacleBelow (tokens.length + 1)).sequence (by omega) hnumerals h

end RobotGolf.Grammar
