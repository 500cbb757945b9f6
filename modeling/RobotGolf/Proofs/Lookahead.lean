import RobotGolf.Proofs.Derivation
/-!
# How far the readers look ahead

Of the tokens that it leaves, a reader that succeeds has seen the first one at most, and of that one
only the kind. So it succeeds again, with the same value, if other tokens follow that begin with one
of the same kind (`Rereads`). There is one such result for each reader below the level of
definitions, and each of them also names what was taken: a sum, a statement, a sequence or an
argument.

A derivation in front of something that cannot go on with it is read back in any case. What is added
here is that a reader never leaves anything that could: it takes all that it can get.
-/

namespace RobotGolf.Grammar

open Parse

variable {α : Type} {stop : Token} {tokens used rest rest' : List Token}

/-- What a reader made of `used` it makes of it again, in front of all tokens that begin with one
of the same kind as `rest`. -/
def Rereads (run : Token → (tokens : List Token) → Except Fault (Parsed α tokens.length))
    (used : List Token) (v : α) (rest : List Token) : Prop :=
  ∀ stop rest', kindAhead rest' = kindAhead rest → Reads (run stop (used ++ rest')) v rest'

theorem kindAhead_append_congr (used : List Token) (h : kindAhead rest' = kindAhead rest) :
    kindAhead (used ++ rest') = kindAhead (used ++ rest) := by
  rcases used with - | ⟨t, used⟩
  · exact h
  · rfl

/-! ### Sums -/

theorem isSign_of_terms {negative : Bool} {span : Span} {found : List Term × Span}
    (h : Reads (terms stop negative span tokens) found rest) :
    isSign (kindAhead rest) = false := by
  induction hn : tokens.length using Nat.strong_induction_on
    generalizing tokens negative span found with
  | _ n ih =>
    obtain ⟨t, o, behind, rfl, -, hcase⟩ := terms_cases h
    rcases hcase with ⟨-, rfl, hsign⟩ | ⟨sign, after, more, covered, rfl, -, -, hmore⟩
    · exact hsign
    · refine ih after.length ?_ hmore rfl
      simp only [← hn, List.length_cons]
      omega

theorem isSign_of_arithmetic {found : Arithmetic} (h : Reads (arithmetic stop tokens) found rest) :
    isSign (kindAhead rest) = false := by
  obtain ⟨t, behind, more, covered, -, ⟨-, -, hterms⟩ | ⟨-, -, hterms⟩⟩ := arithmetic_cases h
  · exact isSign_of_terms hterms
  · exact isSign_of_terms hterms

theorem arithmetic_rereads {found : Arithmetic} (h : Reads (arithmetic stop tokens) found rest) :
    ∃ e : Sum, tokens = e.tokens ++ rest ∧ Rereads arithmetic e.tokens found rest := by
  obtain ⟨e, rfl, rfl⟩ := exists_of_arithmetic h
  refine ⟨e, rfl, fun stop rest' hrest' ↦ arithmetic_complete e ?_⟩
  rw [hrest']
  exact isSign_of_arithmetic h

/-! ### Statements and sequences -/

/-- The tokens of a sequence, which is made of statements only where parameters are not allowed. -/
def IsSequence : Bool → List Token → Prop
  | true, tokens => ∃ is : Items, tokens = is.tokens
  | false, tokens => ∃ ss : List Statement, tokens = ss.flatMap Statement.tokens

theorem isSequence_nil (allowed : Bool) : IsSequence allowed [] := by
  cases allowed with
  | true => exact ⟨.nil, rfl⟩
  | false => exact ⟨[], rfl⟩

theorem IsSequence.statement_cons {allowed : Bool} (h : IsSequence allowed tokens) (s : Statement) :
    IsSequence allowed (s.tokens ++ tokens) := by
  cases allowed with
  | true =>
    obtain ⟨is, rfl⟩ := h
    exact ⟨.cons (.statement s) is, rfl⟩
  | false =>
    obtain ⟨ss, rfl⟩ := h
    exact ⟨s :: ss, rfl⟩

theorem IsSequence.parameter_cons (h : IsSequence true tokens) (t : Leaf .parameter) :
    IsSequence true (t.token :: tokens) := by
  obtain ⟨is, rfl⟩ := h
  exact ⟨.cons (.parameter t) is, rfl⟩

theorem call_rereads {name : Token} {e : Element} (hname : name.kind = .procedure)
    (h : Reads (call stop name tokens) e rest) :
    ∃ used, tokens = used ++ rest ∧ (∃ s : Statement, s.tokens = name :: used) ∧
      Rereads (fun stop ↦ call stop name) used e rest := by
  rcases call_cases h with ⟨rfl, rfl, hparen⟩ | ⟨left, behind, args, span, rfl, hleft, rfl, hargs⟩
  · exact ⟨[], rfl, ⟨.plain ⟨name, hname⟩, rfl⟩,
      fun stop rest' hrest' ↦ call_plain (hrest' ▸ hparen)⟩
  · obtain ⟨as, right, rfl, rfl, rfl⟩ :=
      (soundBelow stop (behind.length + 1)).arguments (by omega) hargs
    refine ⟨left :: (as.tokens ++ [right.token]), by simp,
      ⟨.applied ⟨name, hname⟩ ⟨left, hleft⟩ as right, rfl⟩, fun stop rest' _ ↦ ?_⟩
    rw [List.cons_append, List.append_assoc]
    exact call_applied hleft (as.reads right.kind_eq)

theorem of_sequence_nil {allowed : Bool} (h : Reads (sequence stop allowed tokens) [] rest) :
    rest = tokens ∧ startsElement allowed (kindAhead tokens) = false := by
  rcases sequence_cases h with ⟨-, hrest, hstop⟩ | ⟨_, _, _, _, _, hv, _⟩ |
    ⟨_, _, _, _, _, _, _, hv, _⟩ | ⟨_, _, _, _, _, _, hv, _⟩
  · exact ⟨hrest, hstop⟩
  all_goals cases hv

theorem sequence_rereads {allowed : Bool} {v : List Element}
    (h : Reads (sequence stop allowed tokens) v rest) :
    ∃ used, tokens = used ++ rest ∧ IsSequence allowed used ∧ (v = [] ↔ used = []) ∧
      Rereads (fun stop ↦ sequence stop allowed) used v rest := by
  induction v generalizing tokens with
  | nil =>
    obtain ⟨rfl, hstop⟩ := of_sequence_nil h
    refine ⟨[], rfl, isSequence_nil allowed, by simp, fun stop rest' hrest' ↦ sequence_nil ?_⟩
    rw [List.nil_append, hrest', hstop]
  | cons e v ih =>
    rcases sequence_cases h with ⟨hv, -⟩ | ⟨t, behind, v', rfl, ht, hv, hmore⟩ |
      ⟨t, behind, e', after, v', rfl, ht, hv, hcall, hmore⟩ |
      ⟨t, behind, v', rfl, rfl, ht, hv, hmore⟩
    · cases hv
    · obtain ⟨rfl, rfl⟩ := List.cons.inj hv
      obtain ⟨used, rfl, hused, -, hreads⟩ := ih hmore
      exact ⟨t :: used, rfl, hused.statement_cons (.command ⟨t, ht⟩), by simp,
        fun stop rest' hrest' ↦ sequence_command ht (hreads stop rest' hrest')⟩
    · obtain ⟨rfl, rfl⟩ := List.cons.inj hv
      obtain ⟨used, rfl, hused, -, hreads⟩ := ih hmore
      obtain ⟨called, rfl, ⟨s, hs⟩, hcalls⟩ := call_rereads ht hcall
      refine ⟨t :: (called ++ used), by simp, ?_, by simp, fun stop rest' hrest' ↦ ?_⟩
      · have := hused.statement_cons s
        rwa [hs] at this
      · rw [List.cons_append, List.append_assoc]
        exact sequence_procedure ht (hcalls stop _ (kindAhead_append_congr used hrest'))
          (hreads stop rest' hrest')
    · obtain ⟨rfl, rfl⟩ := List.cons.inj hv
      obtain ⟨used, rfl, hused, -, hreads⟩ := ih hmore
      exact ⟨t :: used, rfl, hused.parameter_cons ⟨t, ht⟩, by simp,
        fun stop rest' hrest' ↦ sequence_parameter ht (hreads stop rest' hrest')⟩

/-! ### Arguments -/

/-- Every sum is an argument, a lone parameter as a reference. -/
theorem Sum.exists_arg (e : Sum) : ∃ a : Arg, a.tokens = e.tokens := by
  rcases hlone : e.isLoneParameter with - | -
  · exact ⟨.sum e hlone, rfl⟩
  · obtain ⟨t, rfl⟩ := Sum.exists_of_isLoneParameter hlone
    exact ⟨.reference t, rfl⟩

/-- Every sequence but the empty one is an argument. -/
theorem IsSequence.exists_arg (h : IsSequence true tokens) (hne : tokens ≠ []) :
    ∃ a : Arg, a.tokens = tokens := by
  obtain ⟨is, rfl⟩ := h
  rcases is with - | ⟨s | t, - | ⟨j, others⟩⟩
  · exact absurd rfl hne
  · exact ⟨.quotedOne s, by simp [Items.tokens, Item.tokens, Arg.tokens]⟩
  · exact ⟨.quotedMany (.statement s) j others, rfl⟩
  · exact ⟨.reference t, by simp [Items.tokens, Item.tokens, Arg.tokens]⟩
  · exact ⟨.quotedMany (.parameter t) j others, rfl⟩

/-- Two kinds tell the form of an argument. -/
theorem argumentForm?_append_congr (hused : used ≠ []) (h : kindAhead rest' = kindAhead rest) :
    argumentForm? (used ++ rest') = argumentForm? (used ++ rest) := by
  rcases used with - | ⟨t, used⟩
  · exact absurd rfl hused
  · rw [List.cons_append, List.cons_append, argumentForm?, argumentForm?,
      kindAhead_append_congr used h]

/-- A sequence that is told from its first two tokens has a first element. -/
theorem startsElement_of_argumentForm? (h : argumentForm? tokens = some .sequence) :
    startsElement true (kindAhead tokens) = true := by
  rcases tokens with - | ⟨t, behind⟩
  · cases h
  · rcases hk : t.kind <;> simp [argumentForm?, hk] at h <;> simp [kindAhead, startsElement, hk]

theorem Sum.tokens_ne_nil (e : Sum) : e.tokens ≠ [] := by
  simp [Sum.tokens]

theorem argument_rereads {a : Argument} (h : Reads (argument stop tokens) a rest) :
    ∃ arg : Arg, tokens = arg.tokens ++ rest ∧ Rereads argument arg.tokens a rest := by
  rcases argument_cases h with ⟨sum, hform, rfl, hsum⟩ | ⟨t, hform, rfl, rfl⟩ |
    ⟨v, hform, rfl, hseq⟩
  · obtain ⟨e, rfl, hreads⟩ := arithmetic_rereads hsum
    obtain ⟨arg, harg⟩ := e.exists_arg
    refine ⟨arg, by rw [harg], ?_⟩
    rw [harg]
    intro stop rest' hrest'
    exact argument_sum ((argumentForm?_append_congr e.tokens_ne_nil hrest').trans hform)
      (hreads stop rest' hrest')
  · have ht : t.kind = .parameter := by
      rcases hk : t.kind <;> simp [argumentForm?, hk] at hform ⊢
    refine ⟨.reference ⟨t, ht⟩, rfl, fun stop rest' hrest' ↦ argument_reference ?_⟩
    exact (argumentForm?_append_congr (List.cons_ne_nil t []) hrest').trans hform
  · obtain ⟨used, rfl, hused, hnil, hreads⟩ := sequence_rereads hseq
    have hne : used ≠ [] := by
      rintro rfl
      obtain rfl := hnil.2 rfl
      have hstop := (of_sequence_nil hseq).2
      rw [startsElement_of_argumentForm? hform] at hstop
      cases hstop
    obtain ⟨arg, rfl⟩ := hused.exists_arg hne
    refine ⟨arg, rfl, fun stop rest' hrest' ↦ argument_sequence ?_ (hreads stop rest' hrest')⟩
    exact (argumentForm?_append_congr hne hrest').trans hform

end RobotGolf.Grammar
