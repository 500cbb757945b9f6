import RobotGolf.Proofs.Reading
/-!
# What the readers refuse

The counterpart of the lemmas on success: for each reader of `RobotGolf.Parse` an equivalence
(`…_eq_error_iff`) that lists all the ways to fail. Read from right to left they are the steps by
which a fault is handed on, and from left to right the inversions.

All faults but three say that the token ahead is unexpected. Two of the others are about parameters:
one that is named twice in the head of a definition, and one outside of a definition. The third is
about a number that is no numeral.
-/

namespace RobotGolf.Parse

variable {stop t name : Token} {tokens rest : List Token} {allowed negative : Bool} {span : Span}
  {f : Fault}

/-! ### Sums -/

/-- The kinds of tokens that are terms of a sum. -/
def isAddend : Option TokenKind → Bool
  | some .number | some .parameter => true
  | _ => false

theorem operand?_eq_none_iff : operand? t = none ↔
    isAddend (some t.kind) = false ∨ t.kind = .number ∧ numeral? t.lexeme = none := by
  rw [operand?]
  rcases t.kind <;> simp [isAddend]

theorem misfit_of_number (h : t.kind = .number) : misfit t = ⟨t, .malformedLiteral t.text⟩ := by
  rw [misfit, h]

theorem misfit_of_not_addend (h : isAddend (some t.kind) = false) :
    misfit t = unexpected t [] .operand := by
  rw [misfit]
  rcases hk : t.kind <;> simp [hk, isAddend] at h ⊢

theorem terms_eq_error_iff :
    terms stop negative span tokens = .error f ↔
      (isAddend (kindAhead tokens) = false ∧ f = unexpected stop tokens .operand) ∨
      (∃ t behind, tokens = t :: behind ∧ t.kind = .number ∧ numeral? t.lexeme = none ∧
        f = ⟨t, .malformedLiteral t.text⟩) ∨
      ∃ t o sign after, tokens = t :: sign :: after ∧ operand? t = some o ∧
        (sign.kind = .plus ∨ sign.kind = .minus) ∧
        terms stop (decide (sign.kind = .minus)) (span.extend t.span) after = .error f := by
  constructor
  · intro h
    rcases tokens with - | ⟨t, behind⟩
    · rw [terms, Except.error.injEq] at h
      exact Or.inl ⟨rfl, h.symm⟩
    rcases ht : operand? t with - | o <;> rw [terms, ht] at h
    · rw [Except.error.injEq] at h
      rcases operand?_eq_none_iff.1 ht with hkind | ⟨hkind, hnumeral⟩
      · exact Or.inl ⟨hkind, h.symm.trans (misfit_of_not_addend hkind)⟩
      · exact Or.inr (Or.inl ⟨t, behind, rfl, hkind, hnumeral,
          h.symm.trans (misfit_of_number hkind)⟩)
    rcases behind with - | ⟨sign, after⟩
    · cases h
    by_cases hsign : sign.kind = .plus ∨ sign.kind = .minus
    · simp only [if_pos hsign] at h
      rcases hx : terms stop (decide (sign.kind = .minus)) (span.extend t.span) after with g | r
      · simp only [hx] at h
        cases h
        exact Or.inr (Or.inr ⟨t, o, sign, after, rfl, ht, hsign, hx⟩)
      · simp only [hx, reduceCtorEq] at h
    · simp only [if_neg hsign, reduceCtorEq] at h
  · rintro (⟨hkind, rfl⟩ | ⟨t, behind, rfl, hkind, hnumeral, rfl⟩ |
      ⟨t, o, sign, after, rfl, ht, hsign, hx⟩)
    · rcases tokens with - | ⟨t, behind⟩
      · rw [terms]
      · rw [terms, operand?_eq_none_iff.2 (Or.inl hkind), misfit_of_not_addend hkind]
        rfl
    · rw [terms, operand?_eq_none_iff.2 (Or.inr ⟨hkind, hnumeral⟩), misfit_of_number hkind]
    · rw [terms, ht]
      simp only [if_pos hsign, hx]

theorem arithmetic_eq_error_iff :
    arithmetic stop tokens = .error f ↔
      (tokens = [] ∧ f = unexpected stop [] .operand) ∨
      (∃ t behind, tokens = t :: behind ∧ (t.kind = .plus ∨ t.kind = .minus) ∧
        terms stop (decide (t.kind = .minus)) t.span behind = .error f) ∨
      ∃ t behind, tokens = t :: behind ∧ ¬(t.kind = .plus ∨ t.kind = .minus) ∧
        terms stop false t.span (t :: behind) = .error f := by
  constructor
  · intro h
    rcases tokens with - | ⟨t, behind⟩
    · rw [arithmetic, Except.error.injEq] at h
      exact Or.inl ⟨rfl, h.symm⟩
    rw [arithmetic] at h
    by_cases ht : t.kind = .plus ∨ t.kind = .minus
    · simp only [if_pos ht] at h
      rcases hx : terms stop (decide (t.kind = .minus)) t.span behind with g | r
      · simp only [hx] at h
        cases h
        exact Or.inr (Or.inl ⟨t, behind, rfl, ht, hx⟩)
      · simp only [hx, reduceCtorEq] at h
    · simp only [if_neg ht] at h
      rcases hx : terms stop false t.span (t :: behind) with g | r
      · simp only [hx] at h
        cases h
        exact Or.inr (Or.inr ⟨t, behind, rfl, ht, hx⟩)
      · simp only [hx, reduceCtorEq] at h
  · rintro (⟨rfl, rfl⟩ | ⟨t, behind, rfl, ht, hx⟩ | ⟨t, behind, rfl, ht, hx⟩)
    · rw [arithmetic]
    · rw [arithmetic]
      simp only [if_pos ht, hx]
    · rw [arithmetic]
      simp only [if_neg ht, hx]

/-! ### Sequences, calls and arguments -/

theorem sequence_eq_error_iff :
    sequence stop allowed tokens = .error f ↔
      (∃ t behind, tokens = t :: behind ∧ t.kind = .command ∧
        sequence stop allowed behind = .error f) ∨
      (∃ t behind, tokens = t :: behind ∧ t.kind = .procedure ∧ call stop t behind = .error f) ∨
      (∃ t behind e after, tokens = t :: behind ∧ t.kind = .procedure ∧
        Reads (call stop t behind) e after ∧ sequence stop allowed after = .error f) ∨
      ∃ t behind, tokens = t :: behind ∧ allowed = true ∧ t.kind = .parameter ∧
        sequence stop allowed behind = .error f := by
  constructor
  · intro h
    rcases tokens with - | ⟨t, behind⟩ <;> rw [sequence] at h
    · cases h
    split at h
    · next ht =>
      rcases hx : sequence stop allowed behind with g | r <;> simp only [hx, reduceCtorEq] at h
      cases h
      exact Or.inl ⟨t, behind, rfl, ht, hx⟩
    · next ht =>
      rcases hc : call stop t behind with g | head <;> simp only [hc] at h
      · cases h
        exact Or.inr (Or.inl ⟨t, behind, rfl, ht, hc⟩)
      rcases hx : sequence stop allowed head.rest with g | r <;> simp only [hx, reduceCtorEq] at h
      cases h
      exact Or.inr (Or.inr (Or.inl ⟨t, behind, _, _, rfl, ht, Reads.of_eq_ok hc, hx⟩))
    · next ht =>
      by_cases ha : allowed = true
      · simp only [if_pos ha] at h
        rcases hx : sequence stop allowed behind with g | r <;> simp only [hx, reduceCtorEq] at h
        cases h
        exact Or.inr (Or.inr (Or.inr ⟨t, behind, rfl, ha, ht, hx⟩))
      · simp only [if_neg ha, reduceCtorEq] at h
    · cases h
  · rintro (⟨t, behind, rfl, ht, hx⟩ | ⟨t, behind, rfl, ht, hx⟩ |
      ⟨t, behind, e, after, rfl, ht, ⟨hle, hc⟩, hx⟩ | ⟨t, behind, rfl, rfl, ht, hx⟩)
    · rw [sequence]
      simp only [ht, hx]
    · rw [sequence]
      simp only [ht, hx]
    · rw [sequence]
      simp only [ht, hc, hx]
    · rw [sequence]
      simp only [ht, if_true, hx]

theorem call_eq_error_iff :
    call stop name tokens = .error f ↔
      ∃ t behind, tokens = t :: behind ∧ t.kind = .leftParen ∧
        arguments stop behind = .error f := by
  constructor
  · intro h
    rcases tokens with - | ⟨t, behind⟩ <;> rw [call] at h
    · cases h
    by_cases ht : t.kind = .leftParen
    · simp only [if_pos ht] at h
      rcases hx : arguments stop behind with g | r <;> simp only [hx, reduceCtorEq] at h
      cases h
      exact ⟨t, behind, rfl, ht, hx⟩
    · simp only [if_neg ht, reduceCtorEq] at h
  · rintro ⟨t, behind, rfl, ht, hx⟩
    rw [call, if_pos ht]
    simp only [hx]

theorem arguments_eq_error_iff :
    arguments stop tokens = .error f ↔
      argument stop tokens = .error f ∨
      (∃ a rest, Reads (argument stop tokens) a rest ∧ kindAhead rest ≠ some .comma ∧
        kindAhead rest ≠ some .rightParen ∧ f = unexpected stop rest (.token .rightParen)) ∨
      ∃ a t behind, Reads (argument stop tokens) a (t :: behind) ∧ t.kind = .comma ∧
        arguments stop behind = .error f := by
  constructor
  · intro h
    rcases ha : argument stop tokens with g | ⟨a, - | ⟨t, behind⟩, hle⟩ <;> rw [arguments, ha] at h
    · cases h
      exact Or.inl rfl
    · simp only [Except.error.injEq] at h
      exact Or.inr (Or.inl ⟨a, [], ⟨hle, rfl⟩, by simp [kindAhead], by simp [kindAhead], h.symm⟩)
    by_cases hcomma : t.kind = .comma
    · simp only [if_pos hcomma] at h
      rcases hx : arguments stop behind with g | r <;> simp only [hx, reduceCtorEq] at h
      cases h
      exact Or.inr (Or.inr ⟨a, t, behind, ⟨hle, rfl⟩, hcomma, hx⟩)
    by_cases hright : t.kind = .rightParen
    · simp only [if_neg hcomma, if_pos hright, reduceCtorEq] at h
    · simp only [if_neg hcomma, if_neg hright, Except.error.injEq] at h
      exact Or.inr (Or.inl ⟨a, t :: behind, ⟨hle, rfl⟩, by simpa [kindAhead] using hcomma,
        by simpa [kindAhead] using hright, h.symm⟩)
  · rintro (ha | ⟨a, rest, ⟨hle, ha⟩, hcomma, hright, rfl⟩ | ⟨a, t, behind, ⟨hle, ha⟩, ht, hx⟩)
    · rw [arguments, ha]
    · rw [arguments, ha]
      rcases rest with - | ⟨t, behind⟩
      · rfl
      · have hcomma : t.kind ≠ .comma := by simpa [kindAhead] using hcomma
        have hright : t.kind ≠ .rightParen := by simpa [kindAhead] using hright
        simp only [if_neg hcomma, if_neg hright]
    · rw [arguments, ha]
      simp only [if_pos ht, hx]

theorem argument_eq_error_iff :
    argument stop tokens = .error f ↔
      (argumentForm? tokens = none ∧ f = unexpected stop tokens .argument) ∨
      (argumentForm? tokens = some .sum ∧ arithmetic stop tokens = .error f) ∨
      (argumentForm? tokens = some .sequence ∧ sequence stop true tokens = .error f) := by
  constructor
  · intro h
    rcases hform : argumentForm? tokens with - | - | - | - <;> rw [argument.eq_def, hform] at h
    · simp only [Except.error.injEq] at h
      exact Or.inl ⟨rfl, h.symm⟩
    · rcases hx : arithmetic stop tokens with g | r <;> simp only [hx, reduceCtorEq] at h
      cases h
      exact Or.inr (Or.inl ⟨rfl, rfl⟩)
    · rcases tokens with - | ⟨t, behind⟩
      · cases hform
      · simp only [reduceCtorEq] at h
    · rcases hx : sequence stop true tokens with g | r <;> simp only [hx, reduceCtorEq] at h
      cases h
      exact Or.inr (Or.inr ⟨rfl, rfl⟩)
  · rintro (⟨hform, rfl⟩ | ⟨hform, hx⟩ | ⟨hform, hx⟩)
    · rw [argument.eq_def, hform]
    · rw [argument.eq_def, hform]
      simp only [hx]
    · rw [argument.eq_def, hform]
      simp only [hx]

/-! ### Definitions -/

theorem parameters_eq_error_iff {procedure : String} {before : List String} :
    parameters stop procedure before tokens = .error f ↔
      (kindAhead tokens ≠ some .parameter ∧ f = unexpected stop tokens (.token .parameter)) ∨
      (∃ t behind, tokens = t :: behind ∧ t.kind = .parameter ∧ t.text ∈ before ∧
        f = ⟨t, .duplicateParameter t.text procedure⟩) ∨
      (∃ t behind, tokens = t :: behind ∧ t.kind = .parameter ∧ t.text ∉ before ∧
        kindAhead behind ≠ some .comma ∧ kindAhead behind ≠ some .rightParen ∧
        f = unexpected stop behind (.token .rightParen)) ∨
      ∃ t comma behind, tokens = t :: comma :: behind ∧ t.kind = .parameter ∧ t.text ∉ before ∧
        comma.kind = .comma ∧
        parameters stop procedure (before ++ [t.text]) behind = .error f := by
  constructor
  · intro h
    rcases tokens with - | ⟨t, behind⟩ <;> rw [parameters.eq_def] at h
    · simp only [Except.error.injEq] at h
      exact Or.inl ⟨by simp [kindAhead], h.symm⟩
    by_cases ht : ¬t.kind = .parameter
    · simp only [if_neg ht, Except.error.injEq] at h
      exact Or.inl ⟨by simpa [kindAhead] using ht, h.symm⟩
    rw [Decidable.not_not] at ht
    by_cases hnew : t.text ∈ before
    · simp only [if_pos ht, if_pos hnew, Except.error.injEq] at h
      exact Or.inr (Or.inl ⟨t, behind, rfl, ht, hnew, h.symm⟩)
    simp only [if_pos ht, if_neg hnew] at h
    rcases behind with - | ⟨next, behind⟩
    · simp only [Except.error.injEq] at h
      exact Or.inr (Or.inr (Or.inl ⟨t, [], rfl, ht, hnew, by simp [kindAhead], by simp [kindAhead],
        h.symm⟩))
    by_cases hcomma : next.kind = .comma
    · simp only [if_pos hcomma] at h
      rcases hx : parameters stop procedure (before ++ [t.text]) behind with g | r <;>
        simp only [hx, reduceCtorEq] at h
      cases h
      exact Or.inr (Or.inr (Or.inr ⟨t, next, behind, rfl, ht, hnew, hcomma, hx⟩))
    by_cases hright : next.kind = .rightParen
    · simp only [if_neg hcomma, if_pos hright, reduceCtorEq] at h
    · simp only [if_neg hcomma, if_neg hright, Except.error.injEq] at h
      exact Or.inr (Or.inr (Or.inl ⟨t, next :: behind, rfl, ht, hnew,
        by simpa [kindAhead] using hcomma, by simpa [kindAhead] using hright, h.symm⟩))
  · rintro (⟨ht, rfl⟩ | ⟨t, behind, rfl, ht, hnew, rfl⟩ |
      ⟨t, behind, rfl, ht, hnew, hcomma, hright, rfl⟩ |
      ⟨t, comma, behind, rfl, ht, hnew, hcomma, hx⟩)
    · rcases tokens with - | ⟨t, behind⟩
      · rw [parameters]
      · have ht : t.kind ≠ .parameter := by simpa [kindAhead] using ht
        rw [parameters.eq_def]
        simp only [if_neg ht]
    · rw [parameters.eq_def]
      simp only [if_pos ht, if_pos hnew]
    · rw [parameters.eq_def]
      simp only [if_pos ht, if_neg hnew]
      rcases behind with - | ⟨next, behind⟩
      · rfl
      · have hcomma : next.kind ≠ .comma := by simpa [kindAhead] using hcomma
        have hright : next.kind ≠ .rightParen := by simpa [kindAhead] using hright
        simp only [if_neg hcomma, if_neg hright]
    · rw [parameters.eq_def]
      simp only [if_pos ht, if_neg hnew, if_pos hcomma, hx]

theorem parameterList_eq_error_iff {procedure : String} :
    parameterList stop procedure tokens = .error f ↔
      ∃ t behind, tokens = t :: behind ∧ t.kind = .leftParen ∧
        parameters stop procedure [] behind = .error f := by
  constructor
  · intro h
    rcases tokens with - | ⟨t, behind⟩ <;> rw [parameterList] at h
    · cases h
    by_cases ht : t.kind = .leftParen
    · simp only [if_pos ht] at h
      rcases hx : parameters stop procedure [] behind with g | r <;>
        simp only [hx, reduceCtorEq] at h
      cases h
      exact ⟨t, behind, rfl, ht, hx⟩
    · simp only [if_neg ht, reduceCtorEq] at h
  · rintro ⟨t, behind, rfl, ht, hx⟩
    rw [parameterList, if_pos ht]
    simp only [hx]

theorem expect_eq_error_iff {kind : TokenKind} :
    expect stop kind tokens = .error f ↔
      kindAhead tokens ≠ some kind ∧ f = unexpected stop tokens (.token kind) := by
  rcases tokens with - | ⟨t, behind⟩ <;> rw [expect]
  · simp [kindAhead, eq_comm]
  · by_cases ht : t.kind = kind
    · simp [ht, kindAhead]
    · rw [if_neg ht, Except.error.injEq]
      exact ⟨fun h ↦ ⟨by simpa [kindAhead] using ht, h.symm⟩, fun h ↦ h.2.symm⟩

theorem definition_eq_error_iff :
    definition stop name tokens = .error f ↔
      parameterList stop name.text tokens = .error f ∨
      (∃ names rest, Reads (parameterList stop name.text tokens) names rest ∧
        kindAhead rest ≠ some .colon ∧ f = unexpected stop rest (.token .colon)) ∨
      ∃ names colon behind, Reads (parameterList stop name.text tokens) names (colon :: behind) ∧
        colon.kind = .colon ∧
        (sequence stop true behind = .error f ∨
          (∃ rest, Reads (sequence stop true behind) [] rest ∧
            f = unexpected stop rest .procedureBody) ∨
          ∃ body rest, Reads (sequence stop true behind) body rest ∧ body ≠ [] ∧
            kindAhead rest ≠ some .newline ∧ f = unexpected stop rest (.token .newline)) := by
  constructor
  · intro h
    rw [definition] at h
    rcases hp : parameterList stop name.text tokens with g | params <;> simp only [hp] at h
    · cases h
      exact Or.inl rfl
    rcases hc : expect stop .colon params.rest with g | colon <;> simp only [hc] at h
    · cases h
      obtain ⟨hkind, rfl⟩ := expect_eq_error_iff.1 hc
      exact Or.inr (Or.inl ⟨_, _, reads_ok_iff.2 ⟨rfl, rfl⟩, hkind, rfl⟩)
    obtain ⟨hrest, hcolon⟩ := expect_iff.1 (Reads.of_eq_ok hc)
    refine Or.inr (Or.inr
      ⟨_, colon.value, colon.rest, reads_ok_iff.2 ⟨rfl, hrest.symm⟩, hcolon, ?_⟩)
    rcases hb : sequence stop true colon.rest with g | body <;> simp only [hb] at h
    · cases h
      exact Or.inl rfl
    rcases hl : body.value.getLast? with - | last <;> simp only [hl] at h
    · cases h
      exact Or.inr (Or.inl ⟨body.rest, reads_ok_iff.2 ⟨(List.getLast?_eq_none_iff.1 hl).symm, rfl⟩,
        rfl⟩)
    rcases hn : expect stop .newline body.rest with g | newline <;>
      simp only [hn, reduceCtorEq] at h
    cases h
    obtain ⟨hkind, rfl⟩ := expect_eq_error_iff.1 hn
    refine Or.inr (Or.inr ⟨body.value, body.rest, reads_ok_iff.2 ⟨rfl, rfl⟩, ?_, hkind, rfl⟩)
    intro hnil
    simp [hnil] at hl
  · rintro (hp | ⟨names, rest, ⟨hle, hp⟩, hkind, rfl⟩ |
      ⟨names, colon, behind, ⟨hle, hp⟩, hcolon, hbody⟩)
    · rw [definition, hp]
    · rw [definition, hp]
      simp only [expect_eq_error_iff.2 ⟨hkind, rfl⟩]
    · obtain ⟨hle', hc⟩ : Reads (expect stop .colon (colon :: behind)) colon behind :=
        expect_iff.2 ⟨rfl, hcolon⟩
      rcases hbody with hx | ⟨rest, ⟨hle'', hx⟩, rfl⟩ | ⟨body, rest, ⟨hle'', hx⟩, hne, hkind, rfl⟩
      · rw [definition, hp]
        simp only [hc, hx]
      · rw [definition, hp]
        simp only [hc, hx, List.getLast?_nil]
      · rw [definition, hp]
        simp only [hc, hx, List.getLast?_eq_some_getLast hne, expect_eq_error_iff.2 ⟨hkind, rfl⟩]

theorem definitions_eq_error_iff :
    definitions stop tokens = .error f ↔
      ∃ name behind, tokens = name :: behind ∧ definitionAhead (name :: behind) = true ∧
        (definition stop name behind = .error f ∨
          ∃ d after, Reads (definition stop name behind) d after ∧
            definitions stop after = .error f) := by
  constructor
  · intro h
    rcases tokens with - | ⟨name, behind⟩ <;> rw [definitions] at h
    · cases h
    by_cases ha : definitionAhead (name :: behind) = true
    · simp only [if_pos ha] at h
      refine ⟨name, behind, rfl, ha, ?_⟩
      rcases hd : definition stop name behind with g | found <;> simp only [hd] at h
      · cases h
        exact Or.inl rfl
      rcases hx : definitions stop found.rest with g | r <;> simp only [hx, reduceCtorEq] at h
      cases h
      exact Or.inr ⟨_, _, reads_ok_iff.2 ⟨rfl, rfl⟩, hx⟩
    · simp only [if_neg ha, reduceCtorEq] at h
  · rintro ⟨name, behind, rfl, ha, hd | ⟨d, after, ⟨hle, hd⟩, hx⟩⟩
    · rw [definitions, if_pos ha]
      simp only [hd]
    · rw [definitions, if_pos ha]
      simp only [hd, hx]

/-! ### The main block and programs -/

theorem noParameter_eq_error_iff :
    noParameter tokens = .error f ↔
      ∃ t behind, tokens = t :: behind ∧ t.kind = .parameter ∧
        f = ⟨t, .parameterOutside t.text⟩ := by
  rcases tokens with - | ⟨t, behind⟩
  · simp [noParameter]
  · by_cases ht : t.kind = .parameter
    · simp [noParameter, ht, eq_comm]
    · simp [noParameter, ht]

theorem mainBlock_eq_error_iff :
    mainBlock stop tokens = .error f ↔
      noParameter tokens = .error f ∨
      noParameter tokens = .ok () ∧
        (sequence stop false tokens = .error f ∨
          (∃ rest, Reads (sequence stop false tokens) [] rest ∧
            f = unexpected stop rest .mainBlock) ∨
          ∃ v rest, Reads (sequence stop false tokens) v rest ∧ v ≠ [] ∧
            (noParameter rest = .error f ∨
              noParameter rest = .ok () ∧ (current stop rest).kind ≠ .finish ∧
                f = unexpected stop rest (.token .finish))) := by
  constructor
  · intro h
    rw [mainBlock] at h
    rcases hno : noParameter tokens with g | u <;> simp only [hno] at h
    · cases h
      exact Or.inl rfl
    refine Or.inr ⟨rfl, ?_⟩
    rcases hx : sequence stop false tokens with g | found <;> simp only [hx] at h
    · cases h
      exact Or.inl rfl
    by_cases hempty : found.value.isEmpty = true
    · simp only [if_pos hempty, Except.error.injEq] at h
      exact Or.inr (Or.inl ⟨found.rest,
        reads_ok_iff.2 ⟨(List.isEmpty_iff.1 hempty).symm, rfl⟩, h.symm⟩)
    rw [if_neg hempty] at h
    refine Or.inr (Or.inr ⟨found.value, found.rest, reads_ok_iff.2 ⟨rfl, rfl⟩,
      fun hnil ↦ hempty (List.isEmpty_iff.2 hnil), ?_⟩)
    rcases hno' : noParameter found.rest with g | u' <;> simp only [hno'] at h
    · cases h
      exact Or.inl rfl
    by_cases hfinish : (current stop found.rest).kind = .finish
    · simp only [if_pos hfinish, reduceCtorEq] at h
    · simp only [if_neg hfinish, Except.error.injEq] at h
      exact Or.inr ⟨rfl, hfinish, h.symm⟩
  · rintro (hno | ⟨hno, hx | ⟨rest, ⟨hle, hx⟩, rfl⟩ | ⟨v, rest, ⟨hle, hx⟩, hne, hend⟩⟩)
    · rw [mainBlock, hno]
    · rw [mainBlock, hno, hx]
    · rw [mainBlock, hno, hx]
      simp
    · have hempty : ¬v.isEmpty = true := fun h ↦ hne (List.isEmpty_iff.1 h)
      rw [mainBlock, hno, hx]
      rcases hend with hno' | ⟨hno', hfinish, rfl⟩
      · simp only [if_neg hempty, hno']
      · simp only [if_neg hempty, hno', if_neg hfinish]

end RobotGolf.Parse

namespace RobotGolf.Program

open Parse

theorem ofScan_eq_error_iff {s : Scan} {f : Fault} :
    ofScan s = .error f ↔
      Parse.definitions s.last s.tokens = .error f ∨
      ∃ ds rest, Reads (Parse.definitions s.last s.tokens) ds rest ∧
        mainBlock s.last rest = .error f := by
  constructor
  · intro h
    rw [ofScan] at h
    rcases hds : Parse.definitions s.last s.tokens with g | found <;> simp only [hds] at h
    · cases h
      exact Or.inl rfl
    rcases hmain : mainBlock s.last found.rest with g | main <;>
      simp only [hmain, reduceCtorEq] at h
    cases h
    exact Or.inr ⟨_, _, reads_ok_iff.2 ⟨rfl, rfl⟩, hmain⟩
  · rintro (hds | ⟨ds, rest, ⟨hle, hds⟩, hmain⟩)
    · rw [ofScan, hds]
    · rw [ofScan, hds]
      simp only [hmain]

end RobotGolf.Program
