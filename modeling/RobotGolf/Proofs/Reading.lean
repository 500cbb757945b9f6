import RobotGolf.Program.Parse
/-!
# What the readers accept

One group of lemmas for each reader of `RobotGolf.Parse`: the ways to succeed, and an inversion
(`…_cases`) which says that there are no others. Success is `Reads x v rest`: the reader returned
`v` and left the tokens `rest`. The bound that a result carries along is of no interest here, and
`Reads` hides it.

The readers that call each other are not taken apart anywhere else. What is said about them later
goes by induction over a derivation, with the ways to succeed, or over the number of tokens, with
the inversions.
-/

namespace RobotGolf.Parse

/-- A reader succeeded with a value and left some tokens. -/
def Reads {α : Type} {n : Nat} (x : Except Fault (Parsed α n)) (v : α) (rest : List Token) : Prop :=
  ∃ h, x = .ok ⟨v, rest, h⟩

variable {α : Type} {n : Nat} {x : Except Fault (Parsed α n)}
variable {stop t name : Token} {tokens rest : List Token} {allowed negative : Bool} {span : Span}

theorem Reads.length_le {v : α} (h : Reads x v rest) : rest.length ≤ n := h.1

theorem reads_ok_iff {r : Parsed α n} {v : α} :
    Reads (.ok r) v rest ↔ v = r.value ∧ rest = r.rest := by
  obtain ⟨value, left, hle⟩ := r
  constructor
  · rintro ⟨h, heq⟩
    simp only [Except.ok.injEq, Parsed.mk.injEq] at heq
    exact ⟨heq.1.symm, heq.2.symm⟩
  · rintro ⟨rfl, rfl⟩
    exact ⟨hle, rfl⟩

theorem not_reads_error {f : Fault} {v : α} :
    ¬Reads (.error f : Except Fault (Parsed α n)) v rest := by
  rintro ⟨h, heq⟩
  simp at heq

/-- What was read, put back together. -/
theorem Reads.of_eq_ok {r : Parsed α n} (h : x = .ok r) : Reads x r.value r.rest := by
  rw [h, reads_ok_iff]
  exact ⟨rfl, rfl⟩

/-! ### Sums -/

/-- The kinds of tokens that go on with a sum. -/
def isSign : Option TokenKind → Bool
  | some .plus | some .minus => true
  | _ => false

theorem isSign_eq_false (h : ¬(t.kind = .plus ∨ t.kind = .minus)) (behind : List Token) :
    isSign (kindAhead (t :: behind)) = false := by
  rcases hk : t.kind <;> simp [hk] at h <;> simp [kindAhead, isSign, hk]

theorem terms_last {o : Operand} (ht : operand? t = some o)
    (hrest : isSign (kindAhead rest) = false) :
    Reads (terms stop negative span (t :: rest)) ([⟨negative, o⟩], span.extend t.span) rest := by
  rcases rest with - | ⟨sign, behind⟩
  · rw [terms, ht]
    exact reads_ok_iff.2 ⟨rfl, rfl⟩
  · have hsign : ¬(sign.kind = .plus ∨ sign.kind = .minus) := by
      rintro (h | h) <;> simp [kindAhead, isSign, h] at hrest
    rw [terms, ht]
    simp only [if_neg hsign]
    exact reads_ok_iff.2 ⟨rfl, rfl⟩

theorem terms_cons {o : Operand} {sign : Token} {more : List Term} {covered : Span}
    (ht : operand? t = some o) (hsign : sign.kind = .plus ∨ sign.kind = .minus)
    (h : Reads (terms stop (decide (sign.kind = .minus)) (span.extend t.span) tokens)
      (more, covered) rest) :
    Reads (terms stop negative span (t :: sign :: tokens)) (⟨negative, o⟩ :: more, covered)
      rest := by
  obtain ⟨hle, hx⟩ := h
  rw [terms, ht]
  simp only [if_pos hsign, hx]
  exact reads_ok_iff.2 ⟨rfl, rfl⟩

theorem terms_cases {found : List Term × Span}
    (h : Reads (terms stop negative span tokens) found rest) :
    ∃ t o behind, tokens = t :: behind ∧ operand? t = some o ∧
      ((found = ([⟨negative, o⟩], span.extend t.span) ∧ rest = behind ∧
          isSign (kindAhead behind) = false) ∨
        ∃ sign after more covered, behind = sign :: after ∧
          (sign.kind = .plus ∨ sign.kind = .minus) ∧ found = (⟨negative, o⟩ :: more, covered) ∧
          Reads (terms stop (decide (sign.kind = .minus)) (span.extend t.span) after)
            (more, covered) rest) := by
  rcases tokens with - | ⟨t, behind⟩
  · rw [terms] at h
    exact absurd h not_reads_error
  rcases ht : operand? t with - | o
  · rw [terms, ht] at h
    exact absurd h not_reads_error
  refine ⟨t, o, behind, rfl, ht, ?_⟩
  rcases behind with - | ⟨sign, after⟩
  · rw [terms, ht] at h
    obtain ⟨hfound, hrest⟩ := reads_ok_iff.1 h
    exact Or.inl ⟨hfound, hrest, rfl⟩
  · rw [terms, ht] at h
    by_cases hsign : sign.kind = .plus ∨ sign.kind = .minus
    · simp only [if_pos hsign] at h
      rcases hx : terms stop (decide (sign.kind = .minus)) (span.extend t.span) after with f | r
      · simp only [hx] at h
        exact absurd h not_reads_error
      · simp only [hx] at h
        obtain ⟨rfl, rfl⟩ := reads_ok_iff.1 h
        exact Or.inr ⟨sign, after, _, _, rfl, hsign, rfl, by simpa using Reads.of_eq_ok hx⟩
    · simp only [if_neg hsign] at h
      obtain ⟨hfound, hrest⟩ := reads_ok_iff.1 h
      exact Or.inl ⟨hfound, hrest, isSign_eq_false hsign after⟩

theorem arithmetic_signed {more : List Term} {covered : Span}
    (ht : t.kind = .plus ∨ t.kind = .minus)
    (h : Reads (terms stop (decide (t.kind = .minus)) t.span tokens) (more, covered) rest) :
    Reads (arithmetic stop (t :: tokens)) ⟨true, more, covered⟩ rest := by
  obtain ⟨hle, hx⟩ := h
  rw [arithmetic]
  simp only [if_pos ht, hx]
  exact reads_ok_iff.2 ⟨rfl, rfl⟩

theorem arithmetic_unsigned {more : List Term} {covered : Span}
    (ht : ¬(t.kind = .plus ∨ t.kind = .minus))
    (h : Reads (terms stop false t.span (t :: tokens)) (more, covered) rest) :
    Reads (arithmetic stop (t :: tokens)) ⟨false, more, covered⟩ rest := by
  obtain ⟨hle, hx⟩ := h
  rw [arithmetic]
  simp only [if_neg ht, hx]
  exact reads_ok_iff.2 ⟨rfl, rfl⟩

theorem arithmetic_cases {found : Arithmetic} (h : Reads (arithmetic stop tokens) found rest) :
    ∃ t behind more covered, tokens = t :: behind ∧
      (((t.kind = .plus ∨ t.kind = .minus) ∧ found = ⟨true, more, covered⟩ ∧
          Reads (terms stop (decide (t.kind = .minus)) t.span behind) (more, covered) rest) ∨
        (¬(t.kind = .plus ∨ t.kind = .minus) ∧ found = ⟨false, more, covered⟩ ∧
          Reads (terms stop false t.span tokens) (more, covered) rest)) := by
  rcases tokens with - | ⟨t, behind⟩
  · rw [arithmetic] at h
    exact absurd h not_reads_error
  rw [arithmetic] at h
  by_cases ht : t.kind = .plus ∨ t.kind = .minus
  · simp only [if_pos ht] at h
    rcases hx : terms stop (decide (t.kind = .minus)) t.span behind with f | r
    · simp only [hx] at h
      exact absurd h not_reads_error
    · simp only [hx] at h
      obtain ⟨rfl, rfl⟩ := reads_ok_iff.1 h
      exact ⟨t, behind, _, _, rfl, Or.inl ⟨ht, rfl, by simpa using Reads.of_eq_ok hx⟩⟩
  · simp only [if_neg ht] at h
    rcases hx : terms stop false t.span (t :: behind) with f | r
    · simp only [hx] at h
      exact absurd h not_reads_error
    · simp only [hx] at h
      obtain ⟨rfl, rfl⟩ := reads_ok_iff.1 h
      exact ⟨t, behind, _, _, rfl, Or.inr ⟨ht, rfl, by simpa using Reads.of_eq_ok hx⟩⟩

/-! ### Sequences and calls -/

theorem sequence_command {v : List Element} (ht : t.kind = .command)
    (h : Reads (sequence stop allowed tokens) v rest) :
    Reads (sequence stop allowed (t :: tokens)) (.command (commandOf t) t.span :: v) rest := by
  obtain ⟨hle, hx⟩ := h
  rw [sequence]
  simp only [ht, hx]
  exact reads_ok_iff.2 ⟨rfl, rfl⟩

theorem sequence_procedure {v : List Element} {e : Element} {behind : List Token}
    (ht : t.kind = .procedure) (hcall : Reads (call stop t tokens) e behind)
    (h : Reads (sequence stop allowed behind) v rest) :
    Reads (sequence stop allowed (t :: tokens)) (e :: v) rest := by
  obtain ⟨hle, hx⟩ := h
  obtain ⟨hle', hx'⟩ := hcall
  rw [sequence]
  simp only [ht, hx', hx]
  exact reads_ok_iff.2 ⟨rfl, rfl⟩

theorem sequence_parameter {v : List Element} (ht : t.kind = .parameter)
    (h : Reads (sequence stop true tokens) v rest) :
    Reads (sequence stop true (t :: tokens)) (.parameter t.text t.span :: v) rest := by
  obtain ⟨hle, hx⟩ := h
  rw [sequence]
  simp only [ht, if_true, hx]
  exact reads_ok_iff.2 ⟨rfl, rfl⟩

/-- The kinds of tokens with which a sequence goes on, the argument list of its last call
included. -/
def goesOn : Option TokenKind → Bool
  | some .command | some .procedure | some .parameter | some .leftParen => true
  | _ => false

/-- The kinds of tokens that start an element of a sequence. -/
def startsElement (allowed : Bool) : Option TokenKind → Bool
  | some .command | some .procedure => true
  | some .parameter => allowed
  | _ => false

theorem startsElement_of_goesOn {k : Option TokenKind} (h : goesOn k = false) :
    startsElement allowed k = false := by
  unfold goesOn at h
  split at h <;> simp_all [startsElement]

theorem sequence_nil (h : startsElement allowed (kindAhead rest) = false) :
    Reads (sequence stop allowed rest) [] rest := by
  rcases rest with - | ⟨t, behind⟩
  · rw [sequence]
    exact reads_ok_iff.2 ⟨rfl, rfl⟩
  · rw [sequence]
    by_cases hparameter : t.kind = .parameter
    · obtain rfl : allowed = false := by simpa [kindAhead, startsElement, hparameter] using h
      simp only [hparameter]
      exact reads_ok_iff.2 ⟨rfl, rfl⟩
    · rcases hk : t.kind <;> simp [kindAhead, startsElement, hk] at h hparameter <;>
        exact reads_ok_iff.2 ⟨rfl, rfl⟩

theorem sequence_stop (h : goesOn (kindAhead rest) = false) :
    Reads (sequence stop allowed rest) [] rest :=
  sequence_nil (startsElement_of_goesOn h)

theorem sequence_cases {v : List Element} (h : Reads (sequence stop allowed tokens) v rest) :
    (v = [] ∧ rest = tokens ∧ startsElement allowed (kindAhead tokens) = false) ∨
    (∃ t behind v', tokens = t :: behind ∧ t.kind = .command ∧
      v = .command (commandOf t) t.span :: v' ∧ Reads (sequence stop allowed behind) v' rest) ∨
    (∃ t behind e after v', tokens = t :: behind ∧ t.kind = .procedure ∧ v = e :: v' ∧
      Reads (call stop t behind) e after ∧ Reads (sequence stop allowed after) v' rest) ∨
    (∃ t behind v', tokens = t :: behind ∧ allowed = true ∧ t.kind = .parameter ∧
      v = .parameter t.text t.span :: v' ∧ Reads (sequence stop allowed behind) v' rest) := by
  rcases tokens with - | ⟨t, behind⟩
  · rw [sequence, reads_ok_iff] at h
    exact Or.inl ⟨h.1, h.2, rfl⟩
  rw [sequence] at h
  split at h
  · next ht =>
    rcases hx : sequence stop allowed behind with f | r <;> simp only [hx] at h
    · exact absurd h not_reads_error
    · obtain ⟨rfl, rfl⟩ := reads_ok_iff.1 h
      exact Or.inr (Or.inl ⟨t, behind, _, rfl, ht, rfl, Reads.of_eq_ok hx⟩)
  · next ht =>
    rcases hc : call stop t behind with f | head <;> simp only [hc] at h
    · exact absurd h not_reads_error
    rcases hx : sequence stop allowed head.rest with f | r <;> simp only [hx] at h
    · exact absurd h not_reads_error
    · obtain ⟨rfl, rfl⟩ := reads_ok_iff.1 h
      exact Or.inr (Or.inr (Or.inl ⟨t, behind, _, _, _, rfl, ht, rfl, Reads.of_eq_ok hc,
        Reads.of_eq_ok hx⟩))
  · next ht =>
    by_cases ha : allowed = true
    · simp only [if_pos ha] at h
      rcases hx : sequence stop allowed behind with f | r <;> simp only [hx] at h
      · exact absurd h not_reads_error
      · obtain ⟨rfl, rfl⟩ := reads_ok_iff.1 h
        exact Or.inr (Or.inr (Or.inr ⟨t, behind, _, rfl, ha, ht, rfl, Reads.of_eq_ok hx⟩))
    · simp only [if_neg ha] at h
      obtain ⟨hv, hrest⟩ := reads_ok_iff.1 h
      exact Or.inl ⟨hv, hrest, by simpa [kindAhead, startsElement, ht] using ha⟩
  · next hcommand hprocedure hparameter =>
    obtain ⟨hv, hrest⟩ := reads_ok_iff.1 h
    exact Or.inl ⟨hv, hrest, by rcases hk : t.kind <;> simp_all [kindAhead, startsElement]⟩

theorem call_plain (h : kindAhead rest ≠ some .leftParen) :
    Reads (call stop name rest) (.call name.text [] name.span) rest := by
  rcases rest with - | ⟨t, behind⟩
  · rw [call]
    exact reads_ok_iff.2 ⟨rfl, rfl⟩
  · have ht : t.kind ≠ .leftParen := by simpa [kindAhead] using h
    rw [call, if_neg ht]
    exact reads_ok_iff.2 ⟨rfl, rfl⟩

theorem call_applied {args : List Argument} {right : Span} (ht : t.kind = .leftParen)
    (h : Reads (arguments stop tokens) (args, right) rest) :
    Reads (call stop name (t :: tokens)) (.call name.text args (name.span.extend right)) rest := by
  obtain ⟨hle, hx⟩ := h
  rw [call, if_pos ht]
  simp only [hx]
  exact reads_ok_iff.2 ⟨rfl, rfl⟩

theorem call_cases {e : Element} (h : Reads (call stop name tokens) e rest) :
    (e = .call name.text [] name.span ∧ rest = tokens ∧ kindAhead tokens ≠ some .leftParen) ∨
    ∃ t behind args right, tokens = t :: behind ∧ t.kind = .leftParen ∧
      e = .call name.text args (name.span.extend right) ∧
      Reads (arguments stop behind) (args, right) rest := by
  rcases tokens with - | ⟨t, behind⟩
  · rw [call] at h
    obtain ⟨he, hrest⟩ := reads_ok_iff.1 h
    exact Or.inl ⟨he, hrest, by simp [kindAhead]⟩
  rw [call] at h
  by_cases ht : t.kind = .leftParen
  · simp only [if_pos ht] at h
    rcases hx : arguments stop behind with f | r <;> simp only [hx] at h
    · exact absurd h not_reads_error
    · obtain ⟨rfl, rfl⟩ := reads_ok_iff.1 h
      exact Or.inr ⟨t, behind, _, _, rfl, ht, rfl, Reads.of_eq_ok hx⟩
  · simp only [if_neg ht] at h
    obtain ⟨he, hrest⟩ := reads_ok_iff.1 h
    exact Or.inl ⟨he, hrest, by simpa [kindAhead] using ht⟩

/-! ### Arguments -/

theorem arguments_last {a : Argument} (h : Reads (argument stop tokens) a (t :: rest))
    (ht : t.kind = .rightParen) : Reads (arguments stop tokens) ([a], t.span) rest := by
  obtain ⟨hle, hx⟩ := h
  rw [arguments, hx]
  simp only [ht, if_true, reduceCtorEq, if_false]
  exact reads_ok_iff.2 ⟨rfl, rfl⟩

theorem arguments_cons {a : Argument} {args : List Argument} {right : Span} {behind : List Token}
    (ha : Reads (argument stop tokens) a (t :: behind)) (ht : t.kind = .comma)
    (h : Reads (arguments stop behind) (args, right) rest) :
    Reads (arguments stop tokens) (a :: args, right) rest := by
  obtain ⟨hle, hx⟩ := h
  obtain ⟨hle', hx'⟩ := ha
  rw [arguments, hx']
  simp only [ht, if_true, hx]
  exact reads_ok_iff.2 ⟨rfl, rfl⟩

theorem arguments_cases {found : List Argument × Span}
    (h : Reads (arguments stop tokens) found rest) :
    ∃ a t behind, Reads (argument stop tokens) a (t :: behind) ∧
      ((t.kind = .rightParen ∧ found = ([a], t.span) ∧ rest = behind) ∨
        ∃ args right, t.kind = .comma ∧ found = (a :: args, right) ∧
          Reads (arguments stop behind) (args, right) rest) := by
  rcases ha : argument stop tokens with f | ⟨a, - | ⟨t, behind⟩, hle⟩ <;>
    rw [arguments, ha] at h
  · exact absurd h not_reads_error
  · exact absurd h not_reads_error
  refine ⟨a, t, behind, ⟨hle, rfl⟩, ?_⟩
  by_cases hcomma : t.kind = .comma
  · simp only [if_pos hcomma] at h
    rcases hx : arguments stop behind with f | r <;> simp only [hx] at h
    · exact absurd h not_reads_error
    · obtain ⟨rfl, rfl⟩ := reads_ok_iff.1 h
      exact Or.inr ⟨_, _, hcomma, rfl, reads_ok_iff.2 ⟨rfl, rfl⟩⟩
  by_cases hright : t.kind = .rightParen
  · simp only [if_neg hcomma, if_pos hright] at h
    obtain ⟨rfl, rfl⟩ := reads_ok_iff.1 h
    exact Or.inl ⟨hright, rfl, rfl⟩
  · simp only [if_neg hcomma, if_neg hright] at h
    exact absurd h not_reads_error

theorem argument_sum {a : Arithmetic} (hform : argumentForm? tokens = some .sum)
    (h : Reads (arithmetic stop tokens) a rest) :
    Reads (argument stop tokens) (.arithmetic a) rest := by
  obtain ⟨hle, hx⟩ := h
  rw [argument.eq_def, hform]
  simp only [hx]
  exact reads_ok_iff.2 ⟨rfl, rfl⟩

theorem argument_reference (hform : argumentForm? (t :: rest) = some .reference) :
    Reads (argument stop (t :: rest)) (.parameter t.text t.span) rest := by
  rw [argument.eq_def, hform]
  exact reads_ok_iff.2 ⟨rfl, rfl⟩

theorem argument_sequence {v : List Element} (hform : argumentForm? tokens = some .sequence)
    (h : Reads (sequence stop true tokens) v rest) :
    Reads (argument stop tokens) (.quoted v (Element.cover v)) rest := by
  obtain ⟨hle, hx⟩ := h
  rw [argument.eq_def, hform]
  simp only [hx]
  exact reads_ok_iff.2 ⟨rfl, rfl⟩

theorem argument_cases {a : Argument} (h : Reads (argument stop tokens) a rest) :
    (∃ sum, argumentForm? tokens = some .sum ∧ a = .arithmetic sum ∧
      Reads (arithmetic stop tokens) sum rest) ∨
    (∃ t, argumentForm? tokens = some .reference ∧ tokens = t :: rest ∧
      a = .parameter t.text t.span) ∨
    (∃ v, argumentForm? tokens = some .sequence ∧ a = .quoted v (Element.cover v) ∧
      Reads (sequence stop true tokens) v rest) := by
  rcases hform : argumentForm? tokens with - | - | - | - <;> rw [argument.eq_def, hform] at h
  · exact absurd h not_reads_error
  · rcases hx : arithmetic stop tokens with f | r <;> simp only [hx] at h
    · exact absurd h not_reads_error
    · obtain ⟨rfl, rfl⟩ := reads_ok_iff.1 h
      exact Or.inl ⟨_, rfl, rfl, reads_ok_iff.2 ⟨rfl, rfl⟩⟩
  · rcases tokens with - | ⟨t, behind⟩
    · exact absurd h not_reads_error
    · obtain ⟨rfl, rfl⟩ := reads_ok_iff.1 h
      exact Or.inr (Or.inl ⟨t, rfl, rfl, rfl⟩)
  · rcases hx : sequence stop true tokens with f | r <;> simp only [hx] at h
    · exact absurd h not_reads_error
    · obtain ⟨rfl, rfl⟩ := reads_ok_iff.1 h
      exact Or.inr (Or.inr ⟨_, rfl, rfl, reads_ok_iff.2 ⟨rfl, rfl⟩⟩)

/-! ### Definitions -/

theorem parameters_last {procedure : String} {before : List String} {next : Token}
    (ht : t.kind = .parameter) (hnew : t.text ∉ before) (hnext : next.kind = .rightParen) :
    Reads (parameters stop procedure before (t :: next :: rest)) (before ++ [t.text]) rest := by
  rw [parameters]
  simp only [ht, if_true, if_neg hnew, hnext, reduceCtorEq, if_false]
  exact reads_ok_iff.2 ⟨rfl, rfl⟩

theorem parameters_cons {procedure : String} {before names : List String} {next : Token}
    (ht : t.kind = .parameter) (hnew : t.text ∉ before) (hnext : next.kind = .comma)
    (h : Reads (parameters stop procedure (before ++ [t.text]) tokens) names rest) :
    Reads (parameters stop procedure before (t :: next :: tokens)) names rest := by
  obtain ⟨hle, hx⟩ := h
  rw [parameters]
  simp only [ht, if_true, if_neg hnew, hnext, hx]
  exact reads_ok_iff.2 ⟨rfl, rfl⟩

theorem parameters_cases {procedure : String} {before names : List String}
    (h : Reads (parameters stop procedure before tokens) names rest) :
    ∃ t next behind, tokens = t :: next :: behind ∧ t.kind = .parameter ∧ t.text ∉ before ∧
      ((next.kind = .rightParen ∧ names = before ++ [t.text] ∧ rest = behind) ∨
        (next.kind = .comma ∧
          Reads (parameters stop procedure (before ++ [t.text]) behind) names rest)) := by
  rcases tokens with - | ⟨t, - | ⟨next, behind⟩⟩
  · rw [parameters] at h
    exact absurd h not_reads_error
  · rw [parameters] at h
    split at h
    · split at h <;> exact absurd h not_reads_error
    · exact absurd h not_reads_error
  rw [parameters] at h
  by_cases ht : ¬t.kind = .parameter
  · simp only [if_neg ht] at h
    exact absurd h not_reads_error
  rw [Decidable.not_not] at ht
  by_cases hnew : t.text ∈ before
  · simp only [if_pos ht, if_pos hnew] at h
    exact absurd h not_reads_error
  refine ⟨t, next, behind, rfl, ht, hnew, ?_⟩
  by_cases hcomma : next.kind = .comma
  · simp only [if_pos ht, if_neg hnew, if_pos hcomma] at h
    rcases hx : parameters stop procedure (before ++ [t.text]) behind with f | r <;>
      simp only [hx] at h
    · exact absurd h not_reads_error
    · obtain ⟨rfl, rfl⟩ := reads_ok_iff.1 h
      exact Or.inr ⟨hcomma, reads_ok_iff.2 ⟨rfl, rfl⟩⟩
  by_cases hright : next.kind = .rightParen
  · simp only [if_pos ht, if_neg hnew, if_neg hcomma, if_pos hright] at h
    exact Or.inl ⟨hright, reads_ok_iff.1 h⟩
  · simp only [if_pos ht, if_neg hnew, if_neg hcomma, if_neg hright] at h
    exact absurd h not_reads_error

theorem parameterList_none {procedure : String} (h : kindAhead rest ≠ some .leftParen) :
    Reads (parameterList stop procedure rest) [] rest := by
  rcases rest with - | ⟨t, behind⟩
  · exact reads_ok_iff.2 ⟨rfl, rfl⟩
  · have ht : t.kind ≠ .leftParen := by simpa [kindAhead] using h
    rw [parameterList, if_neg ht]
    exact reads_ok_iff.2 ⟨rfl, rfl⟩

theorem parameterList_some {procedure : String} {names : List String} (ht : t.kind = .leftParen)
    (h : Reads (parameters stop procedure [] tokens) names rest) :
    Reads (parameterList stop procedure (t :: tokens)) names rest := by
  obtain ⟨hle, hx⟩ := h
  rw [parameterList, if_pos ht]
  simp only [hx]
  exact reads_ok_iff.2 ⟨rfl, rfl⟩

theorem parameterList_cases {procedure : String} {names : List String}
    (h : Reads (parameterList stop procedure tokens) names rest) :
    (names = [] ∧ rest = tokens ∧ kindAhead tokens ≠ some .leftParen) ∨
    ∃ t behind, tokens = t :: behind ∧ t.kind = .leftParen ∧
      Reads (parameters stop procedure [] behind) names rest := by
  rcases tokens with - | ⟨t, behind⟩
  · obtain ⟨hnames, hrest⟩ := reads_ok_iff.1 h
    exact Or.inl ⟨hnames, hrest, by simp [kindAhead]⟩
  rw [parameterList] at h
  by_cases ht : t.kind = .leftParen
  · simp only [if_pos ht] at h
    rcases hx : parameters stop procedure [] behind with f | r <;> simp only [hx] at h
    · exact absurd h not_reads_error
    · obtain ⟨rfl, rfl⟩ := reads_ok_iff.1 h
      exact Or.inr ⟨t, behind, rfl, ht, Reads.of_eq_ok hx⟩
  · simp only [if_neg ht] at h
    obtain ⟨hnames, hrest⟩ := reads_ok_iff.1 h
    exact Or.inl ⟨hnames, hrest, by simpa [kindAhead] using ht⟩

theorem expect_iff {kind : TokenKind} {found : Token} :
    Reads (expect stop kind tokens) found rest ↔ tokens = found :: rest ∧ found.kind = kind := by
  rcases tokens with - | ⟨t, behind⟩
  · simp only [expect, not_reads_error, reduceCtorEq, false_and]
  rw [expect]
  by_cases ht : t.kind = kind
  · rw [if_pos ht, reads_ok_iff]
    constructor
    · rintro ⟨rfl, rfl⟩
      exact ⟨rfl, ht⟩
    · rintro ⟨heq, -⟩
      simp only [List.cons.injEq] at heq
      exact ⟨heq.1.symm, heq.2.symm⟩
  · rw [if_neg ht]
    refine iff_of_false not_reads_error ?_
    rintro ⟨heq, hk⟩
    simp only [List.cons.injEq] at heq
    exact ht (heq.1 ▸ hk)

theorem definition_intro {names : List String} {body : List Element} {last : Element}
    {colon newline : Token} {behind after : List Token}
    (hparams : Reads (parameterList stop name.text tokens) names (colon :: behind))
    (hcolon : colon.kind = .colon)
    (hbody : Reads (sequence stop true behind) body (newline :: after))
    (hlast : body.getLast? = some last) (hnewline : newline.kind = .newline) :
    Reads (definition stop name tokens) ⟨name.text, names, body, name.span.extend last.span⟩
      after := by
  obtain ⟨hle, hx⟩ := hparams
  obtain ⟨hle', hx'⟩ := hbody
  obtain ⟨hle₁, hcolon'⟩ : Reads (expect stop .colon (colon :: behind)) colon behind :=
    expect_iff.2 ⟨rfl, hcolon⟩
  obtain ⟨hle₂, hnewline'⟩ : Reads (expect stop .newline (newline :: after)) newline after :=
    expect_iff.2 ⟨rfl, hnewline⟩
  rw [definition]
  simp only [hx, hcolon', hx', hlast, hnewline']
  exact reads_ok_iff.2 ⟨rfl, rfl⟩

theorem definition_cases {d : Definition} (h : Reads (definition stop name tokens) d rest) :
    ∃ names body last colon newline behind,
      Reads (parameterList stop name.text tokens) names (colon :: behind) ∧ colon.kind = .colon ∧
      Reads (sequence stop true behind) body (newline :: rest) ∧ body.getLast? = some last ∧
      newline.kind = .newline ∧
      d = ⟨name.text, names, body, name.span.extend last.span⟩ := by
  rw [definition] at h
  rcases hp : parameterList stop name.text tokens with f | params <;> simp only [hp] at h
  · exact absurd h not_reads_error
  rcases hc : expect stop .colon params.rest with f | colon <;> simp only [hc] at h
  · exact absurd h not_reads_error
  rcases hb : sequence stop true colon.rest with f | body <;> simp only [hb] at h
  · exact absurd h not_reads_error
  rcases hl : body.value.getLast? with - | last <;> simp only [hl] at h
  · exact absurd h not_reads_error
  rcases hn : expect stop .newline body.rest with f | newline <;> simp only [hn] at h
  · exact absurd h not_reads_error
  obtain ⟨rfl, rfl⟩ := reads_ok_iff.1 h
  obtain ⟨hcolon, hcolonKind⟩ := expect_iff.1 (Reads.of_eq_ok hc)
  obtain ⟨hnewline, hnewlineKind⟩ := expect_iff.1 (Reads.of_eq_ok hn)
  refine ⟨_, _, last, _, _, colon.rest, ?_, hcolonKind, ?_, hl, hnewlineKind, rfl⟩
  · rw [← hcolon]
    exact reads_ok_iff.2 ⟨rfl, rfl⟩
  · rw [← hnewline]
    exact Reads.of_eq_ok hb

theorem definitions_cons {d : Definition} {more : List Definition} {behind : List Token}
    (hahead : definitionAhead (name :: tokens) = true)
    (hd : Reads (definition stop name tokens) d behind)
    (h : Reads (definitions stop behind) more rest) :
    Reads (definitions stop (name :: tokens)) (d :: more) rest := by
  obtain ⟨hle, hx⟩ := h
  obtain ⟨hle', hx'⟩ := hd
  rw [definitions, if_pos hahead]
  simp only [hx', hx]
  exact reads_ok_iff.2 ⟨rfl, rfl⟩

theorem definitions_stop (h : definitionAhead rest = false) :
    Reads (definitions stop rest) [] rest := by
  rcases rest with - | ⟨t, behind⟩
  · rw [definitions]
    exact reads_ok_iff.2 ⟨rfl, rfl⟩
  · rw [definitions, if_neg (by simp [h])]
    exact reads_ok_iff.2 ⟨rfl, rfl⟩

theorem definitions_cases {ds : List Definition} (h : Reads (definitions stop tokens) ds rest) :
    (ds = [] ∧ rest = tokens ∧ definitionAhead tokens = false) ∨
    ∃ name behind d after more, tokens = name :: behind ∧
      definitionAhead (name :: behind) = true ∧ ds = d :: more ∧
      Reads (definition stop name behind) d after ∧ Reads (definitions stop after) more rest := by
  rcases tokens with - | ⟨name, behind⟩
  · rw [definitions] at h
    obtain ⟨hds, hrest⟩ := reads_ok_iff.1 h
    exact Or.inl ⟨hds, hrest, rfl⟩
  rw [definitions] at h
  by_cases ha : definitionAhead (name :: behind) = true
  · simp only [if_pos ha] at h
    rcases hd : definition stop name behind with f | found <;> simp only [hd] at h
    · exact absurd h not_reads_error
    rcases hx : definitions stop found.rest with f | r <;> simp only [hx] at h
    · exact absurd h not_reads_error
    · obtain ⟨rfl, rfl⟩ := reads_ok_iff.1 h
      exact Or.inr ⟨name, behind, _, _, _, rfl, ha, rfl, Reads.of_eq_ok hd, Reads.of_eq_ok hx⟩
  · simp only [if_neg ha] at h
    obtain ⟨hds, hrest⟩ := reads_ok_iff.1 h
    exact Or.inl ⟨hds, hrest, Bool.eq_false_iff.2 ha⟩

/-! ### The main block -/

theorem mainBlock_intro {v : List Element} (htokens : kindAhead tokens ≠ some .parameter)
    (h : Reads (sequence stop false tokens) v []) (hv : v ≠ []) (hstop : stop.kind = .finish) :
    mainBlock stop tokens = .ok v := by
  obtain ⟨hle, hx⟩ := h
  have hno : noParameter tokens = .ok () := by
    rcases tokens with - | ⟨t, behind⟩
    · rfl
    · rw [noParameter, if_neg (by simpa [kindAhead] using htokens)]
  rw [mainBlock, hno, hx]
  simp [hv, noParameter, current, hstop]

theorem mainBlock_cases {v : List Element} (h : mainBlock stop tokens = .ok v) :
    ∃ rest, v ≠ [] ∧ Reads (sequence stop false tokens) v rest ∧
      (current stop rest).kind = .finish := by
  rw [mainBlock] at h
  rcases hno : noParameter tokens with f | u <;> simp only [hno, reduceCtorEq] at h
  rcases hx : sequence stop false tokens with f | found <;> simp only [hx, reduceCtorEq] at h
  by_cases hempty : found.value.isEmpty = true
  · simp [hempty] at h
  rw [if_neg hempty] at h
  rcases hno' : noParameter found.rest with f | u' <;> simp only [hno', reduceCtorEq] at h
  by_cases hfinish : (current stop found.rest).kind = .finish
  · rw [if_pos hfinish] at h
    obtain rfl : found.value = v := by simpa using h
    exact ⟨found.rest, by simpa using hempty, reads_ok_iff.2 ⟨rfl, rfl⟩, hfinish⟩
  · rw [if_neg hfinish] at h
    simp at h

end RobotGolf.Parse
