import RobotGolf.Proofs.Cursor
import RobotGolf.Proofs.ErrorSites
/-!
# The cursor follows the readers

Reading with a cursor comes to what the readers of `RobotGolf.Parse` come to, and when it does so
the cursor is in front of the tokens that they have left (`Follows`). Each reader has one lemma. It
goes through the ways to succeed and to fail of that reader, and two readers in a row are put
together by `Follows.bind`. The readers are known to leave fewer tokens than there were, and that is
why the cursor has been moved on wherever it has to be.

This holds of all tokens of which the last one, and no other, is the end of the text or an illegal
character, if the commands among them are spelled. A command without an octet is the one thing on
which the cursor can founder (`Follows.unspelled`).

Sequences, calls and arguments are read by mutual recursion, so the induction is on a bound for the
number of tokens ahead (`FollowsBelow`).
-/

namespace RobotGolf.Cursor

variable {α β : Type} {all rest rest' : List Token} {stop t : Token} {pos pos' n m : ℕ}

/-! ### One step behind another -/

/-- There is a command without an octet. -/
def Unspelled (all : List Token) : Prop := ∃ t ∈ all, t.kind = .command ∧ t.lexeme = []

/-- Reading with a cursor comes to what a reader of the tokens ahead comes to, commands without an
octet apart. -/
inductive Follows (all : List Token) (stop : Token) (x : Except Trouble (Found α))
    (y : Except Fault (Parsed α n)) : Prop where
  | value {v : α} {pos : ℕ} {rest : List Token} (hx : x = .ok ⟨v, pos⟩)
    (hy : Parse.Reads y v rest) (hahead : Ahead all stop pos rest)
  | fault {f : Fault} (hx : x = .error (.fault f)) (hy : y = .error f)
  | unspelled (hx : x = .error (.breach .unspelled)) (hall : Unspelled all)

/-- **The step lemma.** What is read next follows, if what was read first does. -/
theorem Follows.bind {x : Except Trouble (Found α)} {y : Except Fault (Parsed α n)}
    {g : Found α → Except Trouble (Found β)} {z : Except Fault (Parsed β m)}
    (h : Follows all stop x y) (hfault : ∀ f, y = .error f → z = .error f)
    (hvalue : ∀ v pos rest, Parse.Reads y v rest → Ahead all stop pos rest →
      Follows all stop (g ⟨v, pos⟩) z) : Follows all stop (x >>= g) z := by
  rcases h with ⟨rfl, hy, hahead⟩ | ⟨rfl, hy⟩ | ⟨rfl, hall⟩
  · exact hvalue _ _ _ hy hahead
  · exact .fault rfl (hfault _ hy)
  · exact .unspelled rfl hall

/-- What is returned as it was read. -/
theorem Follows.imp {x : Except Trouble (Found α)} {y : Except Fault (Parsed α n)}
    {z : Except Fault (Parsed α m)} (h : Follows all stop x y)
    (hfault : ∀ f, y = .error f → z = .error f)
    (hvalue : ∀ v rest, Parse.Reads y v rest → Parse.Reads z v rest) : Follows all stop x z := by
  rcases h with ⟨hx, hy, hahead⟩ | ⟨hx, hy⟩ | ⟨hx, hall⟩
  · exact .value hx (hvalue _ _ hy) hahead
  · exact .fault hx (hfault _ hy)
  · exact .unspelled hx hall

/-- The kinds of the tokens that end a scan. -/
def ends : List TokenKind := [.finish, .illegal]

theorem exists_of_current {kind : TokenKind} (hstop : stop.kind ∈ ends) (hkind : kind ∉ ends)
    (h : (Parse.current stop rest).kind = kind) : ∃ t behind, rest = t :: behind := by
  rcases rest with - | ⟨t, behind⟩
  · exact absurd (h ▸ hstop) hkind
  · exact ⟨t, behind, rfl⟩

theorem kindAhead_ne {kind : TokenKind} (h : (Parse.current stop rest).kind ≠ kind) :
    Parse.kindAhead rest ≠ some kind := by
  rcases rest with - | ⟨t, behind⟩
  · exact Option.some_ne_none _ |>.symm
  · exact fun heq ↦ h (Option.some.inj heq)

theorem expect_of_ne {kind : TokenKind} (h : Ahead all stop pos rest)
    (hkind : (Parse.current stop rest).kind ≠ kind) :
    expect all kind pos = .error (.fault (Parse.unexpected stop rest (.token kind))) := by
  rw [expect, h.peek_zero]
  exact (if_neg hkind).trans (h.unexpected_eq _)

/-- A token is expected, and reading goes on behind it. -/
theorem follows_expect {kind : TokenKind} {g : Found Token → Except Trouble (Found β)}
    {z : Except Fault (Parsed β m)} (hstop : stop.kind ∈ ends) (hkind : kind ∉ ends)
    (h : Ahead all stop pos rest)
    (hfault : Parse.kindAhead rest ≠ some kind →
      z = .error (Parse.unexpected stop rest (.token kind)))
    (hvalue : ∀ t behind, rest = t :: behind → t.kind = kind → Ahead all stop (pos + 1) behind →
      Follows all stop (g ⟨t, pos + 1⟩) z) : Follows all stop (expect all kind pos >>= g) z := by
  by_cases hahead : (Parse.current stop rest).kind = kind
  · obtain ⟨t, behind, rfl⟩ := exists_of_current hstop hkind hahead
    rw [expect, h.peek_zero]
    simp only [bind, Except.bind, if_pos hahead, h.next_eq]
    exact hvalue t behind rfl hahead h.tail
  · rw [expect_of_ne h hahead]
    exact .fault rfl (hfault (kindAhead_ne hahead))

/-! ### Sums -/

theorem operand?_of_mem_ends (hstop : stop.kind ∈ ends) : Parse.operand? stop = none := by
  rcases List.mem_pair.1 hstop with h | h <;> rw [Parse.operand?, h]

theorem misfit_of_mem_ends (hstop : stop.kind ∈ ends) :
    Parse.misfit stop = Parse.unexpected stop [] .operand := by
  rcases List.mem_pair.1 hstop with h | h <;> rw [Parse.misfit, h]

theorem not_mem_ends_of_sign (h : t.kind = .plus ∨ t.kind = .minus) : t.kind ∉ ends := by
  rcases h with h | h <;> rw [h] <;> decide

theorem operand_of_none (h : Ahead all stop pos rest)
    (hnone : Parse.operand? (Parse.current stop rest) = none) :
    operand all pos = .error (.fault (Parse.misfit (Parse.current stop rest))) := by
  simp only [operand, h.peek_zero, bind, Except.bind, hnone]

theorem operand_of_some {o : Operand} (h : Ahead all stop pos (t :: rest))
    (hsome : Parse.operand? t = some o) : operand all pos = .ok ⟨o, pos + 1⟩ := by
  simp only [operand, h.peek_cons, bind, Except.bind, hsome, h.next_eq, pure, Except.pure]

theorem terms_of_none (h : Ahead all stop pos rest)
    (hnone : Parse.operand? (Parse.current stop rest) = none) (negative : Bool) (span : Span) :
    terms all negative span pos =
      .error (.fault (Parse.misfit (Parse.current stop rest))) := by
  rw [terms, operand_of_none h hnone]
  rfl

/-- The induction is on the tokens ahead: a sum goes on behind an operand and a sign. -/
theorem follows_terms (hstop : stop.kind ∈ ends) {pos : ℕ} {rest : List Token}
    (h : Ahead all stop pos rest) (negative : Bool) (span : Span) :
    Follows all stop (terms all negative span pos) (Parse.terms stop negative span rest) := by
  match rest, h with
  | [], h =>
    exact .fault (terms_of_none h (operand?_of_mem_ends hstop) negative span)
      (Parse.terms_eq_error_iff.2 (Or.inl ⟨rfl, misfit_of_mem_ends hstop⟩))
  | t :: behind, h =>
    rcases ht : Parse.operand? t with - | o
    · exact .fault (terms_of_none h ht negative span) (by rw [Parse.terms, ht]; rfl)
    rw [terms]
    simp only [operand_of_some h ht, bind, Except.bind, h.lookBack_eq, h.tail.peek_zero]
    split
    · next hsign =>
      obtain ⟨sign, after, rfl⟩ := exists_of_current hstop (not_mem_ends_of_sign hsign) rfl
      have hsign : sign.kind = .plus ∨ sign.kind = .minus := hsign
      have hahead := h.tail.tail
      have honward := h.onward hahead (by simp only [List.length_cons]; omega)
      simp only [h.tail.next_eq, dif_pos honward]
      refine (follows_terms hstop hahead _ _).bind (fun f hf ↦ ?_)
        fun v pos' rest' hread hahead' ↦ ?_
      · exact Parse.terms_eq_error_iff.2
          (Or.inr (Or.inr ⟨t, o, sign, after, rfl, ht, hsign, hf⟩))
      · exact .value rfl (Parse.terms_cons ht hsign hread) hahead'
    · next hsign =>
      have hrest : Parse.isSign (Parse.kindAhead behind) = false := by
        rcases behind with - | ⟨sign, after⟩
        · rfl
        · exact Parse.isSign_eq_false hsign after
      exact .value rfl (Parse.terms_last ht hrest) h.tail
termination_by rest.length

theorem follows_arithmetic (hstop : stop.kind ∈ ends) (h : Ahead all stop pos rest) :
    Follows all stop (arithmetic all pos) (Parse.arithmetic stop rest) := by
  simp only [arithmetic, h.peek_zero, bind, Except.bind]
  split
  · next hsign =>
    obtain ⟨sign, behind, rfl⟩ := exists_of_current hstop (not_mem_ends_of_sign hsign) rfl
    have hsign : sign.kind = .plus ∨ sign.kind = .minus := hsign
    simp only [h.next_eq]
    refine (follows_terms hstop h.tail _ _).bind (fun f hf ↦ ?_) fun v pos' rest' hread hahead ↦ ?_
    · exact Parse.arithmetic_eq_error_iff.2 (Or.inr (Or.inl ⟨sign, behind, rfl, hsign, hf⟩))
    · exact .value rfl (Parse.arithmetic_signed hsign hread) hahead
  · next hsign =>
    rcases rest with - | ⟨t, behind⟩
    · rw [terms_of_none h (operand?_of_mem_ends hstop)]
      exact .fault rfl
        (Parse.arithmetic_eq_error_iff.2 (Or.inl ⟨rfl, misfit_of_mem_ends hstop⟩))
    refine (follows_terms hstop h _ _).bind (fun f hf ↦ ?_) fun v pos' rest' hread hahead ↦ ?_
    · exact Parse.arithmetic_eq_error_iff.2 (Or.inr (Or.inr ⟨t, behind, rfl, hsign, hf⟩))
    · exact .value rfl (Parse.arithmetic_unsigned hsign hread) hahead

/-! ### Sequences, calls and arguments -/

/-- Looking at the last token instead of nothing makes no difference to the form. -/
theorem argumentForm?_eq (hstop : stop.kind ∈ ends) (h : Ahead all stop pos rest) :
    argumentForm? all pos = .ok (Parse.argumentForm? rest) := by
  have hends := List.mem_pair.1 hstop
  simp only [argumentForm?, h.peek_eq, bind, Except.bind, pure, Except.pure]
  rcases rest with - | ⟨t, - | ⟨u, behind⟩⟩
  · rcases hends with h | h <;> simp [Parse.argumentForm?, Parse.current, h]
  · rcases hends with h | h <;> simp [Parse.argumentForm?, Parse.current, Parse.kindAhead, h]
  · rfl

theorem element?_of_none {allowed : Bool} (hstop : stop.kind ∈ ends) (h : Ahead all stop pos rest)
    (hnone : Parse.startsElement allowed (Parse.kindAhead rest) = false) :
    element? all allowed pos = .ok none := by
  rw [element?]
  simp only [h.peek_zero, bind, Except.bind]
  rcases rest with - | ⟨t, behind⟩
  · rcases List.mem_pair.1 hstop with h | h <;> simp only [Parse.current, List.headD_nil, h] <;> rfl
  · rcases hk : t.kind <;> simp [Parse.kindAhead, Parse.startsElement, hk] at hnone <;>
      simp [Parse.current, hk, hnone] <;> rfl

theorem element?_command {allowed : Bool} (h : Ahead all stop pos (t :: rest))
    (ht : t.kind = .command) :
    element? all allowed pos = (firstOctet t).map fun octet ↦
      some ⟨.command ⟨octet⟩ t.span, pos + 1⟩ := by
  rw [element?]
  simp only [h.peek_cons, bind, Except.bind, ht, h.next_eq]
  rfl

theorem element?_procedure {allowed : Bool} (h : Ahead all stop pos (t :: rest))
    (ht : t.kind = .procedure) : element? all allowed pos = (call all pos).map some := by
  rw [element?]
  simp only [h.peek_cons, bind, Except.bind, ht]
  rfl

theorem element?_parameter (h : Ahead all stop pos (t :: rest)) (ht : t.kind = .parameter) :
    element? all true pos = .ok (some ⟨.parameter t.text t.span, pos + 1⟩) := by
  rw [element?]
  simp only [h.peek_cons, bind, Except.bind, ht, h.next_eq]
  rfl

theorem sequence_of_none {allowed : Bool} (h : element? all allowed pos = .ok none) :
    sequence all allowed pos = .ok ⟨[], pos⟩ := by
  rw [sequence, h]
  rfl

theorem sequence_of_some {allowed : Bool} {e : Found Element}
    (h : element? all allowed pos = .ok (some e)) (honward : Onward all pos e.pos) :
    sequence all allowed pos = sequence all allowed e.pos >>= fun more ↦
      .ok ⟨e.value :: more.value, more.pos⟩ := by
  rw [sequence, h]
  exact dif_pos honward

theorem sequence_of_procedure {allowed : Bool} (h : Ahead all stop pos (t :: rest))
    (ht : t.kind = .procedure) :
    sequence all allowed pos = call all pos >>= fun e ↦
      if _ : Onward all pos e.pos then sequence all allowed e.pos >>= fun more ↦
        .ok ⟨e.value :: more.value, more.pos⟩
      else .error (.breach .stalled) := by
  rw [sequence, element?_procedure h ht]
  rcases call all pos with f | e <;> rfl

/-- On fewer than `n` tokens ahead the cursor follows the readers. -/
structure FollowsBelow (all : List Token) (stop : Token) (n : ℕ) : Prop where
  sequence : ∀ {pos : ℕ} {rest : List Token} (allowed : Bool), rest.length < n →
    Ahead all stop pos rest →
    Follows all stop (sequence all allowed pos) (Parse.sequence stop allowed rest)
  arguments : ∀ {pos : ℕ} {rest : List Token}, rest.length < n → Ahead all stop pos rest →
    Follows all stop (arguments all pos) (Parse.arguments stop rest)

namespace FollowsBelow

/-- The arguments of a call are behind its name and a parenthesis. -/
theorem call_succ (hb : FollowsBelow all stop n) (hstop : stop.kind ∈ ends)
    (hlen : rest.length < n + 1) (h : Ahead all stop pos (t :: rest)) :
    Follows all stop (call all pos) (Parse.call stop t rest) := by
  rw [call]
  simp only [h.next_eq, bind, Except.bind, h.tail.peek_zero]
  split
  · next hleft =>
    obtain ⟨left, behind, rfl⟩ := exists_of_current hstop (by decide) hleft
    have honward := h.onward h.tail.tail (by simp only [List.length_cons]; omega)
    rw [List.length_cons] at hlen
    simp only [h.tail.next_eq, dif_pos honward]
    refine (hb.arguments (by omega) h.tail.tail).bind (fun f hf ↦ ?_)
      fun args pos' rest' hargs hahead ↦ ?_
    · exact Parse.call_eq_error_iff.2 ⟨left, behind, rfl, hleft, hf⟩
    · exact .value rfl (Parse.call_applied hleft hargs) hahead
  · next hleft => exact .value rfl (Parse.call_plain (kindAhead_ne hleft)) h.tail

/-- A sequence goes on behind its first element, and that has at least one token. -/
theorem sequence_succ (hb : FollowsBelow all stop n) (hstop : stop.kind ∈ ends) (allowed : Bool)
    (hlen : rest.length < n + 1) (h : Ahead all stop pos rest) :
    Follows all stop (Cursor.sequence all allowed pos) (Parse.sequence stop allowed rest) := by
  rcases hstarts : Parse.startsElement allowed (Parse.kindAhead rest) with - | -
  · exact .value (sequence_of_none (element?_of_none hstop h hstarts))
      (Parse.sequence_nil hstarts) h
  rcases rest with - | ⟨t, behind⟩
  · cases hstarts
  have honward := h.onward h.tail (Nat.lt_succ_self _)
  rw [List.length_cons] at hlen
  have hkind : t.kind = .command ∨ t.kind = .procedure ∨ t.kind = .parameter ∧ allowed = true := by
    rcases hk : t.kind <;> simp [Parse.kindAhead, Parse.startsElement, hk] at hstarts ⊢
    exact hstarts
  rcases hkind with ht | ht | ⟨ht, rfl⟩
  · -- Nowhere else is an octet of a lexeme looked for.
    rcases hlexeme : t.lexeme with - | ⟨b, tail⟩
    · refine .unspelled ?_ ⟨t, ?_, ht, hlexeme⟩
      · rw [Cursor.sequence, element?_command h ht, firstOctet, hlexeme]
        rfl
      · exact List.mem_of_mem_drop (h ▸ List.mem_append_left _ List.mem_cons_self)
    have hcommand : element? all allowed pos =
        .ok (some ⟨.command (Parse.commandOf t) t.span, pos + 1⟩) := by
      rw [element?_command h ht, firstOctet, hlexeme, Parse.commandOf, hlexeme]
      rfl
    rw [sequence_of_some hcommand honward]
    refine (hb.sequence allowed (by omega) h.tail).bind (fun f hf ↦ ?_)
      fun v pos' rest' hread hahead ↦ ?_
    · exact Parse.sequence_eq_error_iff.2 (Or.inl ⟨t, behind, rfl, ht, hf⟩)
    · exact .value rfl (Parse.sequence_command ht hread) hahead
  · rw [sequence_of_procedure h ht]
    refine (hb.call_succ hstop (by omega) h).bind (fun f hf ↦ ?_) fun e pos' after hcall h' ↦ ?_
    · exact Parse.sequence_eq_error_iff.2 (Or.inr (Or.inl ⟨t, behind, rfl, ht, hf⟩))
    have hle := hcall.length_le
    rw [dif_pos (h.onward h' (Nat.lt_succ_of_le hle))]
    refine (hb.sequence allowed (by omega) h').bind (fun f hf ↦ ?_)
      fun v pos'' rest' hread hahead ↦ ?_
    · exact Parse.sequence_eq_error_iff.2
        (Or.inr (Or.inr (Or.inl ⟨t, behind, e, after, rfl, ht, hcall, hf⟩)))
    · exact .value rfl (Parse.sequence_procedure ht hcall hread) hahead
  · rw [sequence_of_some (element?_parameter h ht) honward]
    refine (hb.sequence true (by omega) h.tail).bind (fun f hf ↦ ?_)
      fun v pos' rest' hread hahead ↦ ?_
    · exact Parse.sequence_eq_error_iff.2
        (Or.inr (Or.inr (Or.inr ⟨t, behind, rfl, rfl, ht, hf⟩)))
    · exact .value rfl (Parse.sequence_parameter ht hread) hahead

/-- An argument may be a sequence that starts at the same token. -/
theorem argument_succ (hb : FollowsBelow all stop n) (hstop : stop.kind ∈ ends)
    (hlen : rest.length < n + 1) (h : Ahead all stop pos rest) :
    Follows all stop (argument all pos) (Parse.argument stop rest) := by
  rw [argument, argumentForm?_eq hstop h]
  rcases hform : Parse.argumentForm? rest with - | - | - | -
  · exact .fault (h.unexpected_eq _) (Parse.argument_eq_error_iff.2 (Or.inl ⟨hform, rfl⟩))
  · refine (follows_arithmetic hstop h).bind (fun f hf ↦ ?_) fun v pos' rest' hread hahead ↦ ?_
    · exact Parse.argument_eq_error_iff.2 (Or.inr (Or.inl ⟨hform, hf⟩))
    · exact .value rfl (Parse.argument_sum hform hread) hahead
  · rcases rest with - | ⟨t, behind⟩
    · cases hform
    simp only [h.next_eq, bind, Except.bind]
    exact .value rfl (Parse.argument_reference hform) h.tail
  · refine (hb.sequence_succ hstop true hlen h).bind (fun f hf ↦ ?_)
      fun v pos' rest' hread hahead ↦ ?_
    · exact Parse.argument_eq_error_iff.2 (Or.inr (Or.inr ⟨hform, hf⟩))
    · exact .value rfl (Parse.argument_sequence hform hread) hahead

theorem arguments_succ (hb : FollowsBelow all stop n) (hstop : stop.kind ∈ ends)
    (hlen : rest.length < n + 1) (h : Ahead all stop pos rest) :
    Follows all stop (Cursor.arguments all pos) (Parse.arguments stop rest) := by
  rw [Cursor.arguments]
  refine (hb.argument_succ hstop hlen h).bind
    (fun f hf ↦ Parse.arguments_eq_error_iff.2 (Or.inl hf)) fun a pos' rest' ha h' ↦ ?_
  have hle := ha.length_le
  simp only [h'.peek_zero, bind, Except.bind]
  split
  · next hcomma =>
    obtain ⟨comma, behind, rfl⟩ := exists_of_current hstop (by decide) hcomma
    rw [List.length_cons] at hle
    have honward := h.onward h'.tail (by omega)
    simp only [h'.next_eq, dif_pos honward]
    refine (hb.arguments (by omega) h'.tail).bind (fun f hf ↦ ?_)
      fun args pos'' rest'' hargs hahead ↦ ?_
    · exact Parse.arguments_eq_error_iff.2 (Or.inr (Or.inr ⟨a, comma, behind, ha, hcomma, hf⟩))
    · exact .value rfl (Parse.arguments_cons ha hcomma hargs) hahead
  · next hcomma =>
    refine follows_expect hstop (by decide) h' (fun hright ↦ ?_) ?_
    · exact Parse.arguments_eq_error_iff.2
        (Or.inr (Or.inl ⟨a, rest', ha, kindAhead_ne hcomma, hright, rfl⟩))
    · rintro right behind rfl hright hahead
      exact .value rfl (Parse.arguments_last ha hright) hahead

end FollowsBelow

theorem followsBelow (hstop : stop.kind ∈ ends) (n : ℕ) : FollowsBelow all stop n := by
  induction n with
  | zero => exact ⟨fun _ h ↦ absurd h (by omega), fun h ↦ absurd h (by omega)⟩
  | succ n ih => exact ⟨ih.sequence_succ hstop, ih.arguments_succ hstop⟩

theorem follows_sequence (hstop : stop.kind ∈ ends) (h : Ahead all stop pos rest) (allowed : Bool) :
    Follows all stop (sequence all allowed pos) (Parse.sequence stop allowed rest) :=
  (followsBelow hstop (rest.length + 1)).sequence allowed (Nat.lt_succ_self _) h

/-! ### Definitions -/

theorem kind_current_beq (hstop : stop.kind ∈ ends) :
    ((Parse.current stop rest).kind == .colon) = (Parse.kindAhead rest == some .colon) := by
  rcases rest with - | ⟨t, behind⟩
  · rcases List.mem_pair.1 hstop with h | h <;> simp [Parse.current, Parse.kindAhead, h]
  · rfl

/-- **The look-ahead stops.** The induction is on the tokens behind the one that is looked at. If
there are none, it is the last one that is looked at, and that one ends the search. -/
theorem colonBehindList_eq (hstop : stop.kind ∈ ends) (h : Ahead all stop pos rest)
    {ahead : List Token} {i depth : ℕ} (hahead : rest.drop i = ahead) (hi : i ≤ rest.length)
    (hdepth : 1 ≤ depth) :
    colonBehindList all pos depth i = .ok (Parse.colonBehindList depth ahead) := by
  induction ahead generalizing i depth with
  | nil =>
    rw [colonBehindList]
    simp only [h.peek_eq, hahead, bind, Except.bind]
    rcases List.mem_pair.1 hstop with hk | hk <;> simp [Parse.current, hk] <;> rfl
  | cons t behind ih =>
    have hlength := congrArg List.length hahead
    rw [List.length_drop, List.length_cons] at hlength
    have hbehind : rest.drop (i + 1) = behind := by rw [← List.tail_drop, hahead]; rfl
    have hinside : pos + (i + 1) < all.length := by rw [h.length_eq]; omega
    have hcurrent : Parse.current stop (t :: behind) = t := rfl
    have hnext : ∀ d : ℕ, 1 ≤ d →
        colonBehindList all pos d (i + 1) = .ok (Parse.colonBehindList d behind) :=
      fun d hd ↦ ih hbehind (by omega) hd
    rw [colonBehindList, Parse.colonBehindList]
    simp only [h.peek_eq, hahead, hbehind, hcurrent, bind, Except.bind, dif_pos hinside]
    rcases hk : t.kind
    case leftParen => simpa using hnext (depth + 1) (by omega)
    case rightParen =>
      by_cases hone : depth = 1
      · simp [hone, kind_current_beq hstop, pure, Except.pure]
      · have hpred : ((depth - 1 : ℕ) : ℤ) = depth - 1 := by omega
        have hne : ¬(depth : ℤ) - 1 = 0 := by omega
        simpa [hone, hne, hpred] using hnext (depth - 1) (by omega)
    all_goals first | rfl | simpa using hnext depth hdepth

theorem definitionAhead_eq (hstop : stop.kind ∈ ends) (h : Ahead all stop pos rest) :
    definitionAhead all pos = .ok (Parse.definitionAhead rest) := by
  have hends := List.mem_pair.1 hstop
  simp only [definitionAhead, h.peek_eq, bind, Except.bind]
  rcases rest with - | ⟨name, - | ⟨t, behind⟩⟩
  · rcases hends with hk | hk <;> simp [Parse.current, hk] <;> rfl
  · rcases hends with hk | hk <;> simp [Parse.current, hk] <;> rfl
  -- The parenthesis that opens the list is the first token that the search looks at.
  have hlist : t.kind = .leftParen →
      colonBehindList all pos 0 1 = .ok (Parse.colonBehindList 1 behind) := by
    intro ht
    have hlength := h.length_eq
    simp only [List.length_cons] at hlength
    have hinside : pos + (1 + 1) < all.length := by omega
    have hsearch := colonBehindList_eq (i := 2) hstop h rfl (by simp) (Nat.le_refl 1)
    rw [colonBehindList]
    simpa [h.peek_eq, Parse.current, bind, Except.bind, ht, hinside] using hsearch
  by_cases hname : name.kind = .procedure
  · by_cases hcolon : t.kind = .colon
    · simp [Parse.current, Parse.definitionAhead, hname, hcolon, pure, Except.pure]
    · by_cases hleft : t.kind = .leftParen
      · simp [Parse.current, Parse.definitionAhead, hname, hleft, hlist hleft]
      · simp [Parse.current, Parse.definitionAhead, hname, hcolon, hleft, pure, Except.pure]
  · simp [Parse.current, Parse.definitionAhead, hname, pure, Except.pure]

theorem follows_parameters (hstop : stop.kind ∈ ends) (h : Ahead all stop pos rest)
    (procedure : String) (before : List String) :
    Follows all stop (parameters all procedure before pos)
      (Parse.parameters stop procedure before rest) := by
  obtain ⟨n, hlen⟩ : ∃ n, rest.length < n := ⟨_, Nat.lt_succ_self _⟩
  induction n generalizing pos rest before with
  | zero => exact absurd hlen (by omega)
  | succ n ih =>
    rw [parameters]
    refine follows_expect hstop (by decide) h (fun hkind ↦ ?_) ?_
    · exact Parse.parameters_eq_error_iff.2 (Or.inl ⟨hkind, rfl⟩)
    rintro t behind rfl ht h'
    split
    · next hmem =>
      exact .fault rfl
        (Parse.parameters_eq_error_iff.2 (Or.inr (Or.inl ⟨t, behind, rfl, ht, hmem, rfl⟩)))
    next hnew =>
    simp only [h'.peek_zero, bind, Except.bind]
    split
    · next hcomma =>
      obtain ⟨comma, after, rfl⟩ := exists_of_current hstop (by decide) hcomma
      simp only [List.length_cons] at hlen
      have honward := h.onward h'.tail (by simp only [List.length_cons]; omega)
      simp only [h'.next_eq, dif_pos honward]
      refine (ih h'.tail (before ++ [t.text]) (by omega)).imp (fun f hf ↦ ?_) fun v rest' hread ↦ ?_
      · exact Parse.parameters_eq_error_iff.2
          (Or.inr (Or.inr (Or.inr ⟨t, comma, after, rfl, ht, hnew, hcomma, hf⟩)))
      · exact Parse.parameters_cons ht hnew hcomma hread
    · next hcomma =>
      refine follows_expect hstop (by decide) h' (fun hright ↦ ?_) ?_
      · exact Parse.parameters_eq_error_iff.2 (Or.inr (Or.inr (Or.inl
          ⟨t, behind, rfl, ht, hnew, kindAhead_ne hcomma, hright, rfl⟩)))
      · rintro right after rfl hright hahead
        exact .value rfl (Parse.parameters_last ht hnew hright) hahead

theorem follows_parameterList (hstop : stop.kind ∈ ends) (h : Ahead all stop pos rest)
    (procedure : String) : Follows all stop (parameterList all procedure pos)
      (Parse.parameterList stop procedure rest) := by
  simp only [parameterList, h.peek_zero, bind, Except.bind]
  split
  · next hleft =>
    obtain ⟨left, behind, rfl⟩ := exists_of_current hstop (by decide) hleft
    simp only [h.next_eq]
    refine (follows_parameters hstop h.tail procedure []).imp (fun f hf ↦ ?_) fun v rest' hread ↦ ?_
    · exact Parse.parameterList_eq_error_iff.2 ⟨left, behind, rfl, hleft, hf⟩
    · exact Parse.parameterList_some hleft hread
  · next hleft => exact .value rfl (Parse.parameterList_none (kindAhead_ne hleft)) h

theorem follows_definition (hstop : stop.kind ∈ ends) (h : Ahead all stop pos (t :: rest)) :
    Follows all stop (definition all pos) (Parse.definition stop t rest) := by
  rw [definition, h.next_eq]
  refine (follows_parameterList hstop h.tail t.text).bind
    (fun f hf ↦ Parse.definition_eq_error_iff.2 (Or.inl hf)) fun names pos₁ rest₁ hnames h₁ ↦ ?_
  refine follows_expect hstop (by decide) h₁ (fun hkind ↦ ?_) ?_
  · exact Parse.definition_eq_error_iff.2 (Or.inr (Or.inl ⟨names, rest₁, hnames, hkind, rfl⟩))
  rintro colon rest₂ rfl hcolon h₂
  refine (follows_sequence hstop h₂ true).bind (fun f hf ↦ ?_) fun body pos₃ rest₃ hbody h₃ ↦ ?_
  · exact Parse.definition_eq_error_iff.2
      (Or.inr (Or.inr ⟨names, colon, rest₂, hnames, hcolon, Or.inl hf⟩))
  rcases hlast : body.getLast? with - | last
  · obtain rfl := List.getLast?_eq_none_iff.1 hlast
    exact .fault (h₃.unexpected_eq _) (Parse.definition_eq_error_iff.2
      (Or.inr (Or.inr ⟨names, colon, rest₂, hnames, hcolon, Or.inr (Or.inl ⟨rest₃, hbody, rfl⟩)⟩)))
  have hne : body ≠ [] := by
    rintro rfl
    cases hlast
  refine follows_expect hstop (by decide) h₃ (fun hkind ↦ ?_) ?_
  · exact Parse.definition_eq_error_iff.2 (Or.inr (Or.inr
      ⟨names, colon, rest₂, hnames, hcolon, Or.inr (Or.inr ⟨body, rest₃, hbody, hne, hkind, rfl⟩)⟩))
  rintro newline rest₄ rfl hnewline h₄
  exact .value rfl (Parse.definition_intro hnames hcolon hbody hlast hnewline) h₄

theorem follows_definitions (hstop : stop.kind ∈ ends) (h : Ahead all stop pos rest) :
    Follows all stop (definitions all pos) (Parse.definitions stop rest) := by
  obtain ⟨n, hlen⟩ : ∃ n, rest.length < n := ⟨_, Nat.lt_succ_self _⟩
  induction n generalizing pos rest with
  | zero => exact absurd hlen (by omega)
  | succ n ih =>
    rw [definitions, definitionAhead_eq hstop h]
    rcases hahead : Parse.definitionAhead rest with - | -
    · exact .value rfl (Parse.definitions_stop hahead) h
    rcases rest with - | ⟨name, behind⟩
    · cases hahead
    rw [List.length_cons] at hlen
    refine (follows_definition hstop h).bind (fun f hf ↦ ?_) fun d pos' after hd h' ↦ ?_
    · exact Parse.definitions_eq_error_iff.2 ⟨name, behind, rfl, hahead, Or.inl hf⟩
    have hle := hd.length_le
    simp only [dif_pos (h.onward h' (Nat.lt_succ_of_le hle))]
    refine (ih h' (by omega)).bind (fun f hf ↦ ?_) fun more pos'' rest' hmore hahead' ↦ ?_
    · exact Parse.definitions_eq_error_iff.2
        ⟨name, behind, rfl, hahead, Or.inr ⟨d, after, hd, hf⟩⟩
    · exact .value rfl (Parse.definitions_cons hahead hd hmore) hahead'

/-! ### The main block and programs -/

theorem noParameter_eq (hstop : stop.kind ∈ ends) (h : Ahead all stop pos rest) :
    noParameter all pos = (Parse.noParameter rest).mapError .fault := by
  simp only [noParameter, h.peek_zero, bind, Except.bind]
  rcases rest with - | ⟨t, behind⟩
  · rcases List.mem_pair.1 hstop with hk | hk <;> simp [Parse.current, hk] <;> rfl
  · by_cases ht : t.kind = .parameter <;>
      simp [Parse.current, Parse.noParameter, ht, Except.mapError, pure, Except.pure]

/-- A result behind which nothing is left to be read. -/
def toEnd (y : Except Fault α) : Except Fault (Parsed α 0) := y.map fun v ↦ ⟨v, [], Nat.le_refl 0⟩

theorem toEnd_eq_error_iff {y : Except Fault α} {f : Fault} :
    toEnd y = .error f ↔ y = .error f := by
  rcases y with g | v <;> simp [toEnd, Except.map]

theorem reads_toEnd_iff {y : Except Fault α} {v : α} :
    Parse.Reads (toEnd y) v rest ↔ y = .ok v ∧ rest = [] := by
  rcases y with g | v'
  · exact iff_of_false Parse.not_reads_error (by simp)
  · rw [toEnd, Except.map, Parse.reads_ok_iff, Except.ok.injEq, eq_comm]

theorem follows_mainBlock {tokens : List Token} (hstop : stop.kind ∈ ends)
    (hinner : ∀ t ∈ tokens, t.kind ∉ ends) (h : Ahead (tokens ++ [stop]) stop pos rest) :
    Follows (tokens ++ [stop]) stop (mainBlock (tokens ++ [stop]) pos)
      (toEnd (Parse.mainBlock stop rest)) := by
  have hfault : ∀ {f}, Parse.mainBlock stop rest = .error f →
      toEnd (Parse.mainBlock stop rest) = .error f := toEnd_eq_error_iff.2
  rw [mainBlock, noParameter_eq hstop h]
  rcases hno : Parse.noParameter rest with f | ⟨⟩
  · exact .fault rfl (hfault (Parse.mainBlock_eq_error_iff.2 (Or.inl hno)))
  refine (follows_sequence hstop h false).bind (fun f hf ↦ ?_) fun v pos' rest' hread h' ↦ ?_
  · exact hfault (Parse.mainBlock_eq_error_iff.2 (Or.inr ⟨hno, Or.inl hf⟩))
  by_cases hempty : v = []
  · obtain rfl := hempty
    exact .fault (h'.unexpected_eq _) (hfault (Parse.mainBlock_eq_error_iff.2
      (Or.inr ⟨hno, Or.inr (Or.inl ⟨rest', hread, rfl⟩)⟩)))
  have hisEmpty : ¬v.isEmpty = true := by simpa using hempty
  simp only [if_neg hisEmpty, noParameter_eq hstop h']
  rcases hno' : Parse.noParameter rest' with f | ⟨⟩
  · exact .fault rfl (hfault (Parse.mainBlock_eq_error_iff.2
      (Or.inr ⟨hno, Or.inr (Or.inr ⟨v, rest', hread, hempty, Or.inl hno'⟩)⟩)))
  by_cases hfinish : (Parse.current stop rest').kind = .finish
  · -- Of all tokens only the last one can be that of the end.
    obtain rfl : rest' = [] := by
      rcases rest' with - | ⟨t, behind⟩
      · rfl
      · have hmem : t ∈ tokens := List.mem_of_mem_drop (h'.eq_drop ▸ List.mem_cons_self)
        have hkind : t.kind = .finish := hfinish
        exact absurd (hkind ▸ hinner t hmem) (by decide)
    have hparameter : Parse.kindAhead rest ≠ some .parameter := by
      intro hkind
      rcases rest with - | ⟨t, behind⟩
      · cases hkind
      · rw [Parse.noParameter, if_pos (Option.some.inj hkind)] at hno
        cases hno
    have hexpect : expect (tokens ++ [stop]) .finish pos' = .ok ⟨stop, pos'⟩ := by
      rw [expect, h'.peek_zero]
      exact (if_pos hfinish).trans h'.next_nil
    rw [hexpect]
    exact .value rfl
      (reads_toEnd_iff.2 ⟨Parse.mainBlock_intro hparameter hread hempty hfinish, rfl⟩) h'
  · rw [expect_of_ne h' hfinish]
    exact .fault rfl (hfault (Parse.mainBlock_eq_error_iff.2
      (Or.inr ⟨hno, Or.inr (Or.inr ⟨v, rest', hread, hempty, Or.inr ⟨hno', hfinish, rfl⟩⟩)⟩)))

theorem follows_program {s : Scan} (hstop : s.last.kind ∈ ends)
    (hinner : ∀ t ∈ s.tokens, t.kind ∉ ends) :
    Follows (s.deliver 0) s.last (program (s.deliver 0)) (toEnd (Program.ofScan s)) := by
  have hstart : Ahead (s.deliver 0) s.last 0 s.tokens := rfl
  refine (follows_definitions hstop hstart).bind (fun f hf ↦ ?_) fun ds pos rest hds h ↦ ?_
  · exact toEnd_eq_error_iff.2 (Program.ofScan_eq_error_iff.2 (Or.inl hf))
  refine (follows_mainBlock hstop hinner h).bind (fun f hf ↦ ?_) fun main pos' rest' hmain h' ↦ ?_
  · exact toEnd_eq_error_iff.2
      (Program.ofScan_eq_error_iff.2 (Or.inr ⟨ds, rest, hds, toEnd_eq_error_iff.1 hf⟩))
  · obtain ⟨hblock, rfl⟩ := reads_toEnd_iff.1 hmain
    obtain ⟨hle, hdefinitions⟩ := hds
    have hprogram : Program.ofScan s = .ok ⟨ds, main⟩ := by
      rw [Program.ofScan, hdefinitions]
      simp only [hblock]
    exact .value rfl (reads_toEnd_iff.2 ⟨hprogram, rfl⟩) h'

/-- At the end of a program the cursor is at the last token. -/
theorem program_eq {s : Scan} (hstop : s.last.kind ∈ ends)
    (hinner : ∀ t ∈ s.tokens, t.kind ∉ ends) :
    program (s.deliver 0) =
        ((Program.ofScan s).map fun p ↦ ⟨p, s.tokens.length⟩).mapError .fault ∨
      (program (s.deliver 0) = .error (.breach .unspelled) ∧
        ∃ t ∈ s.tokens, t.kind = .command ∧ t.lexeme = []) := by
  rcases follows_program hstop hinner with ⟨hx, hy, h⟩ | ⟨hx, hy⟩ | ⟨hx, t, ht, hkind, hlexeme⟩
  · obtain ⟨hprogram, rfl⟩ := reads_toEnd_iff.1 hy
    have hlength := h.length_eq
    simp only [Scan.deliver, List.replicate_zero, List.length_append, List.length_singleton,
      List.length_nil] at hlength
    refine Or.inl ?_
    rw [hx, hprogram, Nat.add_right_cancel hlength]
    rfl
  · refine Or.inl ?_
    rw [hx, toEnd_eq_error_iff.1 hy]
    rfl
  · refine Or.inr ⟨hx, t, ?_, hkind, hlexeme⟩
    rcases List.mem_append.1 ht with hmem | hmem
    · exact hmem
    · rw [List.replicate_zero, List.mem_singleton] at hmem
      rw [← hmem, hkind] at hstop
      exact absurd hstop (by decide)

theorem program_of_spelled {s : Scan} (hstop : s.last.kind ∈ ends)
    (hinner : ∀ t ∈ s.tokens, t.kind ∉ ends)
    (hspelled : ∀ t ∈ s.tokens, t.kind = .command → t.lexeme ≠ []) :
    program (s.deliver 0) =
      ((Program.ofScan s).map fun p ↦ ⟨p, s.tokens.length⟩).mapError .fault := by
  rcases program_eq hstop hinner with heq | ⟨-, t, ht, hkind, hlexeme⟩
  · exact heq
  · exact absurd hlexeme (hspelled t ht hkind)

theorem kind_last_mem_ends (text : Bytes) : (Token.scan text).last.kind ∈ ends :=
  List.mem_pair.2 (Token.kind_last_scan text)

theorem spelled_of_mem_scan {text : Bytes} (h : t ∈ (Token.scan text).tokens) :
    t.kind ∉ ends ∧ t.lexeme ≠ [] := by
  have hspells := Token.spells_of_mem_scan h
  obtain ⟨hfinish, hillegal⟩ := hspells.ne_last
  obtain ⟨b, tail, hlexeme, -⟩ := hspells
  exact ⟨fun hmem ↦ (List.mem_pair.1 hmem).elim hfinish hillegal,
    hlexeme ▸ List.cons_ne_nil b tail⟩

/-- **The cursor is always valid, and it always moves on.** Let the last token of a list, and no
other one, end a scan. If the commands of the list are spelled, then reading with a cursor comes to
what is read from the scan, with the cursor at the last token behind a program. So no position is
outside of the list, the search for a colon stops, each loop consumes a token before it goes round
again, and the arguments of a call are read further on than its name. Of a list with a command
without an octet nothing but that octet can be missed. The scan of a text has no such commands. -/
theorem cursor_valid_and_onward :
    (∀ s : Scan, s.last.kind ∈ ends → (∀ t ∈ s.tokens, t.kind ∉ ends) →
      ((∀ t ∈ s.tokens, t.kind = .command → t.lexeme ≠ []) →
        program (s.deliver 0) =
          ((Program.ofScan s).map fun p ↦ ⟨p, s.tokens.length⟩).mapError .fault) ∧
      ∀ b, program (s.deliver 0) = .error (.breach b) → b = .unspelled) ∧
      ∀ text : Bytes, program ((Token.scan text).deliver 0) =
        ((Program.ofScan (Token.scan text)).map fun p ↦
          ⟨p, (Token.scan text).tokens.length⟩).mapError .fault := by
  refine ⟨fun s hstop hinner ↦ ⟨program_of_spelled hstop hinner, fun b hb ↦ ?_⟩, fun text ↦ ?_⟩
  · rcases program_eq hstop hinner with heq | ⟨heq, -⟩
    · rw [hb] at heq
      rcases hscan : Program.ofScan s with f | p <;> rw [hscan] at heq <;> cases heq
    · rw [hb] at heq
      cases heq
      rfl
  · exact program_of_spelled (kind_last_mem_ends text) (fun t ht ↦ (spelled_of_mem_scan ht).1)
      fun t ht _ ↦ (spelled_of_mem_scan ht).2

/-- Two calls within each other, `a(sb(`, which the end of the text cuts off. -/
def severed : Scan := Token.scan [0x61, 0x28, 0x73, 0x62, 0x28]

/-- The cursor is at the end when the second call has no argument, and there it stays. -/
theorem severed_followed :
    severed.last.kind ∈ ends ∧ (∀ t ∈ severed.tokens, t.kind ∉ ends) ∧
    (∀ t ∈ severed.tokens, t.kind = .command → t.lexeme ≠ []) ∧
    Program.ofScan severed = .error ⟨severed.last, .unexpected .finish [] .argument⟩ ∧
    program (severed.deliver 0) =
      .error (.fault ⟨severed.last, .unexpected .finish [] .argument⟩) := by
  have hlast : severed.last.kind ∈ ends := kind_last_mem_ends _
  have hinner : ∀ t ∈ severed.tokens, t.kind ∉ ends := fun t ht ↦ (spelled_of_mem_scan ht).1
  have hspelled : ∀ t ∈ severed.tokens, t.kind = .command → t.lexeme ≠ [] :=
    fun t ht _ ↦ (spelled_of_mem_scan ht).2
  have hfault : Program.ofScan severed =
      .error ⟨severed.last, .unexpected .finish [] .argument⟩ := by
    decide +kernel
  have hfollowed := (cursor_valid_and_onward.1 severed hlast hinner).1 hspelled
  rw [hfault] at hfollowed
  exact ⟨hlast, hinner, hspelled, hfault, hfollowed⟩

/-- A command without an octet, and the end of the text. -/
def hollow : Scan where
  tokens := [⟨.command, [], ⟨0, 0⟩, ⟨1, 1⟩⟩]
  last := ⟨.finish, [], ⟨0, 0⟩, ⟨1, 1⟩⟩
  finish := ⟨.finish, [], ⟨0, 0⟩, ⟨1, 1⟩⟩

/-- The first octet of a command is not in range for each list that the end of the text ends. -/
theorem hollow_breached :
    hollow.last.kind ∈ ends ∧ (∀ t ∈ hollow.tokens, t.kind ∉ ends) ∧
    program (hollow.deliver 0) = .error (.breach .unspelled) := by
  refine ⟨by decide, by decide, ?_⟩
  decide +kernel

-- A number that is not spelled as one is a fault of the program, and so the cursor goes no further.
example : program [⟨.procedure, [0x61], ⟨0, 1⟩, ⟨1, 1⟩⟩, ⟨.leftParen, [0x28], ⟨1, 2⟩, ⟨1, 2⟩⟩,
    ⟨.number, [0x78], ⟨2, 3⟩, ⟨1, 3⟩⟩, ⟨.finish, [], ⟨3, 3⟩, ⟨1, 4⟩⟩] =
      .error (.fault ⟨⟨.number, [0x78], ⟨2, 3⟩, ⟨1, 3⟩⟩, .malformedLiteral "x"⟩) := by
  decide +kernel

-- Without a token that ends them, even a few tokens lead astray.
example : program [] = .error (.breach .outside) ∧
    program [⟨.command, [0x73], ⟨0, 1⟩, ⟨1, 1⟩⟩] = .error (.breach .stalled) ∧
    program [⟨.procedure, [0x61], ⟨0, 1⟩, ⟨1, 1⟩⟩, ⟨.leftParen, [0x28], ⟨1, 2⟩, ⟨1, 2⟩⟩] =
      .error (.breach .endless) := by
  decide +kernel

end RobotGolf.Cursor
