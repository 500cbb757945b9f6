import RobotGolf.Proofs.Acceptance
import RobotGolf.Proofs.Obstacles
/-!
# Where a program fails to be read

The lines of a program are read one after the other, and the first one that cannot be read is either
taken for a definition or for the main block. This is decided by a search for a colon that may run
far ahead, and the fault that is then found may stand before the colon. `exists_site` says of every
fault what `Obstacle` says of a single reader, as far as that is true:

* the tokens before it can be completed to a program;
* a text that goes on in another way behind the faulty token is refused as well, **unless that token
  stands in the list of a head**, between a procedure name that starts its line and a colon
  (`InsideHead`). There a text may go on without the colon, and the list is one of arguments.

## The two ways to read a line

The decision for one of them does not depend on the tokens up to the fault alone, so both have to be
ruled out for the other text. A fault of the main block would have to stand in the head of a
definition of that text, but a head without its colon is a call and so is read by the main block. A
parenthesis that closes the list of a head too early (behind the opening one, or behind a comma) is
refused by both.
-/

namespace RobotGolf

open Parse

/-! ### Faults -/

/-- A fault speaks of an illegal character if and only if its token is one, and then of that one. -/
def Fault.Apt (f : Fault) : Prop :=
  if f.token.kind = .illegal then f.cause = .illegalCharacter f.token.lexeme
  else ∀ text, f.cause ≠ .illegalCharacter text

namespace Grammar

variable {stop : Token} {tokens rest : List Token} {f : Fault}

@[simp]
theorem token_unexpected (ahead : List Token) (e : Expected) :
    (unexpected stop ahead e).token = current stop ahead := by
  unfold unexpected
  simp only
  split <;> rfl

theorem apt_unexpected (ahead : List Token) (e : Expected) : (unexpected stop ahead e).Apt := by
  rw [Fault.Apt, token_unexpected]
  unfold unexpected
  rcases hk : (current stop ahead).kind <;> simp [hk]

theorem apt_of_parameter {t : Token} {cause : SyntaxCause} (ht : t.kind = .parameter)
    (h : ∀ text, cause ≠ .illegalCharacter text) : Fault.Apt ⟨t, cause⟩ := by
  simpa [Fault.Apt, ht] using h

/-! ### The list of a head -/

/-- How often a kind occurs. -/
def countKind (kind : TokenKind) (tokens : List Token) : ℕ := tokens.countP fun t ↦ t.kind = kind

/-- Tokens on one line that close `depth` parentheses more than they open, and never more than that
on the way. -/
structure Balances (depth : ℕ) (tokens : List Token) : Prop where
  inline : ∀ t ∈ tokens, t.kind ≠ .newline
  closed : countKind .rightParen tokens = countKind .leftParen tokens + depth
  nested : ∀ front, front <+: tokens →
    countKind .rightParen front ≤ countKind .leftParen front + depth

/-- A token stands inside of the parenthesised list of a line that starts with a procedure name, and
a colon follows the list. -/
def InsideHead (before : List Token) (t : Token) (after : List Token) : Prop :=
  ∃ (earlier inner inner' rest : List Token) (name left right colon : Token),
    before = earlier ++ name :: left :: inner ∧ after = inner' ++ right :: colon :: rest ∧
    (∀ u ∈ earlier.getLast?, u.kind = .newline) ∧ name.kind = .procedure ∧
    left.kind = .leftParen ∧ Balances 0 (inner ++ t :: inner') ∧ right.kind = .rightParen ∧
    colon.kind = .colon

/-- Whatever follows the colon is of no interest. -/
theorem InsideHead.append_right {before after : List Token} {t : Token}
    (h : InsideHead before t after) (more : List Token) : InsideHead before t (after ++ more) := by
  obtain ⟨earlier, inner, inner', rest, name, left, right, colon, hbefore, rfl, hrest⟩ := h
  exact ⟨earlier, inner, inner', rest ++ more, name, left, right, colon, hbefore, by simp, hrest⟩

theorem InsideHead.append_left {before after front : List Token} {t : Token}
    (hfront : ∀ u ∈ front.getLast?, u.kind = .newline) (h : InsideHead before t after) :
    InsideHead (front ++ before) t after := by
  obtain ⟨earlier, inner, inner', rest, name, left, right, colon, rfl, hafter, hline, hrest⟩ := h
  refine ⟨front ++ earlier, inner, inner', rest, name, left, right, colon, by simp, hafter, ?_,
    hrest⟩
  rcases List.eq_nil_or_concat earlier with rfl | ⟨ys, u, rfl⟩
  · rwa [List.append_nil]
  · rwa [List.concat_eq_append, ← List.append_assoc, List.getLast?_concat] at *

namespace Balances

variable {depth depth' : ℕ} {t : Token}

theorem nil : Balances 0 [] :=
  ⟨by simp, rfl, fun front hfront ↦ by rw [List.prefix_nil.1 hfront]; rfl⟩

/-- One token more, with its parentheses. -/
theorem cons (opened shut : ℕ) (hline : t.kind ≠ .newline)
    (hopened : ∀ ts, countKind .leftParen (t :: ts) = countKind .leftParen ts + opened)
    (hshut : ∀ ts, countKind .rightParen (t :: ts) = countKind .rightParen ts + shut)
    (hdepth : depth + opened = depth' + shut) (h : Balances depth' tokens) :
    Balances depth (t :: tokens) := by
  refine ⟨List.forall_mem_cons.2 ⟨hline, h.inline⟩, ?_, fun front hfront ↦ ?_⟩
  · have := h.closed
    rw [hopened, hshut]
    omega
  · rcases front with - | ⟨u, front⟩
    · exact Nat.zero_le _
    · obtain ⟨rfl, hmore⟩ := List.cons_prefix_cons.1 hfront
      have := h.nested front hmore
      rw [hopened, hshut]
      omega

theorem left (ht : t.kind = .leftParen) (h : Balances (depth + 1) tokens) :
    Balances depth (t :: tokens) :=
  cons 1 0 (by simp [ht]) (by simp [countKind, ht]) (by simp [countKind, ht]) rfl h

theorem right (ht : t.kind = .rightParen) (h : Balances depth tokens) :
    Balances (depth + 1) (t :: tokens) :=
  cons 0 1 (by simp [ht]) (by simp [countKind, ht]) (by simp [countKind, ht]) rfl h

theorem passed (ht : isPassed t.kind = true) (h : Balances depth tokens) :
    Balances depth (t :: tokens) := by
  have hkind : t.kind ≠ .newline ∧ t.kind ≠ .leftParen ∧ t.kind ≠ .rightParen := by
    refine ⟨?_, ?_, ?_⟩ <;> intro hk <;> simp [isPassed, hk] at ht
  exact cons 0 0 hkind.1 (by simp [countKind, hkind.2.1]) (by simp [countKind, hkind.2.2]) rfl h

theorem append_passed {front : List Token} (hfront : ∀ u ∈ front, isPassed u.kind = true)
    (h : Balances depth tokens) : Balances depth (front ++ tokens) := by
  induction front with
  | nil => exact h
  | cons u front ih =>
    obtain ⟨hu, hfront⟩ := List.forall_mem_cons.1 hfront
    exact (ih hfront).passed hu

end Balances

theorem colonBehindList_append {front : List Token} (h : ∀ u ∈ front, isPassed u.kind = true)
    (depth : ℕ) : colonBehindList depth (front ++ tokens) = colonBehindList depth tokens := by
  induction front with
  | nil => rfl
  | cons u front ih =>
    obtain ⟨hu, hfront⟩ := List.forall_mem_cons.1 h
    rw [List.cons_append, colonBehindList_passed hu, ih hfront]

/-- **What the search for the colon passes over** is balanced, up to the parenthesis before the
colon. -/
theorem exists_of_colonBehindList {depth : ℕ} (h : colonBehindList (depth + 1) tokens = true) :
    ∃ (inner rest : List Token) (right colon : Token), tokens = inner ++ right :: colon :: rest ∧
      right.kind = .rightParen ∧ colon.kind = .colon ∧ Balances depth inner := by
  induction tokens generalizing depth with
  | nil => cases h
  | cons t tokens ih =>
    by_cases hpassed : isPassed t.kind = true
    · rw [colonBehindList_passed hpassed] at h
      obtain ⟨inner, rest, right, colon, rfl, hright, hcolon, hinner⟩ := ih h
      exact ⟨t :: inner, rest, right, colon, rfl, hright, hcolon, hinner.passed hpassed⟩
    by_cases hleft : t.kind = .leftParen
    · simp only [colonBehindList, hleft] at h
      obtain ⟨inner, rest, right, colon, rfl, hright, hcolon, hinner⟩ := ih h
      exact ⟨t :: inner, rest, right, colon, rfl, hright, hcolon, hinner.left hleft⟩
    by_cases hright : t.kind = .rightParen
    · simp only [colonBehindList, hright] at h
      rcases depth with - | depth
      · rcases tokens with - | ⟨colon, rest⟩
        · simp [kindAhead] at h
        · exact ⟨[], rest, t, colon, rfl, hright, by simpa [kindAhead] using h, .nil⟩
      · rw [if_neg (by omega)] at h
        obtain ⟨inner, rest, right, colon, rfl, hright', hcolon, hinner⟩ := ih h
        exact ⟨t :: inner, rest, right, colon, rfl, hright', hcolon, hinner.right hright⟩
    · rcases hk : t.kind <;> simp [isPassed, hk] at hpassed hleft hright <;>
        simp [colonBehindList, hk] at h

/-! ### Programs and refusals -/

/-- The tokens of a program, without the end of the text. -/
def IsProgram (tokens : List Token) : Prop :=
  ∃ (ds : List Procedure) (s : Statement) (ss : List Statement),
    tokens = ds.flatMap Procedure.tokens ++ (s :: ss).flatMap Statement.tokens

theorem IsProgram.append (ds : List Procedure) (h : IsProgram tokens) :
    IsProgram (ds.flatMap Procedure.tokens ++ tokens) := by
  obtain ⟨ds', s, ss, rfl⟩ := h
  exact ⟨ds ++ ds', s, ss, by simp⟩

theorem isProgram_of_sequence (h : IsSequence false tokens) (hne : tokens ≠ []) :
    IsProgram tokens := by
  obtain ⟨ss, rfl⟩ := h
  rcases ss with - | ⟨s, ss⟩
  · exact absurd rfl hne
  · exact ⟨[], s, ss, rfl⟩

theorem isProgram_of_statement (s : Statement) : IsProgram s.tokens :=
  ⟨[], s, [], by simp⟩

/-- No program is read from these tokens. -/
def Refuses (stop : Token) (tokens : List Token) : Prop :=
  (∃ f, definitions stop tokens = .error f) ∨
    ∃ ds rest f, Reads (definitions stop tokens) ds rest ∧ mainBlock stop rest = .error f

theorem refuses_iff {scan : Scan} :
    Refuses scan.last scan.tokens ↔ ∃ f, Program.ofScan scan = .error f := by
  simp only [Program.ofScan_eq_error_iff]
  constructor
  · rintro (⟨f, hf⟩ | ⟨ds, rest, f, hds, hf⟩)
    · exact ⟨f, Or.inl hf⟩
    · exact ⟨f, Or.inr ⟨ds, rest, hds, hf⟩⟩
  · rintro ⟨f, hf | ⟨ds, rest, hds, hf⟩⟩
    · exact Or.inl ⟨f, hf⟩
    · exact Or.inr ⟨ds, rest, f, hds, hf⟩

theorem Refuses.append (ds : List Procedure) (h : Refuses stop tokens) :
    Refuses stop (ds.flatMap Procedure.tokens ++ tokens) := by
  induction ds with
  | nil => exact h
  | cons d ds ih =>
    have hahead := d.definitionAhead_tokens (ds.flatMap Procedure.tokens ++ tokens)
    rw [List.flatMap_cons, List.append_assoc]
    rw [d.tokens_append] at hahead ⊢
    rcases ih with ⟨f, hf⟩ | ⟨found, rest, f, hfound, hf⟩
    · exact Or.inl ⟨f, definitions_eq_error_iff.2 ⟨_, _, rfl, hahead, Or.inr ⟨_, _, d.reads _, hf⟩⟩⟩
    · exact Or.inr ⟨_, rest, f, definitions_cons hahead (d.reads _) hfound, hf⟩

theorem refuses_of_definition {name : Token} (hahead : definitionAhead (name :: tokens) = true)
    (h : definition stop name tokens = .error f) : Refuses stop (name :: tokens) :=
  Or.inl ⟨f, definitions_eq_error_iff.2 ⟨name, tokens, rfl, hahead, Or.inl h⟩⟩

theorem refuses_of_mainBlock (hahead : definitionAhead tokens = false)
    (h : mainBlock stop tokens = .error f) : Refuses stop tokens :=
  Or.inr ⟨[], tokens, f, definitions_stop hahead, h⟩

/-- A fault, the tokens before it and those from the faulty one on. The tokens before it can be
completed, and other texts that begin with the same tokens are refused, unless the faulty one is
inside of a head. -/
structure Site (stop : Token) (f : Fault) (before ahead : List Token) : Prop where
  token_eq : f.token = current stop ahead
  apt : f.Apt
  completable : Completable IsProgram before
  refuses : ∀ t after, ahead = t :: after → InsideHead before t after ∨
    ∀ stop' after', Refuses stop' (before ++ t :: after')

/-! ### Parameter lists -/

/-- The tokens of some parameters, each with a comma behind it. -/
def pairTokens (pairs : List (Leaf .parameter × Leaf .comma)) : List Token :=
  pairs.flatMap fun x ↦ [x.1.token, x.2.token]

/-- Behind a comma both kinds of list need something else than a parenthesis. For parameters … -/
theorem parameters_pairs {procedure : String} {ahead : List Token}
    (hahead : kindAhead ahead ≠ some .parameter) (pairs : List (Leaf .parameter × Leaf .comma))
    (names : List String) :
    ∃ f, parameters stop procedure names (pairTokens pairs ++ ahead) = .error f := by
  induction pairs generalizing names with
  | nil => exact ⟨_, parameters_eq_error_iff.2 (Or.inl ⟨hahead, rfl⟩)⟩
  | cons x pairs ih =>
    by_cases hnew : x.1.token.text ∈ names
    · exact ⟨_, parameters_eq_error_iff.2 (Or.inr (Or.inl ⟨_, _, rfl, x.1.kind_eq, hnew, rfl⟩))⟩
    · obtain ⟨f, hf⟩ := ih (names ++ [x.1.token.text])
      exact ⟨f, parameters_eq_error_iff.2 (Or.inr (Or.inr (Or.inr ⟨_, _, _, rfl, x.1.kind_eq, hnew,
        x.2.kind_eq, hf⟩)))⟩

/-- … and for arguments, of which the parameters are references. -/
theorem arguments_pairs {ahead : List Token} (hahead : opensArgument (kindAhead ahead) = false)
    (pairs : List (Leaf .parameter × Leaf .comma)) :
    arguments stop (pairTokens pairs ++ ahead) = .error (unexpected stop ahead .argument) := by
  induction pairs with
  | nil =>
    exact arguments_eq_error_iff.2 (Or.inl (argument_eq_error_iff.2
      (Or.inl ⟨argumentForm?_eq_none_iff.2 hahead, rfl⟩)))
  | cons x pairs ih =>
    have hform : argumentForm? (x.1.token :: x.2.token :: (pairTokens pairs ++ ahead)) =
        some .reference := by
      simp [argumentForm?, x.1.kind_eq, kindAhead, x.2.kind_eq]
    exact arguments_eq_error_iff.2 (Or.inr (Or.inr
      ⟨_, _, _, argument_reference hform, x.2.kind_eq, ih⟩))

/-- A parameter list that cannot be read. The tokens before the fault could also start a list of
arguments, and a closing parenthesis is at fault only behind a comma or the opening one. -/
theorem parameters_site {procedure : String} {names : List String}
    (h : parameters stop procedure names tokens = .error f) :
    ∃ before ahead, tokens = before ++ ahead ∧ f.token = current stop ahead ∧ f.Apt ∧
      Completable IsArguments before ∧ (∀ t ∈ before, isPassed t.kind = true) ∧
      (kindAhead ahead = some .rightParen → ∃ pairs, before = pairTokens pairs) := by
  induction hn : tokens.length using Nat.strong_induction_on generalizing tokens names with
  | _ n ih =>
    rcases parameters_eq_error_iff.1 h with ⟨-, rfl⟩ | ⟨t, behind, rfl, ht, -, rfl⟩ |
      ⟨t, behind, rfl, ht, -, -, hright, rfl⟩ | ⟨t, comma, behind, rfl, ht, -, hcomma, hmore⟩
    · exact ⟨[], tokens, rfl, token_unexpected .., apt_unexpected .., completable_argument.close,
        by simp, fun _ ↦ ⟨[], rfl⟩⟩
    · exact ⟨[], t :: behind, rfl, rfl, apt_of_parameter ht (by simp), completable_argument.close,
        by simp, fun _ ↦ ⟨[], rfl⟩⟩
    · exact ⟨[t], behind, rfl, token_unexpected .., apt_unexpected ..,
        (Completable.done ⟨.reference ⟨t, ht⟩, rfl⟩).close, by simp [isPassed, ht],
        fun hahead ↦ absurd hahead hright⟩
    · have hlt : behind.length < n := by
        simp only [← hn, List.length_cons]
        omega
      obtain ⟨before, ahead, rfl, htoken, hapt, hcompletable, hpassed, hpairs⟩ := ih _ hlt hmore rfl
      refine ⟨t :: comma :: before, ahead, rfl, htoken, hapt, ?_, ?_, fun hahead ↦ ?_⟩
      · refine hcompletable.imp [t, comma] ?_
        rintro _ ⟨as, right, rfl⟩
        exact ⟨.cons (.reference ⟨t, ht⟩) ⟨comma, hcomma⟩ as, right, rfl⟩
      · simpa [isPassed, ht, hcomma] using hpassed
      · obtain ⟨pairs, rfl⟩ := hpairs hahead
        exact ⟨(⟨t, ht⟩, ⟨comma, hcomma⟩) :: pairs, rfl⟩

/-- A head that is closed too early is refused, as a definition and as a call. -/
theorem refuses_pairs {name left : Token} (hname : name.kind = .procedure)
    (hleft : left.kind = .leftParen) (pairs : List (Leaf .parameter × Leaf .comma))
    {ahead : List Token} (hahead : kindAhead ahead = some .rightParen) :
    Refuses stop (name :: left :: (pairTokens pairs ++ ahead)) := by
  rcases hdef : definitionAhead (name :: left :: (pairTokens pairs ++ ahead)) with - | -
  · have hcall : call stop name (left :: (pairTokens pairs ++ ahead)) =
        .error (unexpected stop ahead .argument) :=
      call_eq_error_iff.2 ⟨left, _, rfl, hleft, arguments_pairs (by rw [hahead]; rfl) pairs⟩
    have hseq : sequence stop false (name :: left :: (pairTokens pairs ++ ahead)) =
        .error (unexpected stop ahead .argument) :=
      sequence_eq_error_iff.2 (Or.inr (Or.inl ⟨name, _, rfl, hname, hcall⟩))
    refine refuses_of_mainBlock hdef (mainBlock_eq_error_iff.2 (Or.inr ⟨?_, Or.inl hseq⟩))
    simp [noParameter, hname]
  · have hparam : kindAhead ahead ≠ some .parameter := by simp [hahead]
    obtain ⟨f, hf⟩ := parameters_pairs hparam pairs []
    exact refuses_of_definition hdef (definition_eq_error_iff.2
      (Or.inl (parameterList_eq_error_iff.2 ⟨left, _, rfl, hleft, hf⟩)))

/-! ### Definitions -/

theorem parameterList_site {name : Token} (hahead : definitionAhead (name :: tokens) = true)
    (h : parameterList stop name.text tokens = .error f) :
    ∃ before ahead, name :: tokens = before ++ ahead ∧ Site stop f before ahead := by
  have hname := kind_of_definitionAhead hahead
  obtain ⟨left, behind, rfl, hleft, hparams⟩ := parameterList_eq_error_iff.1 h
  obtain ⟨before, ahead, rfl, htoken, hapt, hcompletable, hpassed, hpairs⟩ :=
    parameters_site hparams
  refine ⟨name :: left :: before, ahead, rfl, htoken, hapt, ?_, ?_⟩
  · refine hcompletable.imp [name, left] ?_
    rintro _ ⟨as, right, rfl⟩
    exact isProgram_of_statement (.applied ⟨name, hname⟩ ⟨left, hleft⟩ as right)
  · rintro t after rfl
    by_cases ht : t.kind = .rightParen
    · obtain ⟨pairs, rfl⟩ := hpairs (by simp [kindAhead, ht])
      exact Or.inr fun stop' after' ↦ refuses_pairs hname hleft pairs (by simp [kindAhead, ht])
    · -- The search for the colon has passed over the faulty token.
      have hsearch : colonBehindList 1 (t :: after) = true := by
        simpa [definitionAhead, hname, hleft, colonBehindList_append hpassed] using hahead
      obtain ⟨inner, rest, right, colon, heq, hright, hcolon, hinner⟩ :=
        exists_of_colonBehindList hsearch
      rcases inner with - | ⟨u, inner⟩
      · rw [List.nil_append, List.cons.injEq] at heq
        exact absurd (heq.1 ▸ hright) ht
      · obtain ⟨rfl, rfl⟩ := List.cons.inj heq
        exact Or.inl ⟨[], before, inner, rest, name, left, right, colon, rfl, rfl, by simp, hname,
          hleft, hinner.append_passed hpassed, hright, hcolon⟩

/-- Whatever the readers refuse of the body of a definition, and of the end of its line. -/
def BodyRefused (stop : Token) (tokens : List Token) (f : Fault) : Prop :=
  sequence stop true tokens = .error f ∨
    (∃ rest, Reads (sequence stop true tokens) [] rest ∧ f = unexpected stop rest .procedureBody) ∨
    ∃ body rest, Reads (sequence stop true tokens) body rest ∧ body ≠ [] ∧
      kindAhead rest ≠ some .newline ∧ f = unexpected stop rest (.token .newline)

/-- The tokens of a body and the end of its line. -/
def IsBody (tokens : List Token) : Prop :=
  ∃ (ts : List Token) (newline : Leaf .newline),
    IsSequence true ts ∧ ts ≠ [] ∧ tokens = ts ++ [newline.token]

theorem Completable.endLine {before : List Token}
    (h : Completable (fun ts ↦ IsSequence true ts ∧ ts ≠ []) before) :
    Completable IsBody before := by
  refine h.snoc .newline ?_
  rintro ts t ⟨hts, hne⟩ ht
  exact ⟨ts, ⟨t, ht⟩, hts, hne, rfl⟩

theorem body_obstacle (hnumerals : Numerals tokens) (h : BodyRefused stop tokens f) :
    ∃ before ahead, tokens = before ++ ahead ∧ Completable IsBody before ∧
      ∃ e, f = unexpected stop ahead e ∧ ∀ stop' ahead', kindAhead ahead' = kindAhead ahead →
        BodyRefused stop' (before ++ ahead') (unexpected stop' ahead' e) := by
  rcases h with hseq | ⟨rest, hread, rfl⟩ | ⟨body, rest, hread, hne, hnewline, rfl⟩
  · obtain ⟨before, ahead, rfl, hne, ⟨fill, hfill⟩, e, hblocks⟩ := sequence_obstacle hnumerals hseq
    have hf := hblocks stop ahead rfl
    refine ⟨before, ahead, rfl, Completable.endLine ⟨fill, fun ts hts ↦ ?_⟩, e, ?_,
      fun stop' ahead' hahead ↦ Or.inl (hblocks stop' ahead' hahead)⟩
    · exact ⟨hfill ts hts, by simp [hne]⟩
    · exact Except.error.inj (hseq.symm.trans hf)
  · obtain ⟨rfl, hstop⟩ := of_sequence_nil hread
    refine ⟨[], rest, rfl, Completable.endLine ?_, _, rfl, fun stop' ahead' hahead ↦ ?_⟩
    · exact .single .command fun t ht ↦
        ⟨(isSequence_nil true).statement_cons (.command ⟨t, ht⟩), by simp⟩
    · exact Or.inr (Or.inl ⟨ahead', sequence_nil (by rw [List.nil_append, hahead, hstop]), rfl⟩)
  · obtain ⟨used, rfl, hused, hnil, hreads⟩ := sequence_rereads hread
    have hused' : used ≠ [] := fun hu ↦ hne (hnil.2 hu)
    exact ⟨used, rest, rfl, Completable.endLine (.done ⟨hused, hused'⟩), _, rfl,
      fun stop' ahead' hahead ↦ Or.inr (Or.inr ⟨body, ahead', hreads stop' ahead' hahead, hne,
        hahead ▸ hnewline, rfl⟩)⟩

/-- A head and a body are a definition, and a command behind it is the main block. -/
theorem Completable.define {before : List Token} (name : Leaf .procedure) (params : Option Params)
    (colon : Leaf .colon) (h : Completable IsBody before) :
    Completable IsProgram (name.token :: (optTokens params ++ colon.token :: before)) := by
  have hdefine : Completable (fun ts ↦ ∃ d : Procedure, ts = d.tokens)
      ((name.token :: (optTokens params ++ [colon.token])) ++ before) := by
    refine h.imp _ ?_
    rintro _ ⟨_, newline, ⟨is, rfl⟩, hne, rfl⟩
    rcases is with - | ⟨i, others⟩
    · exact absurd rfl hne
    · exact ⟨⟨name, params, colon, i, others, newline⟩, by
        simp [Procedure.tokens, optTokens, Items.tokens]⟩
  rw [List.cons_append, List.append_assoc] at hdefine
  refine hdefine.snoc .command ?_
  rintro _ t ⟨d, rfl⟩ ht
  exact ⟨[d], .command ⟨t, ht⟩, [], by simp [Statement.tokens]⟩

/-- **A line that was taken for a definition.** -/
theorem definition_site {name : Token} (hnumerals : Numerals tokens)
    (hahead : definitionAhead (name :: tokens) = true)
    (h : definition stop name tokens = .error f) :
    ∃ before ahead, name :: tokens = before ++ ahead ∧ Site stop f before ahead := by
  have hname := kind_of_definitionAhead hahead
  rcases definition_eq_error_iff.1 h with hparams | ⟨names, rest, hparams, hcolon, -⟩ |
    ⟨names, colon, behind, hparams, hcolon, hbody⟩
  · exact parameterList_site hahead hparams
  · -- The search has found the colon.
    have hnone : kindAhead tokens ≠ some .leftParen ∨ rest ≠ tokens := by
      rcases parameterList_cases hparams with ⟨-, -, hparen⟩ | ⟨t, ts, rfl, -, hread⟩
      · exact Or.inl hparen
      · refine Or.inr fun heq ↦ ?_
        have := hread.length_le
        rw [heq, List.length_cons] at this
        omega
    obtain ⟨params, rfl, -⟩ := exists_of_parameterList hparams
    rw [definitionAhead_head hname params] at hahead
    · exact absurd (by simpa using hahead) hcolon
    · rintro rfl
      exact hnone.resolve_right (not_not_intro rfl)
  · obtain ⟨params, rfl, -⟩ := exists_of_parameterList hparams
    obtain ⟨before, ahead, rfl, hcompletable, e, rfl, hblocks⟩ :=
      body_obstacle hnumerals.of_append.of_cons hbody
    refine ⟨name :: (optTokens params ++ colon :: before), ahead, by simp, token_unexpected ..,
      apt_unexpected .., hcompletable.define ⟨name, hname⟩ params ⟨colon, hcolon⟩, ?_⟩
    rintro t after rfl
    refine Or.inr fun stop' after' ↦ ?_
    rw [List.cons_append, List.append_assoc, List.cons_append]
    have hparen : kindAhead (colon :: (before ++ t :: after')) ≠ some .leftParen := by
      simp [kindAhead, hcolon]
    refine refuses_of_definition ?_ (definition_eq_error_iff.2 (Or.inr (Or.inr
      ⟨_, colon, _, parameterList_complete params hparen, hcolon,
        hblocks stop' (t :: after') rfl⟩)))
    rw [definitionAhead_head hname params fun _ ↦ hparen]
    simp [kindAhead, hcolon]

/-! ### The main block -/

theorem mainBlock_refuses_sequence (h : sequence stop false tokens = .error f) :
    ∃ g, mainBlock stop tokens = .error g := by
  rcases hno : noParameter tokens with g | ⟨⟩
  · exact ⟨g, mainBlock_eq_error_iff.2 (Or.inl hno)⟩
  · exact ⟨f, mainBlock_eq_error_iff.2 (Or.inr ⟨hno, Or.inl h⟩)⟩

/-- A main block that is empty, or that does not reach the end of the text. -/
theorem mainBlock_refuses_rest {v : List Element} (h : Reads (sequence stop false tokens) v rest)
    (hend : v = [] ∨ (current stop rest).kind ≠ .finish) :
    ∃ g, mainBlock stop tokens = .error g := by
  rcases hno : noParameter tokens with g | ⟨⟩
  · exact ⟨g, mainBlock_eq_error_iff.2 (Or.inl hno)⟩
  by_cases hv : v = []
  · subst hv
    exact ⟨_, mainBlock_eq_error_iff.2 (Or.inr ⟨hno, Or.inr (Or.inl ⟨rest, h, rfl⟩)⟩)⟩
  · rcases hno' : noParameter rest with g | ⟨⟩
    · exact ⟨g, mainBlock_eq_error_iff.2 (Or.inr ⟨hno, Or.inr (Or.inr ⟨v, rest, h, hv,
        Or.inl hno'⟩)⟩)⟩
    · exact ⟨_, mainBlock_eq_error_iff.2 (Or.inr ⟨hno, Or.inr (Or.inr ⟨v, rest, h, hv,
        Or.inr ⟨hno', hend.resolve_left hv, rfl⟩⟩)⟩)⟩

theorem completable_program : Completable IsProgram [] :=
  .single .command fun t ht ↦ isProgram_of_statement (.command ⟨t, ht⟩)

theorem mainBlock_obstacle (hnumerals : Numerals tokens) (h : mainBlock stop tokens = .error f) :
    ∃ before ahead, tokens = before ++ ahead ∧ f.token = current stop ahead ∧ f.Apt ∧
      Completable IsProgram before ∧
      ∀ t after, ahead = t :: after → ∀ stop' after',
        ∃ g, mainBlock stop' (before ++ t :: after') = .error g := by
  rcases mainBlock_eq_error_iff.1 h with hno | ⟨-, hseq | ⟨rest, hread, rfl⟩ |
    ⟨v, rest, hread, hne, hend⟩⟩
  · obtain ⟨t, behind, rfl, ht, rfl⟩ := noParameter_eq_error_iff.1 hno
    refine ⟨[], t :: behind, rfl, rfl, apt_of_parameter ht (by simp), completable_program, ?_⟩
    rintro u after ⟨⟩ stop' after'
    have hstop : startsElement false (kindAhead (t :: after')) = false := by
      simp [kindAhead, startsElement, ht]
    exact mainBlock_refuses_rest (sequence_nil hstop) (Or.inl rfl)
  · obtain ⟨before, ahead, rfl, hne, ⟨fill, hfill⟩, e, hblocks⟩ := sequence_obstacle hnumerals hseq
    obtain rfl := Except.error.inj (hseq.symm.trans (hblocks stop ahead rfl))
    refine ⟨before, ahead, rfl, token_unexpected .., apt_unexpected ..,
      ⟨fill, fun ts hts ↦ isProgram_of_sequence (hfill ts hts) (by simp [hne])⟩, ?_⟩
    rintro t after rfl stop' after'
    exact mainBlock_refuses_sequence (hblocks stop' (t :: after') rfl)
  · obtain ⟨rfl, hstop⟩ := of_sequence_nil hread
    refine ⟨[], rest, rfl, token_unexpected .., apt_unexpected .., completable_program, ?_⟩
    rintro t after rfl stop' after'
    exact mainBlock_refuses_rest (sequence_nil hstop) (Or.inl rfl)
  · obtain ⟨used, rfl, hused, hnil, hreads⟩ := sequence_rereads hread
    have hprogram : IsProgram used := isProgram_of_sequence hused fun hu ↦ hne (hnil.2 hu)
    rcases hend with hno | ⟨-, hfinish, rfl⟩
    · obtain ⟨t, behind, rfl, ht, rfl⟩ := noParameter_eq_error_iff.1 hno
      refine ⟨used, t :: behind, rfl, rfl, apt_of_parameter ht (by simp), .done hprogram, ?_⟩
      rintro u after ⟨⟩ stop' after'
      exact mainBlock_refuses_rest (hreads stop' (t :: after') rfl)
        (Or.inr (by simp [current, ht]))
    · refine ⟨used, rest, rfl, token_unexpected .., apt_unexpected .., .done hprogram, ?_⟩
      rintro t after rfl stop' after'
      exact mainBlock_refuses_rest (hreads stop' (t :: after') rfl) (Or.inr hfinish)

/-- **A head without its colon is a call**, which refers to the parameters. -/
theorem exists_statement_of_head (name : Leaf .procedure) (params : Option Params) :
    ∃ s : Statement, s.tokens = name.token :: optTokens params := by
  rcases params with - | ⟨left, first, others, right, distinct⟩
  · exact ⟨.plain name, rfl⟩
  · have hargs : ∀ (others : List (Leaf .comma × Leaf .parameter)) (first : Leaf .parameter),
        ∃ as : Args, as.tokens = first.token :: paramTokens others := by
      intro others
      induction others with
      | nil => exact fun first ↦ ⟨.last (.reference first), rfl⟩
      | cons x others ih =>
        intro first
        obtain ⟨as, has⟩ := ih x.2
        exact ⟨.cons (.reference first) x.1 as, by simp [Args.tokens, Arg.tokens, has]⟩
    obtain ⟨as, has⟩ := hargs others first
    exact ⟨.applied name left as right, by simp [Statement.tokens, optTokens, Params.tokens, has]⟩

/-- Two ways to split the same tokens: the first one comes before the second, or it does not. -/
theorem split_cases {before after front back : List Token} {t u : Token}
    (h : before ++ t :: after = front ++ u :: back) :
    (∃ more, front = before ++ t :: more) ∨ ∃ more, before ++ [t] = front ++ u :: more := by
  rcases List.append_eq_append_iff.1 h with ⟨- | ⟨v, more⟩, hfront, hrest⟩ |
    ⟨- | ⟨v, more⟩, hbefore, hrest⟩
  · obtain ⟨rfl, -⟩ := List.cons.inj hrest
    exact Or.inr ⟨[], by simp [hfront]⟩
  · obtain ⟨rfl, -⟩ := List.cons.inj hrest
    exact Or.inl ⟨more, hfront⟩
  · obtain ⟨rfl, -⟩ := List.cons.inj hrest
    exact Or.inr ⟨[], by simp [hbefore]⟩
  · obtain ⟨rfl, -⟩ := List.cons.inj hrest
    exact Or.inr ⟨more ++ [t], by simp [hbefore]⟩

/-- **A line that was taken for the main block.** -/
theorem mainBlock_site (hnumerals : Numerals tokens) (hahead : definitionAhead tokens = false)
    (h : mainBlock stop tokens = .error f) :
    ∃ before ahead, tokens = before ++ ahead ∧ Site stop f before ahead := by
  obtain ⟨before, ahead, rfl, htoken, hapt, hcompletable, hblocks⟩ :=
    mainBlock_obstacle hnumerals h
  refine ⟨before, ahead, rfl, htoken, hapt, hcompletable, ?_⟩
  rintro t after rfl
  refine Or.inr fun stop' after' ↦ ?_
  rcases hdef : definitionAhead (before ++ t :: after') with - | -
  · obtain ⟨g, hg⟩ := hblocks t after rfl stop' after'
    exact refuses_of_mainBlock hdef hg
  rcases hds : definitions stop' (before ++ t :: after') with g | found
  · exact Or.inl ⟨g, hds⟩
  -- Otherwise the other text starts with a definition, up to the colon of which it is a call.
  exfalso
  rcases definitions_cases (Reads.of_eq_ok hds) with ⟨-, -, hno⟩ |
    ⟨name, behind, d, rest, more, heq, -, -, hd, -⟩
  · rw [hdef] at hno
    cases hno
  obtain ⟨d', hd', -⟩ := exists_of_definition (kind_of_definitionAhead (heq ▸ hdef)) hd
  rw [hd', d'.tokens_append, ← List.cons_append] at heq
  rcases split_cases heq with ⟨more, hcall⟩ | ⟨more, hhead⟩
  · -- The faulty token is a part of that call, but the main block reads calls.
    obtain ⟨s, hs⟩ := exists_statement_of_head d'.name d'.params
    obtain ⟨g, hg⟩ := hblocks t after rfl (Token.finish []) more
    have hmain : mainBlock (Token.finish []) ([s].flatMap Statement.tokens) = .ok [s.tree] :=
      mainBlock_complete s [] rfl
    rw [List.flatMap_singleton, hs, hcall, hg] at hmain
    cases hmain
  · -- The colon is not behind the faulty token, so this text starts with the same head.
    rw [List.append_cons, hhead, List.append_assoc, List.cons_append, List.cons_append,
      definitionAhead_head d'.name.kind_eq d'.params] at hahead
    · simp [kindAhead, d'.colon.kind_eq] at hahead
    · simp [kindAhead, d'.colon.kind_eq]

/-! ### Programs -/

theorem exists_of_definitions_error (h : definitions stop tokens = .error f) :
    ∃ (ds : List Procedure) (name : Token) (behind : List Token),
      tokens = ds.flatMap Procedure.tokens ++ name :: behind ∧
      definitionAhead (name :: behind) = true ∧ definition stop name behind = .error f := by
  induction hn : tokens.length using Nat.strong_induction_on generalizing tokens with
  | _ n ih =>
    obtain ⟨name, behind, rfl, hahead, hd | ⟨d, after, hd, hmore⟩⟩ := definitions_eq_error_iff.1 h
    · exact ⟨[], name, behind, rfl, hahead, hd⟩
    · have hlt : after.length < n := by
        have := hd.length_le
        simp only [← hn, List.length_cons]
        omega
      obtain ⟨d', hd', -⟩ := exists_of_definition (kind_of_definitionAhead hahead) hd
      obtain ⟨ds, name', behind', rfl, hahead', herr⟩ := ih _ hlt hmore rfl
      exact ⟨d' :: ds, name', behind', by simp [hd'], hahead', herr⟩

theorem definitionAhead_of_definitions {ds : List Definition}
    (h : Reads (definitions stop tokens) ds rest) : definitionAhead rest = false := by
  induction ds generalizing tokens with
  | nil =>
    rcases definitions_cases h with ⟨-, rfl, hno⟩ | ⟨_, _, _, _, _, -, -, hnil, -⟩
    · exact hno
    · cases hnil
  | cons d ds ih =>
    rcases definitions_cases h with ⟨hnil, -⟩ | ⟨_, _, _, _, _, -, -, heq, -, hmore⟩
    · cases hnil
    · obtain ⟨-, rfl⟩ := List.cons.inj heq
      exact ih hmore

/-- Behind a definition a line starts. -/
theorem getLast?_procedures (ds : List Procedure) :
    ∀ u ∈ (ds.flatMap Procedure.tokens).getLast?, u.kind = .newline := by
  intro u hu
  rcases List.eq_nil_or_concat ds with rfl | ⟨ds, d, rfl⟩
  · cases hu
  · have hlast : d.tokens = (d.name.token :: ((d.params.map Params.tokens).getD [] ++
        d.colon.token :: (d.first.tokens ++ d.others.tokens))) ++ [d.newline.token] := by
      simp [Procedure.tokens]
    rw [List.concat_eq_append, List.flatMap_append, List.flatMap_singleton, hlast,
      ← List.append_assoc, List.getLast?_concat, Option.mem_some_iff] at hu
    rw [← hu, d.newline.kind_eq]

theorem Site.append {before ahead : List Token} (ds : List Procedure)
    (h : Site stop f before ahead) : Site stop f (ds.flatMap Procedure.tokens ++ before) ahead := by
  refine ⟨h.token_eq, h.apt, h.completable.imp _ fun _ hts ↦ hts.append ds, fun t after heq ↦ ?_⟩
  rcases h.refuses t after heq with hinside | hrefuses
  · exact Or.inl (hinside.append_left (getLast?_procedures ds))
  · refine Or.inr fun stop' after' ↦ ?_
    rw [List.append_assoc]
    exact (hrefuses stop' after').append ds

/-- **Every fault has its site** among the tokens. -/
theorem exists_site {scan : Scan} (hnumerals : Numerals scan.tokens)
    (h : Program.ofScan scan = .error f) :
    ∃ before ahead, scan.tokens = before ++ ahead ∧ Site scan.last f before ahead := by
  rcases Program.ofScan_eq_error_iff.1 h with hds | ⟨ds, rest, hds, hmain⟩
  · obtain ⟨ds, name, behind, htokens, hahead, hd⟩ := exists_of_definitions_error hds
    rw [htokens] at hnumerals
    obtain ⟨before, ahead, heq, hsite⟩ := definition_site hnumerals.of_append.of_cons hahead hd
    exact ⟨_, ahead, by rw [htokens, heq, List.append_assoc], hsite.append ds⟩
  · obtain ⟨ds', htokens, -⟩ := exists_of_definitions hds
    rw [htokens] at hnumerals
    obtain ⟨before, ahead, rfl, hsite⟩ :=
      mainBlock_site hnumerals.of_append (definitionAhead_of_definitions hds) hmain
    exact ⟨_, ahead, by rw [htokens, List.append_assoc], hsite.append ds'⟩

end Grammar

end RobotGolf
