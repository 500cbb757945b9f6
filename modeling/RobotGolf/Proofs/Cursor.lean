import Mathlib.Data.Int.Notation
import Mathlib.Data.Nat.Notation
import RobotGolf.Program.Parse
/-!
# Reading with a cursor

The readers of `RobotGolf.Parse` take the tokens ahead of them as a list, which cannot be left. Here
the same grammar is read with a cursor, a position in the list of all tokens. The token that ended
the scan is the last one of them, and the cursor does not pass it. A cursor can go wrong, and
whatever must not happen to it is a `Breach`:

* a token is looked for where there is none, be it at the cursor, ahead of it or behind it;
* the first octet of a command is looked for, and the command has none;
* a loop goes round again, or the arguments of a call are entered, with a cursor that has not been
  moved on (`Onward`);
* the search for the end of a parameter list goes beyond the last token.

Since every repetition asks for a cursor that is further on, reading ends whatever the tokens are:
the recursion is on the number of tokens from the cursor on.

Where the cursor is can be told from the tokens that are ahead of it (`Ahead`), and what it finds
there is what a reader finds at the head of its list. A cursor with fewer tokens ahead of it is
further on (`Ahead.onward`).
-/

namespace RobotGolf

/-- The ways to go wrong with a cursor. -/
inductive Breach where
  /-- a position at which there is no token -/
  | outside
  /-- the first octet of a command that has none -/
  | unspelled
  /-- going on without having consumed a token -/
  | stalled
  /-- looking further ahead than the last token -/
  | endless
  deriving DecidableEq, Repr

/-- Why reading stopped: a fault of the program, or something that must not happen. -/
inductive Trouble where
  | fault (f : Fault)
  | breach (b : Breach)
  deriving DecidableEq, Repr

/-- What was read, and where the cursor is behind it. -/
structure Found (α : Type) where
  value : α
  pos : ℕ
  deriving DecidableEq, Repr

namespace Cursor

/-! ### The cursor -/

/-- The token at a position. -/
def token (all : List Token) (i : ℕ) : Except Trouble Token :=
  match all[i]? with
  | none => .error (.breach .outside)
  | some t => .ok t

/-- The token that is `n` tokens ahead, or the last one if there are not as many. -/
def peek (all : List Token) (pos n : ℕ) : Except Trouble Token :=
  if pos < all.length then token all (if pos + n < all.length then pos + n else all.length - 1)
  else .error (.breach .outside)

/-- The token ahead, and the cursor behind it. The last token is never passed. -/
def next (all : List Token) (pos : ℕ) : Except Trouble (Found Token) := do
  let t ← peek all pos 0
  return ⟨t, if pos + 1 < all.length then pos + 1 else pos⟩

/-- The token that was consumed last. -/
def lookBack (all : List Token) (pos : ℕ) : Except Trouble Token :=
  if pos = 0 then .error (.breach .outside) else token all (pos - 1)

/-- The token ahead does not fit. -/
def unexpected {α : Type} (all : List Token) (expected : Expected) (pos : ℕ) :
    Except Trouble α := do
  let t ← peek all pos 0
  .error (.fault (Parse.unexpected t [] expected))

/-- A token of a given kind. -/
def expect (all : List Token) (kind : TokenKind) (pos : ℕ) : Except Trouble (Found Token) := do
  let t ← peek all pos 0
  if t.kind = kind then next all pos else unexpected all (.token kind) pos

/-- A cursor has been moved on, to another token. -/
abbrev Onward (all : List Token) (pos pos' : ℕ) : Prop := pos < pos' ∧ pos' < all.length

/-! ### Sums -/

/-- A number or a parameter. -/
def operand (all : List Token) (pos : ℕ) : Except Trouble (Found Operand) := do
  let t ← peek all pos 0
  match Parse.operand? t with
  | none => .error (.fault (Parse.misfit t))
  | some o =>
    let behind ← next all pos
    return ⟨o, behind.pos⟩

/-- The terms of a sum, the sign of the first one having been read. -/
def terms (all : List Token) (negative : Bool) (span : Span) (pos : ℕ) :
    Except Trouble (Found (List Term × Span)) := do
  let o ← operand all pos
  let t ← lookBack all o.pos
  let ahead ← peek all o.pos 0
  if ahead.kind = .plus ∨ ahead.kind = .minus then
    let sign ← next all o.pos
    if _ : Onward all pos sign.pos then
      let more ← terms all (decide (sign.value.kind = .minus)) (span.extend t.span) sign.pos
      return ⟨(⟨negative, o.value⟩ :: more.value.1, more.value.2), more.pos⟩
    else .error (.breach .stalled)
  else return ⟨([⟨negative, o.value⟩], span.extend t.span), o.pos⟩
termination_by all.length - pos

/-- A sum. -/
def arithmetic (all : List Token) (pos : ℕ) : Except Trouble (Found Arithmetic) := do
  let t ← peek all pos 0
  if t.kind = .plus ∨ t.kind = .minus then
    let sign ← next all pos
    let found ← terms all (decide (sign.value.kind = .minus)) t.span sign.pos
    return ⟨⟨true, found.value.1, found.value.2⟩, found.pos⟩
  else
    let found ← terms all false t.span pos
    return ⟨⟨false, found.value.1, found.value.2⟩, found.pos⟩

/-! ### Sequences, calls and arguments -/

/-- The first octet of a lexeme. -/
def firstOctet (t : Token) : Except Trouble UInt8 :=
  match t.lexeme with
  | [] => .error (.breach .unspelled)
  | b :: _ => .ok b

/-- The form of the argument ahead, told from its first two tokens. -/
def argumentForm? (all : List Token) (pos : ℕ) : Except Trouble (Option Parse.ArgumentForm) := do
  let first ← peek all pos 0
  let second ← peek all pos 1
  return Parse.argumentForm? [first, second]

mutual
/-- A run of statements, and of parameters where these are allowed. -/
def sequence (all : List Token) (allowed : Bool) (pos : ℕ) :
    Except Trouble (Found (List Element)) := do
  match ← element? all allowed pos with
  | none => return ⟨[], pos⟩
  | some e =>
    if _ : Onward all pos e.pos then
      let more ← sequence all allowed e.pos
      return ⟨e.value :: more.value, more.pos⟩
    else .error (.breach .stalled)
termination_by 5 * (all.length - pos) + 2

/-- A statement or a parameter, if one is ahead. -/
def element? (all : List Token) (allowed : Bool) (pos : ℕ) :
    Except Trouble (Option (Found Element)) := do
  let t ← peek all pos 0
  match t.kind with
  | .command =>
    let behind ← next all pos
    let octet ← firstOctet t
    return some ⟨.command ⟨octet⟩ t.span, behind.pos⟩
  | .procedure =>
    let e ← call all pos
    return some e
  | .parameter =>
    if allowed then
      let behind ← next all pos
      return some ⟨.parameter t.text t.span, behind.pos⟩
    else return none
  | _ => return none
termination_by 5 * (all.length - pos) + 1

/-- A call. Its arguments start behind the left parenthesis. -/
def call (all : List Token) (pos : ℕ) : Except Trouble (Found Element) := do
  let name ← next all pos
  let t ← peek all name.pos 0
  if t.kind = .leftParen then
    let left ← next all name.pos
    if _ : Onward all pos left.pos then
      let args ← arguments all left.pos
      return ⟨.call name.value.text args.value.1 (name.value.span.extend args.value.2), args.pos⟩
    else .error (.breach .stalled)
  else return ⟨.call name.value.text [] name.value.span, name.pos⟩
termination_by 5 * (all.length - pos)

/-- The arguments of a call, and the span of the right parenthesis. -/
def arguments (all : List Token) (pos : ℕ) : Except Trouble (Found (List Argument × Span)) := do
  let a ← argument all pos
  let t ← peek all a.pos 0
  if t.kind = .comma then
    let comma ← next all a.pos
    if _ : Onward all pos comma.pos then
      let more ← arguments all comma.pos
      return ⟨(a.value :: more.value.1, more.value.2), more.pos⟩
    else .error (.breach .stalled)
  else
    let right ← expect all .rightParen a.pos
    return ⟨([a.value], right.value.span), right.pos⟩
termination_by 5 * (all.length - pos) + 4

/-- An argument of a call. -/
def argument (all : List Token) (pos : ℕ) : Except Trouble (Found Argument) := do
  match ← argumentForm? all pos with
  | none => unexpected all .argument pos
  | some .sum =>
    let sum ← arithmetic all pos
    return ⟨.arithmetic sum.value, sum.pos⟩
  | some .reference =>
    let t ← next all pos
    return ⟨.parameter t.value.text t.value.span, t.pos⟩
  | some .sequence =>
    let body ← sequence all true pos
    return ⟨.quoted body.value (Element.cover body.value), body.pos⟩
termination_by 5 * (all.length - pos) + 3
end

/-! ### Definitions and the main block -/

/-- Whether a colon follows the parenthesis that closes the list ahead, `depth` parentheses being
open in front of the token that is `i` tokens ahead. -/
def colonBehindList (all : List Token) (pos : ℕ) (depth : ℤ) (i : ℕ) : Except Trouble Bool := do
  let t ← peek all pos i
  let depth := if t.kind = .leftParen then depth + 1
    else if t.kind = .rightParen then depth - 1 else depth
  if t.kind = .rightParen ∧ depth = 0 then
    let behind ← peek all pos (i + 1)
    return behind.kind == .colon
  else if t.kind = .newline ∨ t.kind = .finish ∨ t.kind = .illegal then return false
  else if _ : pos + (i + 1) < all.length then colonBehindList all pos depth (i + 1)
  else .error (.breach .endless)
termination_by all.length - (pos + i)

/-- Whether a definition is ahead. -/
def definitionAhead (all : List Token) (pos : ℕ) : Except Trouble Bool := do
  let name ← peek all pos 0
  if name.kind = .procedure then
    let t ← peek all pos 1
    if t.kind = .colon then return true
    else if t.kind = .leftParen then colonBehindList all pos 0 1
    else return false
  else return false

/-- The parameters of a definition behind the left parenthesis, up to and including the right
one. -/
def parameters (all : List Token) (procedure : String) (before : List String) (pos : ℕ) :
    Except Trouble (Found (List String)) := do
  let t ← expect all .parameter pos
  if t.value.text ∈ before then
    .error (.fault ⟨t.value, .duplicateParameter t.value.text procedure⟩)
  else
    let ahead ← peek all t.pos 0
    if ahead.kind = .comma then
      let comma ← next all t.pos
      if _ : Onward all pos comma.pos then
        parameters all procedure (before ++ [t.value.text]) comma.pos
      else .error (.breach .stalled)
    else
      let right ← expect all .rightParen t.pos
      return ⟨before ++ [t.value.text], right.pos⟩
termination_by all.length - pos

/-- The optional parameter list of a definition. -/
def parameterList (all : List Token) (procedure : String) (pos : ℕ) :
    Except Trouble (Found (List String)) := do
  let t ← peek all pos 0
  if t.kind = .leftParen then
    let left ← next all pos
    parameters all procedure [] left.pos
  else return ⟨[], pos⟩

/-- A definition. -/
def definition (all : List Token) (pos : ℕ) : Except Trouble (Found Definition) := do
  let name ← next all pos
  let params ← parameterList all name.value.text name.pos
  let colon ← expect all .colon params.pos
  let body ← sequence all true colon.pos
  match body.value.getLast? with
  | none => unexpected all .procedureBody body.pos
  | some last =>
    let newline ← expect all .newline body.pos
    return ⟨⟨name.value.text, params.value, body.value, name.value.span.extend last.span⟩,
      newline.pos⟩

/-- The definitions in front of the main block. -/
def definitions (all : List Token) (pos : ℕ) : Except Trouble (Found (List Definition)) := do
  if ← definitionAhead all pos then
    let d ← definition all pos
    if _ : Onward all pos d.pos then
      let more ← definitions all d.pos
      return ⟨d.value :: more.value, more.pos⟩
    else .error (.breach .stalled)
  else return ⟨[], pos⟩
termination_by all.length - pos

/-- A parameter outside of a definition is a fault. -/
def noParameter (all : List Token) (pos : ℕ) : Except Trouble Unit := do
  let t ← peek all pos 0
  if t.kind = .parameter then .error (.fault ⟨t, .parameterOutside t.text⟩) else return ()

/-- The main block, which ends with the text. -/
def mainBlock (all : List Token) (pos : ℕ) : Except Trouble (Found (List Element)) := do
  noParameter all pos
  let main ← sequence all false pos
  if main.value.isEmpty then unexpected all .mainBlock main.pos
  else
    noParameter all main.pos
    let finish ← expect all .finish main.pos
    return ⟨main.value, finish.pos⟩

/-- A program, read from the first token on. -/
def program (all : List Token) : Except Trouble (Found Program) := do
  let found ← definitions all 0
  let main ← mainBlock all found.pos
  return ⟨⟨found.value, main.value⟩, main.pos⟩

/-! ### What is ahead -/

variable {α : Type} {all rest rest' : List Token} {stop t : Token} {pos pos' : ℕ}

/-- The cursor is in front of some tokens and of the last one. -/
def Ahead (all : List Token) (stop : Token) (pos : ℕ) (rest : List Token) : Prop :=
  all.drop pos = rest ++ [stop]

namespace Ahead

theorem length_eq (h : Ahead all stop pos rest) : all.length = pos + (rest.length + 1) := by
  have := congrArg List.length h
  simp only [List.length_drop, List.length_append, List.length_singleton] at this
  omega

theorem tail (h : Ahead all stop pos (t :: rest)) : Ahead all stop (pos + 1) rest := by
  rw [Ahead, ← List.tail_drop, h]
  rfl

theorem token_add (h : Ahead all stop pos rest) (n : ℕ) (hle : n ≤ rest.length) :
    token all (pos + n) = .ok (Parse.current stop (rest.drop n)) := by
  have hget : all[pos + n]? = (rest ++ [stop])[n]? := by rw [← h, List.getElem?_drop]
  have hhead : (rest ++ [stop])[n]? = some (Parse.current stop (rest.drop n)) := by
    rcases Nat.lt_or_ge n rest.length with hlt | hge
    · rw [List.getElem?_append_left hlt, Parse.current, List.drop_eq_getElem_cons hlt,
        List.getElem?_eq_getElem hlt]
      rfl
    · obtain rfl : n = rest.length := by omega
      rw [List.getElem?_concat_length, List.drop_length]
      rfl
  rw [token, hget, hhead]

/-- **The tokens ahead are looked at, and then the last one again and again.** -/
theorem peek_eq (h : Ahead all stop pos rest) (n : ℕ) :
    peek all pos n = .ok (Parse.current stop (rest.drop n)) := by
  have hlength := h.length_eq
  rw [peek, if_pos (by omega)]
  split
  · exact h.token_add n (by omega)
  · have hlast : all.length - 1 = pos + rest.length := by omega
    rw [hlast, h.token_add _ (Nat.le_refl _), List.drop_length, List.drop_of_length_le (by omega)]

theorem peek_zero (h : Ahead all stop pos rest) :
    peek all pos 0 = .ok (Parse.current stop rest) := h.peek_eq 0

theorem peek_cons (h : Ahead all stop pos (t :: rest)) : peek all pos 0 = .ok t := h.peek_eq 0

theorem next_eq (h : Ahead all stop pos (t :: rest)) : next all pos = .ok ⟨t, pos + 1⟩ := by
  have hlength := h.length_eq
  rw [next, h.peek_zero, if_pos (by rw [hlength, List.length_cons]; omega)]
  rfl

/-- The last token is not passed. -/
theorem next_nil (h : Ahead all stop pos []) : next all pos = .ok ⟨stop, pos⟩ := by
  have hlength := h.length_eq
  rw [next, h.peek_zero, if_neg (by rw [hlength, List.length_nil]; omega)]
  rfl

theorem lookBack_eq (h : Ahead all stop pos (t :: rest)) : lookBack all (pos + 1) = .ok t := by
  rw [lookBack, if_neg (Nat.succ_ne_zero _), Nat.add_sub_cancel]
  exact h.token_add 0 (Nat.zero_le _)

theorem unexpected_eq (h : Ahead all stop pos rest) (expected : Expected) :
    (unexpected all expected pos : Except Trouble α) =
      .error (.fault (Parse.unexpected stop rest expected)) := by
  rw [unexpected, h.peek_zero]
  rfl

theorem eq_drop {tokens : List Token} (h : Ahead (tokens ++ [stop]) stop pos rest) :
    rest = tokens.drop pos := by
  have hlength := h.length_eq
  rw [List.length_append, List.length_singleton] at hlength
  rw [Ahead, List.drop_append_of_le_length (by omega)] at h
  exact (List.append_cancel_right h).symm

/-- The fewer tokens are ahead, the further on is the cursor. -/
theorem onward (h : Ahead all stop pos rest) (h' : Ahead all stop pos' rest')
    (hlt : rest'.length < rest.length) : Onward all pos pos' := by
  have := h.length_eq
  have := h'.length_eq
  exact ⟨by omega, by omega⟩

end Ahead

end Cursor

end RobotGolf
