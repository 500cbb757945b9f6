import Mathlib.Algebra.Ring.Int.Defs
import RobotGolf.Machine.Basic
/-!
# The recursive meaning of programs

What a sequence means in a scope, said by recursion and without a machine: element by element and
from left to right, a command stands for itself, a deferred sequence for its meaning in the scope
that it was quoted in, and a call for the meaning of the body of its procedure in a fresh scope. The
first failure ends everything.

## Why meanings are cut

The recursion need not end, and the meaning of a program may be an infinite sequence of actions.
`Program.meaning` is therefore looked into to some depth only: where calls and deferred sequences
are nested deeper than that, the course of actions is **cut**, and nothing behind the cut is looked
at. Courses are ordered by how much of them is known (`Course.Le`), the meaning to a greater depth
is known better (`Program.meaning_le`), and what the first `n` actions are is settled once the cut
lies behind them (`Course.take_of_le`). The meaning of the program itself is the limit, and
everything that is said about it is said for all depths from some depth on.

Nothing of the machine is used here but its values and the names of its failures. In particular
arguments, sums and fresh scopes are given again, in the form in which one would explain them.
-/

namespace RobotGolf

/-! ### Courses -/

/-- How a course of actions ends. -/
inductive Ending where
  | finished
  | failed (failure : Failure)
  /-- A sum with a blank operand was asked for its value. -/
  | undefined
  /-- The course goes on where it was not looked into. -/
  | cut
  deriving DecidableEq, Repr

/-- A finite course of actions and how it ends. -/
@[ext]
structure Course where
  actions : List Action
  ending : Ending
  deriving DecidableEq, Repr

namespace Course

/-- No action, and nothing wrong. -/
def nothing : Course := ⟨[], .finished⟩

/-- A single action. -/
def only (a : Action) : Course := ⟨[a], .finished⟩

/-- A failure. -/
def fail (failure : Failure) : Course := ⟨[], .failed failure⟩

/-- One course after the other; the second one is not reached unless the first one finishes. -/
def andThen (c d : Course) : Course :=
  match c.ending with
  | .finished => ⟨c.actions ++ d.actions, d.ending⟩
  | _ => c

/-- What a request for `n` actions has to be answered with: the actions, fewer than `n` only if the
course ends before, and the failure that it ends with. There is no answer if the course is cut
before, or has an undefined end. -/
def take (c : Course) (n : ℕ) : Option (List Action × Option Failure) :=
  if n ≤ c.actions.length then some (c.actions.take n, none)
  else
    match c.ending with
    | .finished => some (c.actions, none)
    | .failed failure => some (c.actions, some failure)
    | .undefined => none
    | .cut => none

/-- One course is a part of the other as far as it is known. -/
def Le (c d : Course) : Prop := c = d ∨ (c.ending = .cut ∧ c.actions <+: d.actions)

variable {c c' d d' : Course}

theorem andThen_of_finished (h : c.ending = .finished) :
    c.andThen d = ⟨c.actions ++ d.actions, d.ending⟩ := by
  rw [andThen, h]

theorem andThen_of_ne (h : c.ending ≠ .finished) : c.andThen d = c := by
  rcases hc : c.ending with - | failure | - | - <;> simp_all [andThen]

@[simp]
theorem nothing_andThen (d : Course) : nothing.andThen d = d := rfl

@[simp]
theorem andThen_nothing (c : Course) : c.andThen nothing = c := by
  by_cases h : c.ending = .finished
  · rw [andThen_of_finished h]
    ext1
    · exact List.append_nil _
    · exact h.symm
  · exact andThen_of_ne h

theorem andThen_assoc (c d e : Course) :
    (c.andThen d).andThen e = c.andThen (d.andThen e) := by
  by_cases hc : c.ending = .finished
  · by_cases hd : d.ending = .finished
    · simp [andThen, hc, hd, List.append_assoc]
    · have hcd : (c.andThen d).ending ≠ .finished := by rwa [andThen_of_finished hc]
      rw [andThen_of_ne hcd, andThen_of_ne hd]
  · have hcd : (c.andThen d).ending ≠ .finished := by rwa [andThen_of_ne hc]
    rw [andThen_of_ne hcd, andThen_of_ne hc, andThen_of_ne hc]

/-! ### Knowing more of a course -/

theorem Le.refl (c : Course) : c.Le c := Or.inl rfl

theorem Le.actions_le (h : c.Le d) : c.actions <+: d.actions := by
  rcases h with rfl | ⟨-, h⟩
  · exact List.prefix_rfl
  · exact h

theorem Le.trans (h : c.Le d) (h' : d.Le d') : c.Le d' := by
  rcases h with rfl | ⟨hcut, hpre⟩
  · exact h'
  · exact Or.inr ⟨hcut, hpre.trans h'.actions_le⟩

/-- Where a course is cut, knowing more of it or of what follows it reveals more of both. -/
theorem Le.andThen (h : c.Le c') (h' : d.Le d') : (c.andThen d).Le (c'.andThen d') := by
  rcases h with rfl | ⟨hcut, hpre⟩
  · by_cases hc : c.ending = .finished
    · rw [andThen_of_finished hc, andThen_of_finished hc]
      rcases h' with rfl | ⟨hcut, hpre⟩
      · exact Le.refl _
      · exact Or.inr ⟨hcut, (List.prefix_append_right_inj _).2 hpre⟩
    · rw [andThen_of_ne hc, andThen_of_ne hc]
      exact Le.refl c
  · -- nothing of `d` shows behind the cut, whatever `c'` and `d'` reveal
    have hc : c.ending ≠ .finished := by simp [hcut]
    rw [andThen_of_ne hc]
    refine Or.inr ⟨hcut, hpre.trans ?_⟩
    by_cases hc' : c'.ending = .finished
    · rw [andThen_of_finished hc']
      exact List.prefix_append _ _
    · have heq : c'.andThen d' = c' := andThen_of_ne hc'
      exact heq.symm ▸ List.prefix_rfl

/-- **What is known stays known.** -/
theorem take_of_le (h : c.Le d) {n : ℕ} {r : List Action × Option Failure}
    (hr : c.take n = some r) : d.take n = some r := by
  rcases h with rfl | ⟨hcut, hpre⟩
  · exact hr
  · by_cases hn : n ≤ c.actions.length
    · obtain ⟨more, hmore⟩ := hpre
      have hn' : n ≤ d.actions.length := by
        rw [← hmore, List.length_append]
        omega
      rw [take, if_pos hn] at hr
      rw [take, if_pos hn', ← hr, ← hmore, List.take_append_of_le_length hn]
    · rw [take, if_neg hn, hcut] at hr
      simp at hr

/-- The first action, and then the others. -/
theorem take_only_andThen (a : Action) (c : Course) (n : ℕ) :
    ((only a).andThen c).take (n + 1) = (c.take n).map fun r ↦ (a :: r.1, r.2) := by
  have hcourse : (only a).andThen c = ⟨a :: c.actions, c.ending⟩ := rfl
  rw [hcourse]
  simp only [take, List.length_cons, Nat.add_le_add_iff_right, List.take_succ_cons]
  split
  · rfl
  · rcases c.ending with - | failure | - | - <;> rfl

end Course

/-! ### Arguments -/

/-- The number that an operand stands for. -/
def Operand.meaning (e : Env) : Operand → Except NoValue ℤ
  | literal n => .ok n
  | parameter name =>
    match e.find? name with
    | some (.number n) => .ok n
    | some (.deferred body _) =>
      .error (.failure (.sequenceInArithmetic name (Element.renderSequence body)))
    | none => .error (.failure (.unboundParameter name))
  | blank => .error .blank

/-- What a term contributes to its sum. -/
def Term.meaning (e : Env) (t : Term) : Except NoValue ℤ :=
  (t.operand.meaning e).map fun n ↦ if t.negative then -n else n

/-- The sum of all terms, unless one of them has no value. -/
def Arithmetic.meaning (e : Env) (a : Arithmetic) : Except NoValue ℤ :=
  (a.terms.mapM (Term.meaning e)).map List.sum

/-- What an argument stands for in the scope of the caller. A quoted sequence captures the scope. -/
def Argument.meaning (e : Env) : Argument → Except NoValue (Value Env)
  | parameter name _ =>
    match e.find? name with
    | some v => .ok v
    | none => .error (.failure (.unboundParameter name))
  | quoted body _ => .ok (.deferred body e)
  | arithmetic sum => (sum.meaning e).map Value.number

/-- The values of all arguments, from left to right. The first one without a value ends this, and so
does the first one that is the number zero: then there are none. -/
def Argument.meanings (e : Env) : List Argument → Except NoValue (Option (List (Value Env)))
  | [] => .ok (some [])
  | a :: rest =>
    match a.meaning e with
    | .error cause => .error cause
    | .ok (.number 0) => .ok none
    | .ok v => (Argument.meanings e rest).map (Option.map (v :: ·))

/-- The fresh scope of a call, which binds exactly the parameters. The last one comes first, as
scopes have it; the order does not matter, the names being distinct. -/
def Definition.scope (d : Definition) (values : List (Value Env)) : Env :=
  .mk ⟨.ofString d.name, ((d.params.map .ofString).zip values).reverse⟩

/-! ### Elements, sequences, programs -/

/-- The course of an argument that has no value. -/
def NoValue.course : NoValue → Course
  | failure f => Course.fail f
  | blank => ⟨[], .undefined⟩

/-- What an element means in a scope. Other sequences have the meaning `inner`, and `sole` says
whether the element is the only one of its own sequence. -/
def Element.meaning (p : Program) (inner : Env → List Element → Course) (sole : Bool) (e : Env) :
    Element → Course
  | command c _ => .only (.command c)
  | parameter name _ =>
    match e.find? name with
    | some (.deferred body captured) => inner captured body
    | some (.number n) =>
      if sole then .only (.number n) else .fail (.numberAmongStatements name n)
    | none => .fail (.unboundParameter name)
  | call callee args _ =>
    match p.find? callee with
    | none => .fail (.missingProcedure callee)
    | some d =>
      if args.length ≠ d.params.length then .fail (.arity d.name d.params.length args.length)
      else
        match Argument.meanings e args with
        | .error cause => cause.course
        | .ok none => .nothing
        | .ok (some values) => inner (d.scope values) d.body

/-- What some elements mean one after the other. -/
def Element.meanings (p : Program) (inner : Env → List Element → Course) (sole : Bool) (e : Env) :
    List Element → Course
  | [] => .nothing
  | x :: rest => (x.meaning p inner sole e).andThen (Element.meanings p inner sole e rest)

/-- What a sequence means in a scope, looked into to some depth. -/
def Program.meaning (p : Program) : ℕ → Env → List Element → Course
  | 0, _, _ => ⟨[], .cut⟩
  | k + 1, e, body => Element.meanings p (p.meaning k) (body.length == 1) e body

/-! ### Looking deeper -/

section

variable {p : Program} {inner inner' : Env → List Element → Course}

theorem Element.meaning_le (h : ∀ e body, (inner e body).Le (inner' e body)) (sole : Bool) (e : Env)
    (x : Element) : (x.meaning p inner sole e).Le (x.meaning p inner' sole e) := by
  cases x with
  | command c s => exact Course.Le.refl _
  | parameter name s =>
    simp only [meaning]
    rcases e.find? name with - | n | ⟨body, captured⟩
    · exact Course.Le.refl _
    · exact Course.Le.refl _
    · exact h captured body
  | call callee args s =>
    simp only [meaning]
    rcases p.find? callee with - | d
    · exact Course.Le.refl _
    · simp only
      split
      · exact Course.Le.refl _
      · rcases Argument.meanings e args with cause | - | values
        · exact Course.Le.refl _
        · exact Course.Le.refl _
        · exact h _ _

theorem Element.meanings_le (h : ∀ e body, (inner e body).Le (inner' e body)) (sole : Bool)
    (e : Env) (body : List Element) :
    (Element.meanings p inner sole e body).Le (Element.meanings p inner' sole e body) := by
  induction body with
  | nil => exact Course.Le.refl _
  | cons x rest ih => exact (x.meaning_le h sole e).andThen ih

theorem Program.meaning_le_succ (p : Program) (k : ℕ) (e : Env) (body : List Element) :
    (p.meaning k e body).Le (p.meaning (k + 1) e body) := by
  induction k generalizing e body with
  | zero => exact Or.inr ⟨rfl, List.nil_prefix⟩
  | succ k ih => exact Element.meanings_le ih _ e body

/-- **Looking deeper reveals more.** -/
theorem Program.meaning_le (p : Program) {k j : ℕ} (h : k ≤ j) (e : Env) (body : List Element) :
    (p.meaning k e body).Le (p.meaning j e body) := by
  induction h with
  | refl => exact Course.Le.refl _
  | step _ ih => exact ih.trans (p.meaning_le_succ _ e body)

end

end RobotGolf
