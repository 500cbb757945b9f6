import Mathlib.Data.Int.Notation
import RobotGolf.Proofs.CanonicalText
import RobotGolf.Proofs.Lockstep
/-!
# Where a tree was found does not matter

The spans of a tree tell where its nodes were found in a source text. An evaluation carries them
along, in the elements that are left on its frames and in the sequences that its scopes have
captured, but never looks at them. To say so, `erase` is carried over from trees to values, scopes
and frames. It commutes with looking a name up, with the value of an argument and with binding
parameters, and so with what an element asks for (`Frame.demand_erase`).

Thus a program and the same program without its spans run in lockstep (`Program.lockstep_erase`).
What is shown of a tree without spans then holds of the program that is read from its text.
-/

namespace RobotGolf

/-! ### Values and scopes without spans -/

mutual
/-- A scope without the spans in its captured sequences, and in the scopes captured with them. -/
def Env.erase : Env → Env
  | .mk ⟨name, bindings⟩ => .mk ⟨name, Env.eraseBindings bindings⟩

/-- Bindings without spans. -/
def Env.eraseBindings : List (Bytes × Value Env) → List (Bytes × Value Env)
  | [] => []
  | (name, v) :: rest => (name, Value.erase v) :: Env.eraseBindings rest

/-- A value without spans. -/
def Value.erase : Value Env → Value Env
  | .number n => .number n
  | .deferred body captured => .deferred (Element.eraseList body) captured.erase
end

/-- The bindings of a scope without spans. -/
def Scope.erase (s : Scope Env) : Scope Env := ⟨s.name, Env.eraseBindings s.bindings⟩

theorem Env.eraseBindings_eq_map (bindings : List (Bytes × Value Env)) :
    eraseBindings bindings = bindings.map fun b ↦ (b.1, b.2.erase) := by
  induction bindings with
  | nil => rfl
  | cons b rest ih => rw [eraseBindings, ih, List.map_cons]

theorem Env.find?_erase (e : Env) (name : String) :
    e.erase.find? name = (e.find? name).map Value.erase := by
  obtain ⟨label, bindings⟩ := e
  rw [erase, find?, find?]
  show (eraseBindings bindings).lookup (.ofString name) =
    (bindings.lookup (.ofString name)).map Value.erase
  induction bindings with
  | nil => rfl
  | cons b rest ih =>
    obtain ⟨key, v⟩ := b
    rw [eraseBindings, List.lookup_cons, List.lookup_cons]
    split
    · rfl
    · exact ih

theorem Scope.erase_bind (s : Scope Env) (name : Bytes) (v : Value Env) :
    (s.bind name v).erase = s.erase.bind name v.erase := by
  unfold Scope.bind
  split
  · rfl
  · simp only [Scope.erase, Env.eraseBindings_eq_map, List.map_cons, List.filter_map]
    rfl

theorem Value.isZero_erase (v : Value Env) : v.erase.isZero = v.isZero := by
  cases v <;> rfl

/-! ### Arguments -/

theorem Env.lookup_erase (e : Env) (name : String) :
    e.erase.lookup name = (e.lookup name).map Value.erase := by
  rw [lookup, lookup, find?_erase]
  cases e.find? name <;> rfl

/-- The spelling in a failure does not show spans, either. -/
theorem Operand.value_erase (e : Env) (o : Operand) : o.value e.erase = o.value e := by
  cases o with
  | literal n => rfl
  | blank => rfl
  | parameter name =>
    rw [Operand.value, Operand.value, Env.lookup_erase]
    rcases e.lookup name with failure | n | ⟨body, captured⟩
    · rfl
    · rfl
    · simp only [Except.map, Value.erase, Element.renderSequence,
        Element.sequenceSymbols_eraseList]

theorem Term.sum_erase (e : Env) (before : ℤ) (terms : List Term) :
    Term.sum e.erase before terms = Term.sum e before terms := by
  induction terms generalizing before with
  | nil => rfl
  | cons t rest ih =>
    rw [Term.sum, Term.sum, Operand.value_erase]
    simp only [ih]

theorem Argument.value_erase (e : Env) (a : Argument) :
    a.erase.value e.erase = (a.value e).map Value.erase := by
  cases a with
  | parameter name span =>
    rw [Argument.erase, Argument.value, Argument.value, Env.lookup_erase]
    cases e.lookup name <;> rfl
  | quoted body span => rfl
  | arithmetic sum =>
    rw [Argument.erase, Argument.value, Argument.value, Arithmetic.erase, Term.sum_erase]
    cases Term.sum e 0 sum.terms <;> rfl

theorem Argument.bindAll_erase (e : Env) (target : Scope Env) (names : List String)
    (args : List Argument) :
    Argument.bindAll e.erase target.erase names (Argument.eraseList args) =
      (Argument.bindAll e target names args).map (Option.map Scope.erase) := by
  induction names generalizing target args with
  | nil => rfl
  | cons name names ih =>
    rcases args with - | ⟨a, args⟩
    · rfl
    rw [Argument.eraseList, Argument.bindAll, Argument.bindAll, Argument.value_erase]
    rcases a.value e with cause | v
    · rfl
    · simp only [Except.map, Value.isZero_erase]
      split
      · rfl
      · rw [← Scope.erase_bind, ih]
        rfl

/-! ### Frames -/

/-- A frame without spans, in what is left of its sequence and in its scope. -/
def Frame.erase (f : Frame Env) : Frame Env :=
  ⟨f.name, f.passed, Element.eraseList f.rest, f.scope.erase⟩

theorem Program.find?_erase (p : Program) (name : String) :
    p.erase.find? name = (p.find? name).map Definition.erase := by
  rw [find?, find?, erase, List.find?_map]
  rfl

theorem Element.length_eraseList (body : List Element) :
    (eraseList body).length = body.length := by
  rw [eraseList_eq_map, List.length_map]

theorem Argument.length_eraseList (args : List Argument) :
    (eraseList args).length = args.length := by
  induction args with
  | nil => rfl
  | cons a rest ih => rw [eraseList, List.length_cons, List.length_cons, ih]

theorem Frame.sole_erase (f : Frame Env) : f.erase.sole = f.sole := by
  simp only [sole, length, erase, Element.length_eraseList]

/-- **What an element asks for does not depend on spans**, except that the frame it asks for has
some itself. -/
theorem Frame.demand_erase (p : Program) (f : Frame Env) (x : Element) :
    (f.demand p x).Agrees (fun g g' ↦ g' = g.erase) Eq (f.erase.demand p.erase x.erase) := by
  cases x with
  | command c span => exact .deliver _
  | parameter name span =>
    rw [Element.erase, Frame.demand, Frame.demand, f.sole_erase, erase, Env.lookup_erase]
    rcases f.scope.lookup name with failure | n | ⟨body, captured⟩
    · exact .fail rfl
    · show Demand.Agrees _ _ (if f.sole then _ else _) (if f.sole then _ else _)
      split
      · exact .deliver _
      · exact .fail rfl
    · exact .enter rfl
  | call callee args span =>
    rw [Element.erase, Frame.demand, Frame.demand, Program.find?_erase]
    rcases p.find? callee with - | d
    · exact .fail rfl
    simp only [Option.map_some, Argument.length_eraseList, Definition.erase]
    split
    · exact .fail rfl
    have hempty : (Scope.empty (.ofString d.name)).erase = Scope.empty (.ofString d.name) := rfl
    have hbind := Argument.bindAll_erase f.scope (Scope.empty (.ofString d.name)) d.params args
    rw [hempty] at hbind
    rw [erase, hbind]
    rcases Argument.bindAll f.scope (Scope.empty (.ofString d.name)) d.params args with
      (failure | -) | - | scope
    · exact .fail rfl
    · exact .stick
    · exact .skip
    · exact .enter rfl

/-- **A program runs in lockstep with itself without spans.** -/
theorem Program.lockstep_erase (p : Program) :
    Lockstep p p.erase (fun f f' ↦ f' = f.erase) Eq where
  main := rfl
  exhausted f f' hf := by
    rw [hf, Frame.exhausted, Frame.exhausted, Frame.erase, Element.eraseList_eq_map,
      List.isEmpty_map]
  element f f' x g x' g' hf hadvance hadvance' := by
    subst hf
    obtain ⟨name, passed, rest, e⟩ := f
    rcases rest with - | ⟨y, rest⟩
    · simp [Frame.advance?] at hadvance
    · obtain ⟨rfl, rfl⟩ : y = x ∧ ⟨name, passed + 1, rest, e⟩ = g := by
        simpa [Frame.advance?] using hadvance
      obtain ⟨rfl, rfl⟩ : y.erase = x' ∧
          Frame.erase ⟨name, passed + 1, rest, e⟩ = g' := by
        simpa [Frame.advance?, Frame.erase, Element.eraseList] using hadvance'
      exact ⟨rfl, Frame.demand_erase p _ y⟩
  recursion _ _ := rfl

end RobotGolf
