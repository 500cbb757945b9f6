import Mathlib.Algebra.Group.End
import Mathlib.Data.List.Forall2
import RobotGolf.Proofs.Lockstep
import RobotGolf.Proofs.RaisedLimits
import RobotGolf.Proofs.Scoping
/-!
# The names of parameters do not matter

The parameters of a definition may be given other names, in its head and wherever its body mentions
them. This must not be noticed, although a sequence that is quoted in the body travels to procedures
which use the same letters for something else: it takes the scope along in which it was quoted, and
so it is enough that sequence and scope were renamed in the same way.

`Env.Renamed` says this of scopes. It is indexed by the renaming of the names that the scope binds.
The sequences captured in a scope may have been quoted anywhere, so each of them comes with a
renaming of its own, which is the one of the scope that it has captured (`Value.Renamed`). The
scope of a caller and the fresh one of the procedure that it calls are indexed differently for the
same reason (`Argument.bindAll_renamed`).

A renaming is injective, and this is all that is used of it. So the definitions of a program may all
be renamed at once, and each in its own way (`Program.Renamed`). The main block has no parameters
and is left as it is.
-/

namespace RobotGolf

/-! ### Renamings -/

/-- Names for names, different ones for different names. Where there was no name there is none. -/
structure Renaming where
  toFun : String → String
  injective : Function.Injective toFun
  map_empty : toFun "" = ""

namespace Renaming

instance : CoeFun Renaming fun _ ↦ String → String := ⟨toFun⟩

/-- All names remain. -/
def refl : Renaming := ⟨id, Function.injective_id, rfl⟩

/-- Permutes the upper-case letters in a name. -/
def ofPerm (ρ : Equiv.Perm {c : Char // c.isUpper = true}) : Renaming where
  toFun name := String.ofList (name.toList.map (Equiv.Perm.ofSubtype ρ))
  injective := by
    intro name other h
    have hlists := String.ofList_injective h
    exact String.toList_injective ((Equiv.Perm.ofSubtype ρ).injective.list_map hlists)
  map_empty := by simp

theorem eq_empty_iff (σ : Renaming) {name : String} : σ name = "" ↔ name = "" := by
  constructor
  · intro h
    exact σ.injective (h.trans σ.map_empty.symm)
  · rintro rfl
    exact σ.map_empty

end Renaming

/-! ### Renamed trees -/

/-- An operand with another name for its parameter. -/
def Operand.rename (σ : Renaming) : Operand → Operand
  | literal n => literal n
  | parameter name => parameter (σ name)
  | blank => blank

/-- A term with another name for its parameter. -/
def Term.rename (σ : Renaming) (t : Term) : Term := { t with operand := t.operand.rename σ }

/-- A sum with other names for its parameters. -/
def Arithmetic.rename (σ : Renaming) (a : Arithmetic) : Arithmetic :=
  { a with terms := a.terms.map (Term.rename σ) }

mutual
/-- An element with other names for all parameters that it mentions. -/
def Element.rename (σ : Renaming) : Element → Element
  | .command c span => .command c span
  | .parameter name span => .parameter (σ name) span
  | .call callee args span => .call callee (Argument.renameList σ args) span

/-- An argument with other names for all parameters that it mentions. -/
def Argument.rename (σ : Renaming) : Argument → Argument
  | .parameter name span => .parameter (σ name) span
  | .quoted body span => .quoted (Element.renameList σ body) span
  | .arithmetic sum => .arithmetic (sum.rename σ)

/-- A sequence with other names for all parameters that it mentions. -/
def Element.renameList (σ : Renaming) : List Element → List Element
  | [] => []
  | x :: rest => x.rename σ :: Element.renameList σ rest

/-- Some arguments with other names for all parameters that they mention. -/
def Argument.renameList (σ : Renaming) : List Argument → List Argument
  | [] => []
  | a :: rest => a.rename σ :: Argument.renameList σ rest
end

/-- A definition with other names for its parameters, in its head and in its body. -/
def Definition.rename (σ : Renaming) (d : Definition) : Definition :=
  { d with params := d.params.map σ, body := Element.renameList σ d.body }

/-- A program with the parameters of one of its definitions renamed. -/
def Program.renameAt (p : Program) (i : Nat) (σ : Renaming) : Program :=
  { p with definitions := p.definitions.modify i (Definition.rename σ) }

theorem Element.length_renameList (σ : Renaming) (body : List Element) :
    (Element.renameList σ body).length = body.length := by
  induction body with
  | nil => rfl
  | cons x rest ih => rw [Element.renameList, List.length_cons, ih, List.length_cons]

theorem Argument.length_renameList (σ : Renaming) (args : List Argument) :
    (Argument.renameList σ args).length = args.length := by
  induction args with
  | nil => rfl
  | cons a rest ih => rw [Argument.renameList, List.length_cons, ih, List.length_cons]

theorem Arithmetic.rename_refl (a : Arithmetic) : a.rename .refl = a := by
  have hterm : ∀ t : Term, t.rename .refl = t := by
    rintro ⟨negative, n | name | -⟩ <;> rfl
  have hterms : a.terms.map (Term.rename .refl) = a.terms :=
    (List.map_congr_left fun t _ ↦ hterm t).trans (List.map_id a.terms)
  rw [Arithmetic.rename, hterms]

mutual
theorem Element.rename_refl (x : Element) : x.rename .refl = x := by
  match x with
  | .command c span => rfl
  | .parameter name span => rfl
  | .call callee args span => rw [Element.rename, Argument.renameList_refl args]

theorem Argument.rename_refl (a : Argument) : a.rename .refl = a := by
  match a with
  | .parameter name span => rfl
  | .quoted body span => rw [Argument.rename, Element.renameList_refl body]
  | .arithmetic sum => rw [Argument.rename, Arithmetic.rename_refl]

theorem Element.renameList_refl (body : List Element) :
    Element.renameList .refl body = body := by
  match body with
  | [] => rfl
  | x :: rest => rw [Element.renameList, Element.rename_refl x, Element.renameList_refl rest]

theorem Argument.renameList_refl (args : List Argument) :
    Argument.renameList .refl args = args := by
  match args with
  | [] => rfl
  | a :: rest => rw [Argument.renameList, Argument.rename_refl a, Argument.renameList_refl rest]
end

theorem Definition.rename_refl (d : Definition) : d.rename .refl = d := by
  have hparams : d.params.map Renaming.refl = d.params := List.map_id d.params
  rw [rename, Element.renameList_refl, hparams]

/-- Programs that differ in the names that their definitions have for their parameters. -/
structure Program.Renamed (p p' : Program) : Prop where
  main : p'.main = p.main
  definitions : List.Forall₂ (fun d d' ↦ ∃ σ, d' = Definition.rename σ d) p.definitions
    p'.definitions

theorem Program.renamed_renameAt (p : Program) (i : Nat) (σ : Renaming) :
    p.Renamed (p.renameAt i σ) := by
  refine ⟨rfl, ?_⟩
  rw [renameAt]
  dsimp only
  have hsame : ∀ ds : List Definition,
      List.Forall₂ (fun d d' ↦ ∃ σ, d' = Definition.rename σ d) ds ds :=
    fun ds ↦ List.forall₂_same.2 fun d _ ↦ ⟨.refl, d.rename_refl.symm⟩
  induction p.definitions generalizing i with
  | nil => cases i <;> exact .nil
  | cons d ds ih =>
    cases i with
    | zero => exact .cons ⟨σ, rfl⟩ (hsame ds)
    | succ i => exact .cons ⟨.refl, d.rename_refl.symm⟩ (ih i)

/-- Both programs have a definition for the same names. -/
theorem Program.Renamed.find? {p p' : Program} (h : p.Renamed p') (name : String) :
    Option.Rel (fun d d' ↦ ∃ σ, d' = Definition.rename σ d) (p.find? name) (p'.find? name) := by
  have hdefinitions := h.definitions
  rw [Program.find?, Program.find?]
  generalize p.definitions = definitions at hdefinitions ⊢
  generalize p'.definitions = definitions' at hdefinitions ⊢
  induction hdefinitions with
  | nil => exact .none
  | @cons d d' ds ds' hd _ ih =>
    obtain ⟨σ, rfl⟩ := hd
    rw [List.find?_cons, List.find?_cons, show (d.rename σ).name = d.name from rfl]
    split
    · exact .some ⟨σ, rfl⟩
    · exact ih

/-! ### Renamed scopes -/

mutual
/-- The same number, or a sequence that is renamed like the scope which it has captured. -/
inductive Value.Renamed : Value Env → Value Env → Prop where
  | number (n : Int) : Value.Renamed (.number n) (.number n)
  | deferred {σ : Renaming} {captured captured' : Env} (body : List Element)
      (h : Env.Renamed σ captured captured') :
      Value.Renamed (.deferred body captured) (.deferred (Element.renameList σ body) captured')

/-- A scope with other names for renamed values. -/
inductive Env.Renamed : Renaming → Env → Env → Prop where
  | mk {σ : Renaming} {e e' : Env}
      (find : ∀ name, Option.Rel Value.Renamed (e.find? name) (e'.find? (σ name))) :
      Env.Renamed σ e e'
end

/-- Failures that differ in the names of parameters and in the spelling of sequences at most. -/
inductive Failure.SameKind : Failure → Failure → Prop where
  | unboundParameter (name name' : String) :
      Failure.SameKind (.unboundParameter name) (.unboundParameter name')
  | missingProcedure (name : String) :
      Failure.SameKind (.missingProcedure name) (.missingProcedure name)
  | arity (procedure : String) (params args : Nat) :
      Failure.SameKind (.arity procedure params args) (.arity procedure params args)
  | numberAmongStatements (parameter parameter' : String) (n : Int) :
      Failure.SameKind (.numberAmongStatements parameter n) (.numberAmongStatements parameter' n)
  | sequenceInArithmetic (parameter parameter' spelling spelling' : String) :
      Failure.SameKind (.sequenceInArithmetic parameter spelling)
        (.sequenceInArithmetic parameter' spelling')
  | recursion (depth : Nat) (calls : Int64) :
      Failure.SameKind (.recursion depth calls) (.recursion depth calls)

/-- Arguments without a value for the same kind of reason. -/
inductive NoValue.SameKind : NoValue → NoValue → Prop where
  | failure {e e' : Failure} (h : e.SameKind e') : NoValue.SameKind (.failure e) (.failure e')
  | blank : NoValue.SameKind .blank .blank

/-- Results that are related, or errors that are. -/
inductive Results {ε α β : Type} (E : ε → ε → Prop) (A : α → β → Prop) :
    Except ε α → Except ε β → Prop where
  | ok {a : α} {b : β} (h : A a b) : Results E A (.ok a) (.ok b)
  | error {e e' : ε} (h : E e e') : Results E A (.error e) (.error e')

theorem Value.Renamed.isZero_eq {v v' : Value Env} (h : v.Renamed v') : v'.isZero = v.isZero := by
  cases h <;> rfl

section

variable {σ τ : Renaming} {e e' : Env}

theorem Env.renamed_empty (σ : Renaming) (name : Bytes) :
    Env.Renamed σ (.mk (Scope.empty name)) (.mk (Scope.empty name)) :=
  .mk fun _ ↦ .none

theorem Env.Renamed.lookup (h : Env.Renamed σ e e') (name : String) :
    Results Failure.SameKind Value.Renamed (e.lookup name) (e'.lookup (σ name)) := by
  obtain ⟨hfind⟩ := h
  have hname := hfind name
  rw [Env.lookup, Env.lookup]
  generalize e.find? name = v at hname
  generalize e'.find? (σ name) = v' at hname
  cases hname with
  | some hv => exact .ok hv
  | none => exact .error (.unboundParameter _ _)

/-- Binding a name to renamed values. Only the name itself is looked up as that. -/
theorem Env.Renamed.bind {s s' : Scope Env} (h : Env.Renamed σ (.mk s) (.mk s')) (name : String)
    {v v' : Value Env} (hv : v.Renamed v') :
    Env.Renamed σ (.mk (s.bind (.ofString name) v)) (.mk (s'.bind (.ofString (σ name)) v')) := by
  by_cases hname : name = ""
  · have hname' : σ name = "" := σ.eq_empty_iff.2 hname
    rw [Scope.bind, if_pos (Bytes.ofString_eq_nil_iff.2 hname), Scope.bind,
      if_pos (Bytes.ofString_eq_nil_iff.2 hname')]
    exact h
  · have hname' : σ name ≠ "" := mt σ.eq_empty_iff.1 hname
    obtain ⟨hfind⟩ := h
    refine .mk fun other ↦ ?_
    rw [Env.find?_bind s hname, Env.find?_bind s' hname']
    by_cases hother : other = name
    · rw [if_pos hother, if_pos (congrArg σ hother)]
      exact .some hv
    · rw [if_neg hother, if_neg (σ.injective.ne hother)]
      exact hfind other

/-! ### Arguments -/

theorem Operand.value_renamed (h : Env.Renamed σ e e') (o : Operand) :
    Results NoValue.SameKind Eq (o.value e) ((o.rename σ).value e') := by
  cases o with
  | literal n => exact .ok rfl
  | blank => exact .error .blank
  | parameter name =>
    have hlookup := h.lookup name
    rw [Operand.rename, Operand.value, Operand.value]
    generalize e.lookup name = result at hlookup
    generalize e'.lookup (σ name) = result' at hlookup
    cases hlookup with
    | error hfailure => exact .error (.failure hfailure)
    | ok hv =>
      cases hv with
      | number n => exact .ok rfl
      | deferred body _ => exact .error (.failure (.sequenceInArithmetic _ _ _ _))

theorem Term.sum_renamed (h : Env.Renamed σ e e') (before : Int) (terms : List Term) :
    Results NoValue.SameKind Eq (Term.sum e before terms)
      (Term.sum e' before (terms.map (Term.rename σ))) := by
  induction terms generalizing before with
  | nil => exact .ok rfl
  | cons t terms ih =>
    have hvalue := Operand.value_renamed h t.operand
    rw [List.map_cons, Term.sum, Term.sum, Term.rename]
    dsimp only
    generalize t.operand.value e = result at hvalue
    generalize (t.operand.rename σ).value e' = result' at hvalue
    cases hvalue with
    | error hcause => exact .error hcause
    | ok heq =>
      subst heq
      exact ih _

/-- A quoted sequence is captured with the scope of the caller, and both are renamed alike. -/
theorem Argument.value_renamed (h : Env.Renamed σ e e') (a : Argument) :
    Results NoValue.SameKind Value.Renamed (a.value e) ((a.rename σ).value e') := by
  cases a with
  | parameter name span =>
    have hlookup := h.lookup name
    simp only [Argument.rename, Argument.value]
    generalize e.lookup name = result at hlookup
    generalize e'.lookup (σ name) = result' at hlookup
    cases hlookup with
    | error hfailure => exact .error (.failure hfailure)
    | ok hv => exact .ok hv
  | quoted body span =>
    rw [Argument.rename]
    exact .ok (.deferred body h)
  | arithmetic sum =>
    have hsum := Term.sum_renamed h 0 sum.terms
    simp only [Argument.rename, Argument.value, Arithmetic.rename]
    generalize Term.sum e 0 sum.terms = result at hsum
    generalize Term.sum e' 0 (sum.terms.map (Term.rename σ)) = result' at hsum
    cases hsum with
    | error hcause => exact .error hcause
    | ok heq =>
      subst heq
      exact .ok (.number _)

/-- **Binding the parameters of a renamed procedure.** The arguments are renamed like the scope of
the caller, by `σ`, and the parameters by a renaming `τ` of their own. -/
theorem Argument.bindAll_renamed (h : Env.Renamed σ e e') {target target' : Scope Env}
    (htarget : Env.Renamed τ (.mk target) (.mk target')) (names : List String)
    (args : List Argument) :
    Results NoValue.SameKind
      (Option.Rel fun scope scope' ↦ Env.Renamed τ (.mk scope) (.mk scope'))
      (Argument.bindAll e target names args)
      (Argument.bindAll e' target' (names.map τ) (Argument.renameList σ args)) := by
  induction names generalizing args target target' with
  | nil => exact .ok (.some htarget)
  | cons name names ih =>
    rcases args with - | ⟨a, args⟩
    · exact .ok (.some htarget)
    have hvalue := Argument.value_renamed h a
    rw [List.map_cons, Argument.renameList, Argument.bindAll, Argument.bindAll]
    generalize a.value e = result at hvalue
    generalize (a.rename σ).value e' = result' at hvalue
    cases hvalue with
    | error hcause => exact .error hcause
    | @ok v v' hv =>
      simp only [hv.isZero_eq]
      split
      · exact .ok .none
      · exact ih (htarget.bind name hv) args

end

/-! ### Frames -/

/-- A frame at the same place of a sequence that is renamed like its scope. -/
inductive Frame.Renamed : Frame Env → Frame Env → Prop where
  | mk {σ : Renaming} {e e' : Env} (name name' : String) (passed : Nat) (rest : List Element)
      (h : Env.Renamed σ e e') :
      Frame.Renamed ⟨name, passed, rest, e⟩ ⟨name', passed, Element.renameList σ rest, e'⟩

/-- **What a renamed element asks for** in a renamed scope. -/
theorem Frame.demand_renamed {p p' : Program} (hp : p.Renamed p') {f f' : Frame Env}
    {σ : Renaming} (hscope : Env.Renamed σ f.scope f'.scope) (hsole : f'.sole = f.sole)
    (x : Element) :
    (f.demand p x).Agrees Frame.Renamed Failure.SameKind (f'.demand p' (x.rename σ)) := by
  cases x with
  | command c span => exact .deliver _
  | parameter name span =>
    have hlookup := hscope.lookup name
    rw [Element.rename, Frame.demand, Frame.demand]
    generalize f.scope.lookup name = result at hlookup
    generalize f'.scope.lookup (σ name) = result' at hlookup
    cases hlookup with
    | error hfailure => exact .fail hfailure
    | ok hv =>
      cases hv with
      | deferred body hcaptured => exact .enter (.mk _ _ 0 body hcaptured)
      | number n =>
        simp only [hsole]
        split
        · exact .deliver _
        · exact .fail (.numberAmongStatements _ _ n)
  | call callee args span =>
    have hfind := hp.find? callee
    rw [Element.rename, Frame.demand, Frame.demand]
    generalize p.find? callee = found at hfind
    generalize p'.find? callee = found' at hfind
    cases hfind with
    | none => exact .fail (.missingProcedure callee)
    | @some d d' hd =>
      obtain ⟨τ, rfl⟩ := hd
      have hbind := Argument.bindAll_renamed hscope (Env.renamed_empty τ (.ofString d.name))
        d.params args
      simp only [Definition.rename, Argument.length_renameList, List.length_map]
      split
      · exact .fail (.arity _ _ _)
      generalize Argument.bindAll f.scope (Scope.empty (.ofString d.name)) d.params args =
        result at hbind
      generalize Argument.bindAll f'.scope (Scope.empty (.ofString d.name)) (d.params.map τ)
        (Argument.renameList σ args) = result' at hbind
      cases hbind with
      | error hcause =>
        cases hcause with
        | failure hfailure => exact .fail hfailure
        | blank => exact .stick
      | ok hscope =>
        cases hscope with
        | none => exact .skip
        | some hscope => exact .enter (.mk _ _ 0 d.body hscope)

/-- **Renamed programs run in lockstep.** -/
theorem Program.Renamed.lockstep {p p' : Program} (h : p.Renamed p') :
    Lockstep p p' Frame.Renamed Failure.SameKind where
  main := by
    have hmain := Frame.Renamed.mk "main" "main" 0 p.main
      (Env.renamed_empty .refl (.ofString "globals"))
    rw [Element.renameList_refl] at hmain
    rw [h.main]
    exact hmain
  exhausted f f' hf := by
    obtain ⟨name, name', passed, rest, -⟩ := hf
    cases rest <;> rfl
  element f f' x g x' g' hf hadvance hadvance' := by
    obtain @⟨σ, e, e', name, name', passed, rest, hscope⟩ := hf
    rcases rest with - | ⟨y, rest⟩
    · simp [Frame.advance?] at hadvance
    · obtain ⟨rfl, rfl⟩ : y = x ∧ ⟨name, passed + 1, rest, e⟩ = g := by
        simpa [Frame.advance?] using hadvance
      obtain ⟨rfl, rfl⟩ : y.rename σ = x' ∧
          ⟨name', passed + 1, Element.renameList σ rest, e'⟩ = g' := by
        simpa [Frame.advance?, Element.renameList] using hadvance'
      refine ⟨.mk name name' _ rest hscope, Frame.demand_renamed h hscope ?_ y⟩
      simp only [Frame.sole, Frame.length, Element.length_renameList]
  recursion := .recursion

namespace Machine

/-- **The names of parameters do not matter.** In a program that was read from a source text, let
the upper-case letters be permuted in the parameter list and throughout the body of one definition.
Then, under any limits and for a request of any size, the same actions are delivered, as many in
number, as much is left to be run, and the evaluation has failed in the same way or not at all: a
recursion error is the same, and other failures differ in what they call a parameter and how they
spell a sequence at most. The request does have a result, unless there can be no room for it or the
limit on frames for one action is the largest one, which never stops the evaluation. -/
theorem renaming_unnoticed {source : Bytes} {p : Program} (hp : Program.parse source = .ok p)
    (i : Fin p.definitions.length) (ρ : Equiv.Perm {c : Char // c.isUpper = true})
    (limits : Limits) (n : Int) :
    (capacity < n → ((start p limits).take? n).1 = none) ∧
    (((start p limits).take? n).1 = none → capacity < n ∨ limits.silent = Int64.maxValue) ∧
    ((start (p.renameAt i (.ofPerm ρ)) limits).take? n).1 = ((start p limits).take? n).1 ∧
    ((start (p.renameAt i (.ofPerm ρ)) limits).take? n).2.done =
      ((start p limits).take? n).2.done ∧
    ((start (p.renameAt i (.ofPerm ρ)) limits).take? n).2.count =
      ((start p limits).take? n).2.count ∧
    Option.Rel Failure.SameKind ((start p limits).take? n).2.failure
      ((start (p.renameAt i (.ofPerm ρ)) limits).take? n).2.failure := by
  have hlockstep := (p.renamed_renameAt i (.ofPerm ρ)).lockstep
  obtain ⟨hactions, hinStep⟩ := (inStep_start hlockstep limits).take? hlockstep n
  exact ⟨take?_of_lt _, Reachable.start.of_take?_eq_none (Program.filled_of_parse hp), hactions,
    hinStep.done_eq, hinStep.count, hinStep.failure⟩

/-- The letters `A` and `B` change places in the definition that quotes `sA`. So `B` is a parameter
of the quoted sequence now, and of the procedure too which runs that: `a(B):b(sB)`. -/
theorem requoting_renamed :
    ∃ ρ : Equiv.Perm {c : Char // c.isUpper = true},
    Program.parse (Bytes.ofString "a(A):b(sA)\nb(B):Bb(B+1)\na(r)") = .ok requoting ∧
    (requoting.renameAt 0 (.ofPerm ρ)).render = "a(B):b(sB)\nb(B):Bb(B+1)\na(r)" ∧
    ((start (requoting.renameAt 0 (.ofPerm ρ)) .standard).take? 5).1.map Action.format =
      some "sr" ∧
    ((start (requoting.renameAt 0 (.ofPerm ρ)) .standard).take? 5).2.count = 2 ∧
    Option.Rel Failure.SameKind (some (.sequenceInArithmetic "B" "sA"))
      ((start (requoting.renameAt 0 (.ofPerm ρ)) .standard).take? 5).2.failure := by
  have hparse : Program.parse (Bytes.ofString "a(A):b(sA)\nb(B):Bb(B+1)\na(r)") =
      .ok requoting := by
    cbv
  have hformat : ((start requoting .standard).take? 5).1.map Action.format = some "sr" := by cbv
  have hcount : ((start requoting .standard).take? 5).2.count = 2 := by cbv
  have hfailure : ((start requoting .standard).take? 5).2.failure =
      some (.sequenceInArithmetic "B" "sA") := by
    cbv
  obtain ⟨ρ, hρ⟩ : ∃ ρ : Equiv.Perm {c : Char // c.isUpper = true},
      ρ ⟨'A', by decide⟩ = ⟨'B', by decide⟩ := ⟨Equiv.swap _ _, Equiv.swap_apply_left _ _⟩
  have hletter : Renaming.ofPerm ρ "A" = "B" := by
    show String.ofList (['A'].map (Equiv.Perm.ofSubtype ρ)) = "B"
    rw [List.map_singleton, Equiv.Perm.ofSubtype_apply_of_mem ρ (by decide), hρ]
  have hrender : (requoting.renameAt 0 (.ofPerm ρ)).render =
      "a(B):b(sB)\nb(B):Bb(B+1)\na(r)" := by
    simp only [requoting, Program.renameAt, List.modify_zero_cons, Definition.rename,
      Element.renameList, Element.rename, Argument.renameList, Argument.rename, List.map_cons,
      List.map_nil, hletter]
    cbv
  obtain ⟨-, -, hactions, -, hcounts, hkind⟩ :=
    renaming_unnoticed hparse ⟨0, by decide⟩ ρ .standard 5
  exact ⟨ρ, hparse, hrender, by rw [hactions, hformat], by rw [hcounts, hcount],
    by rwa [hfailure] at hkind⟩

end Machine

end RobotGolf
