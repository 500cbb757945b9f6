import RobotGolf.Proofs.Heredity
import RobotGolf.Proofs.Refinement
import RobotGolf.Proofs.Runs
/-!
# Well-scoped programs never miss a name

A program is well scoped if every name that it mentions, at any quoting depth, is there to be found:
a parameter among the parameters of the definition around it, a procedure among the definitions, and
with as many parameters as the call has arguments (`Program.WellScoped`). This is checked on the
tree, without running anything. `Machine.lookups_succeed_of_wellScoped` says that it is enough: no
run of such a program misses a parameter, a procedure or an argument, under any limits.

## Why a check of the tree suffices

A quoted sequence is run far from where it was written, behind any number of calls, and it may have
been quoted again on the way. What saves it is that it takes the scope along in which it was
quoted. So the invariant pairs every sequence with a scope that has all names which the sequence
mentions (`Mention.Resolves`), and it does so for the frames on the stack and, hereditarily, for all
sequences captured in scopes (`Frame.Resolves`). Nothing is asked of numbers, and this is why the
two failures are left in which a value is of the wrong kind.
-/

namespace RobotGolf

/-! ### What a tree mentions -/

/-- Something that is referred to by its name. -/
inductive Mention where
  | parameter (name : String)
  /-- A procedure that is called with a number of arguments. -/
  | call (callee : String) (arguments : Nat)
  deriving DecidableEq, Repr

/-- What an operand mentions. -/
def Operand.mentions : Operand → List Mention
  | literal _ => []
  | parameter name => [.parameter name]
  | blank => []

mutual
/-- All that an element mentions, its arguments included. -/
def Element.mentions : Element → List Mention
  | .command _ _ => []
  | .parameter name _ => [.parameter name]
  | .call callee args _ => .call callee args.length :: Argument.mentionsList args

/-- All that an argument mentions, quoted sequences included. -/
def Argument.mentions : Argument → List Mention
  | .parameter name _ => [.parameter name]
  | .quoted body _ => Element.mentionsList body
  | .arithmetic sum => sum.terms.flatMap (·.operand.mentions)

/-- All that a sequence mentions. -/
def Element.mentionsList : List Element → List Mention
  | [] => []
  | x :: rest => x.mentions ++ Element.mentionsList rest

/-- All that some arguments mention. -/
def Argument.mentionsList : List Argument → List Mention
  | [] => []
  | a :: rest => a.mentions ++ Argument.mentionsList rest
end

/-- An argument's mentions are among those of the list that it stands in. -/
theorem Argument.mentions_subset {a : Argument} {args : List Argument} (h : a ∈ args) :
    a.mentions ⊆ Argument.mentionsList args := by
  induction args with
  | nil => simp at h
  | cons b rest ih =>
    rw [Argument.mentionsList]
    rcases List.mem_cons.1 h with rfl | hrest
    · exact List.subset_append_left _ _
    · exact List.subset_append_of_subset_right _ (ih hrest)

/-- An element's mentions are among those of the sequence that it stands in. -/
theorem Element.mentions_subset {x : Element} {body : List Element} (h : x ∈ body) :
    x.mentions ⊆ Element.mentionsList body := by
  induction body with
  | nil => simp at h
  | cons y rest ih =>
    rw [Element.mentionsList]
    rcases List.mem_cons.1 h with rfl | hrest
    · exact List.subset_append_left _ _
    · exact List.subset_append_of_subset_right _ (ih hrest)

namespace Mention

/-- There is something that the mention refers to: the parameter is one of those that are bound, and
the first definition of the procedure takes as many arguments as it is given. -/
def Resolves (p : Program) (Bound : String → Prop) : Mention → Prop
  | parameter name => Bound name
  | call callee arguments => (p.find? callee).map (·.params.length) = some arguments

instance (p : Program) (Bound : String → Prop) [DecidablePred Bound] :
    DecidablePred (Resolves p Bound)
  | parameter name => inferInstanceAs (Decidable (Bound name))
  | call callee arguments =>
    inferInstanceAs (Decidable ((p.find? callee).map (·.params.length) = some arguments))

theorem Resolves.mono {p : Program} {Bound Bound' : String → Prop} {x : Mention}
    (h : x.Resolves p Bound) (himp : ∀ name, Bound name → Bound' name) : x.Resolves p Bound' := by
  cases x with
  | parameter name => exact himp name h
  | call callee arguments => exact h

end Mention

/-- A program is well scoped: every call, in the main block or in a body and at any quoting depth,
names a procedure and passes as many arguments as its first definition has parameters; a body
mentions no parameters but those of its definition; and the main block mentions none. -/
structure Program.WellScoped (p : Program) : Prop where
  bodies : ∀ d ∈ p.definitions, ∀ x ∈ Element.mentionsList d.body, x.Resolves p (· ∈ d.params)
  main : ∀ x ∈ Element.mentionsList p.main, x.Resolves p fun _ ↦ False

instance (p : Program) : Decidable p.WellScoped :=
  decidable_of_iff
    ((∀ d ∈ p.definitions, ∀ x ∈ Element.mentionsList d.body, x.Resolves p (· ∈ d.params)) ∧
      ∀ x ∈ Element.mentionsList p.main, x.Resolves p fun _ ↦ False)
    ⟨fun h ↦ ⟨h.1, h.2⟩, fun h ↦ ⟨h.bodies, h.main⟩⟩

/-! ### Sequences with their scopes -/

/-- A captured sequence is captured with a scope that binds all that it mentions. -/
def Value.Resolves (p : Program) : Value Env → Prop
  | number _ => True
  | deferred body captured => ∀ x ∈ Element.mentionsList body, x.Resolves p captured.Binds

/-- What is left of a frame finds all that it mentions in the scope of the frame, and so does, in
its own scope, every sequence that can be reached through that scope. -/
structure Frame.Resolves (p : Program) (f : Frame Env) : Prop where
  rest : ∀ x ∈ Element.mentionsList f.rest, x.Resolves p f.scope.Binds
  scope : f.scope.Hereditary (Value.Resolves p)

section

variable {p : Program} {e : Env}

/-- A sum whose parameters are bound fails only on a captured sequence. -/
theorem Term.failure_of_resolves {terms : List Term}
    (h : ∀ x ∈ terms.flatMap (·.operand.mentions), x.Resolves p e.Binds) {before : Int}
    {failure : Failure} (hsum : Term.sum e before terms = .error (.failure failure)) :
    ∃ name spelling, failure = .sequenceInArithmetic name spelling := by
  induction terms generalizing before with
  | nil => simp [Term.sum] at hsum
  | cons t terms ih =>
    rw [List.flatMap_cons, List.forall_mem_append] at h
    obtain ⟨hoperand, hterms⟩ := h
    rw [Term.sum] at hsum
    rcases hvalue : t.operand.value e with cause | n <;> rw [hvalue] at hsum
    · obtain rfl : cause = .failure failure := by simpa using hsum
      cases ho : t.operand with
      | literal n => simp [ho, Operand.value] at hvalue
      | blank => simp [ho, Operand.value] at hvalue
      | parameter name =>
        rw [ho] at hoperand hvalue
        have hbound : e.Binds name := hoperand (.parameter name) (by simp [Operand.mentions])
        obtain ⟨v, hv⟩ := hbound.exists_lookup
        rw [Operand.value, hv] at hvalue
        cases v with
        | number n => simp at hvalue
        | deferred body captured => exact ⟨name, _, by simpa using hvalue.symm⟩
    · exact ih hterms hsum

theorem Argument.failure_of_resolves {a : Argument}
    (h : ∀ x ∈ a.mentions, x.Resolves p e.Binds) {failure : Failure}
    (hvalue : a.value e = .error (.failure failure)) :
    ∃ name spelling, failure = .sequenceInArithmetic name spelling := by
  cases a with
  | parameter name span =>
    have hbound : e.Binds name := h (.parameter name) (by simp [Argument.mentions])
    obtain ⟨v, hv⟩ := hbound.exists_lookup
    simp [Argument.value, hv] at hvalue
  | quoted body span => simp [Argument.value] at hvalue
  | arithmetic sum =>
    rw [Argument.mentions] at h
    simp only [Argument.value] at hvalue
    rcases hsum : Term.sum e 0 sum.terms with cause | n <;> rw [hsum] at hvalue
    · obtain rfl : cause = .failure failure := by simpa using hvalue
      exact Term.failure_of_resolves h hsum
    · simp at hvalue

/-- Arguments that find what they mention fail only on a captured sequence in a sum. -/
theorem Argument.bindAll_failure_of_resolves {args : List Argument}
    (h : ∀ a ∈ args, ∀ x ∈ a.mentions, x.Resolves p e.Binds) {names : List String}
    {target : Scope Env} {failure : Failure}
    (hbind : Argument.bindAll e target names args = .error (.failure failure)) :
    ∃ name spelling, failure = .sequenceInArithmetic name spelling := by
  induction names generalizing args target with
  | nil => simp [Argument.bindAll] at hbind
  | cons name names ih =>
    rcases args with - | ⟨a, args⟩
    · simp [Argument.bindAll] at hbind
    obtain ⟨ha, hargs⟩ := List.forall_mem_cons.1 h
    rw [Argument.bindAll] at hbind
    rcases hv : a.value e with cause | v <;> rw [hv] at hbind
    · obtain rfl : cause = .failure failure := by simpa using hbind
      exact Argument.failure_of_resolves ha hv
    · by_cases hzero : v.isZero = true
      · simp [hzero] at hbind
      · exact ih hargs (by simpa [hzero] using hbind)

end

/-! ### Frames -/

/-- The two failures in which a value is of the wrong kind. -/
inductive Failure.OfKind : Failure → Prop where
  | numberAmongStatements (parameter : String) (n : Int) :
      Failure.OfKind (.numberAmongStatements parameter n)
  | sequenceInArithmetic (parameter spelling : String) :
      Failure.OfKind (.sequenceInArithmetic parameter spelling)

namespace Frame.Resolves

variable {p : Program} {f g : Frame Env} {x : Element}

/-- What the element ahead mentions, and the frame behind it. -/
theorem advance (hf : f.Resolves p) (h : f.advance? = some (x, g)) :
    (∀ y ∈ x.mentions, y.Resolves p g.scope.Binds) ∧ g.Resolves p := by
  obtain ⟨hrest, hscope⟩ := Frame.of_advance? h
  have hmentions := hf.rest
  rw [hrest, Element.mentionsList, List.forall_mem_append, ← hscope] at hmentions
  exact ⟨hmentions.1, hmentions.2, hscope ▸ hf.scope⟩

/-- **What an element asks for**: if for a frame, then for one that finds what it mentions, and if
it fails, then on a value of the wrong kind. -/
theorem demand (hp : p.WellFormed) (hscoped : p.WellScoped) (hg : g.Resolves p)
    (hx : ∀ y ∈ x.mentions, y.Resolves p g.scope.Binds) :
    (∀ h, g.demand p x = .enter h → h.Resolves p) ∧
      ∀ failure, g.demand p x = .fail failure → failure.OfKind := by
  cases x with
  | command c span => simp [Frame.demand]
  | parameter name span =>
    have hbound : g.scope.Binds name := hx (.parameter name) (by simp [Element.mentions])
    obtain ⟨v, hv⟩ := hbound.exists_lookup
    rw [Frame.demand, hv]
    cases v with
    | number n =>
      by_cases hsole : g.sole = true
      · simp [hsole]
      · refine ⟨by simp [hsole], fun failure hfailure ↦ ?_⟩
        obtain rfl : .numberAmongStatements name n = failure := by simpa [hsole] using hfailure
        exact .numberAmongStatements name n
    | deferred body captured =>
      -- the sequence goes back to the scope that it was quoted in
      have hvalue := hg.scope.of_lookup hv
      refine ⟨fun h hh ↦ ?_, by simp⟩
      obtain rfl : Frame.enter name body captured = h := by simpa using hh
      exact ⟨hvalue.good, hvalue.captured body captured rfl⟩
  | call callee args span =>
    rw [Element.mentions, List.forall_mem_cons] at hx
    obtain ⟨hcall, hargs⟩ := hx
    have hargs : ∀ a ∈ args, ∀ y ∈ a.mentions, y.Resolves p g.scope.Binds :=
      fun a ha y hy ↦ hargs y (Argument.mentions_subset ha hy)
    obtain ⟨d, hd, hlength⟩ : ∃ d, p.find? callee = some d ∧ d.params.length = args.length :=
      Option.map_eq_some_iff.1 hcall
    have hmem : d ∈ p.definitions := List.mem_of_find?_eq_some hd
    rw [Frame.demand, hd]
    simp only [hlength, ne_eq, not_true_eq_false, if_false]
    rcases hbind : Argument.bindAll g.scope (Scope.empty (.ofString d.name)) d.params args with
      (failure | -) | (- | scope)
    · refine ⟨by simp, fun failure' hfailure ↦ ?_⟩
      obtain rfl : failure = failure' := by simpa using hfailure
      obtain ⟨parameter, spelling, rfl⟩ := Argument.bindAll_failure_of_resolves hargs hbind
      exact .sequenceInArithmetic parameter spelling
    · simp
    · simp
    · -- the fresh scope binds the parameters, and the body mentions no others
      refine ⟨fun h hh ↦ ?_, by simp⟩
      obtain rfl : Frame.enter d.name d.body (.mk scope) = h := by simpa using hh
      have hempty : "" ∉ d.params :=
        fun hname ↦ ((hp.definitions d hmem).params _ hname).ne_empty rfl
      have hbinds := (Argument.binds_of_bindAll hlength.symm hempty hbind).1
      refine ⟨fun y hy ↦ (hscoped.bodies d hmem y hy).mono hbinds, ?_⟩
      refine Argument.bindAll_hereditary hg.scope (fun _ _ ↦ trivial) ?_
        (Env.hereditary_empty _) hbind
      exact fun body span hquoted y hy ↦ hargs _ hquoted y (by rwa [Argument.mentions])

/-- A well-scoped program keeps its frames so. -/
theorem kept (hp : p.WellFormed) (hscoped : p.WellScoped) : Frame.Kept p (Frame.Resolves p) where
  main := ⟨fun x hx ↦ (hscoped.main x hx).mono fun _ hfalse ↦ hfalse.elim,
    Env.hereditary_empty _⟩
  pass _ _ _ hadvance hf := (hf.advance hadvance).2
  enter _ _ _ h hadvance hf hdemand :=
    ((hf.advance hadvance).2.demand hp hscoped (hf.advance hadvance).1).1 h hdemand

end Frame.Resolves

/-- **Statically well-scoped programs never fail a look-up.** Whatever is requested of the
evaluation of a well-scoped program, in any state that it comes to and under any limits, it has not
failed, or it failed for lack of room, or on a value of the wrong kind: a number among other
statements, or a captured sequence in a sum. -/
theorem Machine.lookups_succeed_of_wellScoped {source : Bytes} {p : Program}
    (hp : Program.parse source = .ok p) (hscoped : p.WellScoped) (limits : Limits) {m : Machine}
    (hm : Machine.Reachable p limits m) :
    m.failure = none ∨ (∃ depth calls, m.failure = some (.recursion depth calls)) ∨
      (∃ parameter n, m.failure = some (.numberAmongStatements parameter n)) ∨
      ∃ parameter spelling, m.failure = some (.sequenceInArithmetic parameter spelling) := by
  have hwf : p.WellFormed := Grammar.wellFormed_of_parse hp
  have hfail : ∀ (f : Frame Env) (x : Element) (g : Frame Env) (e : Failure),
      f.advance? = some (x, g) → f.Resolves p → g.demand p x = .fail e → e.OfKind := by
    intro f x g e hadvance hf hdemand
    obtain ⟨hx, hg⟩ := hf.advance hadvance
    exact (hg.demand hwf hscoped hx).2 e hdemand
  rcases hm.failure_cases (Frame.Resolves.kept hwf hscoped) hfail with hnone | hrec | ⟨e, he, hkind⟩
  · exact Or.inl hnone
  · exact Or.inr (Or.inl hrec)
  · cases hkind with
    | numberAmongStatements parameter n => exact Or.inr (Or.inr (Or.inl ⟨parameter, n, he⟩))
    | sequenceInArithmetic parameter spelling =>
      exact Or.inr (Or.inr (Or.inr ⟨parameter, spelling, he⟩))

/-- A program that quotes a parameter anew and adds to it: `sA` is run as `B`, where no `A` is
bound, and is no number. -/
def requoting : Program where
  definitions := [
    ⟨"a", ["A"], [.call "b" [.quoted [.command .forward ⟨7, 8⟩, .parameter "A" ⟨8, 9⟩] ⟨7, 9⟩]
      ⟨5, 10⟩], ⟨0, 10⟩⟩,
    ⟨"b", ["B"], [.parameter "B" ⟨16, 17⟩, .call "b" [.arithmetic ⟨false,
      [⟨false, .parameter "B"⟩, ⟨false, .literal 1⟩], ⟨19, 22⟩⟩] ⟨17, 23⟩], ⟨11, 23⟩⟩]
  main := [.call "a" [.quoted [.command .turnRight ⟨26, 27⟩] ⟨26, 27⟩] ⟨24, 28⟩]

/-- Both parameters are found, and the run ends on a value of the wrong kind. -/
theorem requoting_run :
    Program.parse (Bytes.ofString "a(A):b(sA)\nb(B):Bb(B+1)\na(r)") = .ok requoting ∧
    requoting.WellScoped ∧
    ((Machine.start requoting .standard).take? 5).1.map Action.format = some "sr" ∧
    ∃ parameter spelling, ((Machine.start requoting .standard).take? 5).2.failure =
      some (.sequenceInArithmetic parameter spelling) := by
  have hparse : Program.parse (Bytes.ofString "a(A):b(sA)\nb(B):Bb(B+1)\na(r)") =
      .ok requoting := by
    cbv
  have hscoped : requoting.WellScoped := by decide
  have hformat : ((Machine.start requoting .standard).take? 5).1.map Action.format =
      some "sr" := by
    cbv
  have hended : ((Machine.start requoting .standard).take? 5).2.failure =
      some (.sequenceInArithmetic "B" "sA") := by
    cbv
  refine ⟨hparse, hscoped, hformat, ?_⟩
  have hreachable : Machine.Reachable requoting .standard
      ((Machine.start requoting .standard).take? 5).2 := Machine.Reachable.start.take? 5
  generalize ((Machine.start requoting .standard).take? 5).2 = m at hended hreachable ⊢
  rcases Machine.lookups_succeed_of_wellScoped hparse hscoped .standard hreachable with
    hnone | ⟨depth, calls, hfailure⟩ | ⟨parameter, n, hfailure⟩ | hfailure
  · simp [hnone] at hended
  · simp [hfailure] at hended
  · simp [hfailure] at hended
  · exact hfailure

end RobotGolf
