import RobotGolf.Program.Basic
/-!
# Well-formed trees, and trees without their spans

A program tree need not come from a source text. `Program.WellFormed` lists what a source text
imposes on it: names are single letters of the right case, commands are known, nothing is empty that
has to have members, and every argument has the one form in which it is spelled. A quoted lone
parameter would be spelled as a reference to it, and so would a sum of just that parameter, so both
are excluded.

`erase` forgets where a tree was found, by setting every span to the empty one. Two trees are equal
up to spans if they are equal when erased. Being well formed has nothing to do with spans
(`Program.wellFormed_of_erase_eq`).
-/

namespace RobotGolf

/-! ### Names, commands and sums -/

/-- The names of procedures: a lower-case letter that is no command. -/
def IsProcedureName (name : String) : Prop :=
  ∃ c : Char, name = String.singleton c ∧ c.isLower = true ∧ c ∉ ['s', 'l', 'r']

/-- The names of parameters: an upper-case letter. -/
def IsParameterName (name : String) : Prop :=
  ∃ c : Char, name = String.singleton c ∧ c.isUpper = true

/-- The commands that a source text can hold. -/
def Command.WellFormed (c : Command) : Prop := c ∈ [forward, turnLeft, turnRight]

/-- The operands that a source text can hold: natural numbers and parameters. -/
def Operand.WellFormed : Operand → Prop
  | literal n => 0 ≤ n
  | parameter name => IsParameterName name
  | blank => False

/-- The sums that a source text can hold. -/
structure Arithmetic.WellFormed (a : Arithmetic) : Prop where
  terms_ne_nil : a.terms ≠ []
  operands : ∀ t ∈ a.terms, t.operand.WellFormed
  signed_of_negative : ∀ t ∈ a.terms.head?, t.negative = true → a.signed = true
  not_lone : a.signed = false → ∀ t name, a.terms = [t] → t.operand ≠ .parameter name

/-! ### Elements, arguments, programs -/

mutual
/-- The elements that a source text can hold. -/
inductive Element.WellFormed : Element → Prop where
  | command {c : Command} {span : Span} (hc : c.WellFormed) : Element.WellFormed (.command c span)
  | parameter {name : String} {span : Span} (hname : IsParameterName name) :
      Element.WellFormed (.parameter name span)
  | call {callee : String} {args : List Argument} {span : Span} (hcallee : IsProcedureName callee)
      (hargs : ∀ a ∈ args, Argument.WellFormed a) : Element.WellFormed (.call callee args span)

/-- The arguments that a source text can hold. -/
inductive Argument.WellFormed : Argument → Prop where
  | parameter {name : String} {span : Span} (hname : IsParameterName name) :
      Argument.WellFormed (.parameter name span)
  | quoted {body : List Element} {span : Span} (hne : body ≠ [])
      (hlone : ∀ name s, body ≠ [.parameter name s]) (hbody : ∀ e ∈ body, Element.WellFormed e) :
      Argument.WellFormed (.quoted body span)
  | arithmetic {sum : Arithmetic} (hsum : sum.WellFormed) : Argument.WellFormed (.arithmetic sum)
end

/-- The definitions that a source text can hold. -/
structure Definition.WellFormed (d : Definition) : Prop where
  name : IsProcedureName d.name
  params : ∀ x ∈ d.params, IsParameterName x
  distinct : d.params.Nodup
  body_ne_nil : d.body ≠ []
  body : ∀ e ∈ d.body, e.WellFormed

/-- The programs that a source text can hold. No parameter stands directly in the main block. -/
structure Program.WellFormed (p : Program) : Prop where
  definitions : ∀ d ∈ p.definitions, d.WellFormed
  main_ne_nil : p.main ≠ []
  main : ∀ e ∈ p.main, e.WellFormed
  main_statements : ∀ name span, .parameter name span ∉ p.main

/-! ### Forgetting spans -/

/-- A sum without its span. -/
def Arithmetic.erase (a : Arithmetic) : Arithmetic := { a with span := Span.null }

mutual
/-- An element without its spans. -/
def Element.erase : Element → Element
  | .command c _ => .command c Span.null
  | .parameter name _ => .parameter name Span.null
  | .call callee args _ => .call callee (Argument.eraseList args) Span.null

/-- An argument without its spans. -/
def Argument.erase : Argument → Argument
  | .parameter name _ => .parameter name Span.null
  | .quoted body _ => .quoted (Element.eraseList body) Span.null
  | .arithmetic sum => .arithmetic sum.erase

/-- A sequence without its spans. -/
def Element.eraseList : List Element → List Element
  | [] => []
  | e :: rest => e.erase :: Element.eraseList rest

/-- Some arguments without their spans. -/
def Argument.eraseList : List Argument → List Argument
  | [] => []
  | a :: rest => a.erase :: Argument.eraseList rest
end

/-- A definition without its spans. -/
def Definition.erase (d : Definition) : Definition :=
  ⟨d.name, d.params, Element.eraseList d.body, Span.null⟩

/-- A program without its spans. -/
def Program.erase (p : Program) : Program :=
  ⟨p.definitions.map Definition.erase, Element.eraseList p.main⟩

theorem Element.eraseList_eq_map (body : List Element) : eraseList body = body.map erase := by
  induction body with
  | nil => rfl
  | cons e rest ih => rw [eraseList, ih, List.map_cons]

theorem Element.eq_parameter_of_erase {e : Element} {name : String} {span : Span}
    (h : e.erase = .parameter name span) : ∃ s, e = .parameter name s := by
  cases e with
  | command c s => simp [erase] at h
  | parameter name' s =>
    simp only [erase, parameter.injEq] at h
    exact ⟨s, by rw [h.1]⟩
  | call callee args s => simp [erase] at h

/-! ### Spans do not matter -/

theorem Arithmetic.wellFormed_erase {a : Arithmetic} : a.erase.WellFormed ↔ a.WellFormed :=
  ⟨fun h ↦ ⟨h.1, h.2, h.3, h.4⟩, fun h ↦ ⟨h.1, h.2, h.3, h.4⟩⟩

/-- A sequence is a lone parameter if and only if it is one without its spans. -/
theorem Element.eraseList_ne_lone_iff (body : List Element) :
    (∀ name s, eraseList body ≠ [.parameter name s]) ↔ ∀ name s, body ≠ [.parameter name s] := by
  constructor
  · rintro h name s rfl
    exact h name Span.null rfl
  · intro h name s heq
    rw [eraseList_eq_map] at heq
    obtain ⟨e, rfl, he⟩ := List.map_eq_singleton_iff.1 heq
    obtain ⟨s', rfl⟩ := eq_parameter_of_erase he
    exact h name s' rfl

theorem Element.eraseList_ne_nil_iff (body : List Element) : eraseList body ≠ [] ↔ body ≠ [] := by
  rw [eraseList_eq_map, ne_eq, List.map_eq_nil_iff]

mutual
theorem Element.wellFormed_erase (e : Element) : e.erase.WellFormed ↔ e.WellFormed := by
  match e with
  | .command c span =>
    exact ⟨fun | .command hc => .command hc, fun | .command hc => .command hc⟩
  | .parameter name span =>
    exact ⟨fun | .parameter h => .parameter h, fun | .parameter h => .parameter h⟩
  | .call callee args span =>
    have hargs := Argument.wellFormed_eraseList args
    exact ⟨fun | .call hcallee h => .call hcallee (hargs.1 h),
      fun | .call hcallee h => .call hcallee (hargs.2 h)⟩

theorem Argument.wellFormed_erase (a : Argument) : a.erase.WellFormed ↔ a.WellFormed := by
  match a with
  | .parameter name span =>
    exact ⟨fun | .parameter h => .parameter h, fun | .parameter h => .parameter h⟩
  | .quoted body span =>
    have hbody := Element.wellFormed_eraseList body
    have hne := Element.eraseList_ne_nil_iff body
    have hlone := Element.eraseList_ne_lone_iff body
    exact ⟨fun | .quoted h₁ h₂ h₃ => .quoted (hne.1 h₁) (hlone.1 h₂) (hbody.1 h₃),
      fun | .quoted h₁ h₂ h₃ => .quoted (hne.2 h₁) (hlone.2 h₂) (hbody.2 h₃)⟩
  | .arithmetic sum =>
    exact ⟨fun | .arithmetic h => .arithmetic (Arithmetic.wellFormed_erase.1 h),
      fun | .arithmetic h => .arithmetic (Arithmetic.wellFormed_erase.2 h)⟩

theorem Element.wellFormed_eraseList (body : List Element) :
    (∀ e ∈ Element.eraseList body, e.WellFormed) ↔ ∀ e ∈ body, e.WellFormed := by
  match body with
  | [] => simp [Element.eraseList]
  | e :: rest =>
    rw [Element.eraseList, List.forall_mem_cons, List.forall_mem_cons, Element.wellFormed_erase e,
      Element.wellFormed_eraseList rest]

theorem Argument.wellFormed_eraseList (args : List Argument) :
    (∀ a ∈ Argument.eraseList args, a.WellFormed) ↔ ∀ a ∈ args, a.WellFormed := by
  match args with
  | [] => simp [Argument.eraseList]
  | a :: rest =>
    rw [Argument.eraseList, List.forall_mem_cons, List.forall_mem_cons, Argument.wellFormed_erase a,
      Argument.wellFormed_eraseList rest]
end

theorem Definition.wellFormed_erase {d : Definition} : d.erase.WellFormed ↔ d.WellFormed := by
  have hbody := Element.wellFormed_eraseList d.body
  have hne := Element.eraseList_ne_nil_iff d.body
  exact ⟨fun h ↦ ⟨h.name, h.params, h.distinct, hne.1 h.body_ne_nil, hbody.1 h.body⟩,
    fun h ↦ ⟨h.name, h.params, h.distinct, hne.2 h.body_ne_nil, hbody.2 h.body⟩⟩

theorem Program.wellFormed_erase {p : Program} : p.erase.WellFormed ↔ p.WellFormed := by
  have hmain := Element.wellFormed_eraseList p.main
  have hne := Element.eraseList_ne_nil_iff p.main
  constructor
  · intro h
    refine ⟨fun d hd ↦ ?_, hne.1 h.main_ne_nil, hmain.1 h.main, fun name s hmem ↦ ?_⟩
    · exact Definition.wellFormed_erase.1 (h.definitions _ (List.mem_map_of_mem hd))
    · refine h.main_statements name Span.null ?_
      rw [erase, Element.eraseList_eq_map]
      exact List.mem_map.2 ⟨_, hmem, rfl⟩
  · intro h
    refine ⟨fun d hd ↦ ?_, hne.2 h.main_ne_nil, hmain.2 h.main, fun name s hmem ↦ ?_⟩
    · obtain ⟨d', hd', rfl⟩ := List.mem_map.1 hd
      exact Definition.wellFormed_erase.2 (h.definitions d' hd')
    · rw [erase, Element.eraseList_eq_map] at hmem
      obtain ⟨e, he, heq⟩ := List.mem_map.1 hmem
      obtain ⟨s', rfl⟩ := Element.eq_parameter_of_erase heq
      exact h.main_statements name s' he

/-- Trees that are equal up to spans are well formed together. -/
theorem Program.wellFormed_of_erase_eq {p q : Program} (h : p.erase = q.erase)
    (hp : p.WellFormed) : q.WellFormed := by
  rw [← wellFormed_erase, ← h, wellFormed_erase]
  exact hp

end RobotGolf
