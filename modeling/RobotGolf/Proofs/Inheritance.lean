import RobotGolf.Proofs.Heredity
import RobotGolf.Proofs.Runs
/-!
# Properties of everything that is run

What a machine runs are pieces of its program: the main block, bodies of procedures that were
called, and sequences that were quoted in calls. So a property of elements holds of all that is ever
run if the main block has it and a call hands it on, to the sequences quoted in its arguments and to
the body of the procedure (`Element.Inherited`).

Along a run the property has to be known of more than the elements that are left on the stack.
Quoted sequences are run later, out of scopes within scopes, and so the invariant speaks of these as
well (`Frame.Inherits`). Since numbers are bound by the same calls as sequences are, it says of them
what a call makes sure of: zero is not among them.
-/

namespace RobotGolf

/-- A property of elements that the main block has, and that a call hands on to what is quoted in it
and to the body of its procedure. -/
structure Element.Inherited (p : Program) (G : Element → Prop) : Prop where
  main : ∀ x ∈ p.main, G x
  quoted : ∀ callee args span, G (.call callee args span) →
    ∀ body span', .quoted body span' ∈ args → ∀ x ∈ body, G x
  called : ∀ callee args span d, G (.call callee args span) → p.find? callee = some d →
    ∀ x ∈ d.body, G x

/-- A number other than zero, or a sequence whose elements have a property. -/
def Value.Inherits (G : Element → Prop) : Value Env → Prop
  | number n => n ≠ 0
  | deferred body _ => ∀ x ∈ body, G x

/-- The elements that are left of a frame have a property, and so have those of all sequences that
can be reached through its scope. All numbers that can be reached there differ from zero. -/
structure Frame.Inherits (G : Element → Prop) (f : Frame Env) : Prop where
  rest : ∀ x ∈ f.rest, G x
  scope : f.scope.Hereditary (Value.Inherits G)

namespace Frame.Inherits

variable {p : Program} {G : Element → Prop} {f g : Frame Env} {x : Element}

/-- The element ahead, and the frame behind it. -/
theorem advance (hf : f.Inherits G) (h : f.advance? = some (x, g)) : G x ∧ g.Inherits G := by
  obtain ⟨hrest, hscope⟩ := Frame.of_advance? h
  obtain ⟨hx, htail⟩ := List.forall_mem_cons.1 (hrest ▸ hf.rest)
  exact ⟨hx, htail, hscope ▸ hf.scope⟩

/-- **An element hands on what it has** to the frame that it asks for. -/
theorem demand (hG : Element.Inherited p G) (hg : g.Inherits G) (hx : G x) {h : Frame Env}
    (hdemand : g.demand p x = .enter h) : h.Inherits G := by
  rcases (g.source_of_demand p x).2 h hdemand with ⟨name, span, body, captured, rfl, hlookup, rfl⟩ |
    ⟨callee, args, span, d, scope, rfl, hfind, hbind, rfl⟩
  · have hvalue := hg.scope.of_lookup hlookup
    exact ⟨hvalue.good, hvalue.captured body captured rfl⟩
  · -- the body is that of a procedure which was called, and the sequences were quoted in the call
    refine ⟨hG.called callee args span d hx hfind, ?_⟩
    exact Argument.bindAll_hereditary hg.scope (fun _ hn ↦ hn)
      (fun body span' hmem ↦ hG.quoted callee args span hx body span' hmem)
      (Env.hereditary_empty _) hbind

/-- **Inherited properties are kept.** -/
theorem kept (hG : Element.Inherited p G) : Frame.Kept p (Frame.Inherits G) where
  main := ⟨hG.main, Env.hereditary_empty _⟩
  pass _ _ _ hadvance hf := (hf.advance hadvance).2
  enter _ _ _ _ hadvance hf hdemand :=
    (hf.advance hadvance).2.demand hG (hf.advance hadvance).1 hdemand

end Frame.Inherits

end RobotGolf
