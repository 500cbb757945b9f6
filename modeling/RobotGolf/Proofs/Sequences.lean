import RobotGolf.Proofs.Heredity
import RobotGolf.Proofs.Runs
/-!
# The sequences of a program

A machine makes up nothing that it runs. Every sequence was written down in the program: as the main
block, as the body of a definition, or in quotes within one of these, at any depth
(`Program.sequences`). Frames run such sequences only (`Reachable.runs`), so that what can be read
off them one by one — on the tree, without running anything — is known of all frames of all runs.

A quoted sequence gets onto the stack by way of a scope, from where it may have been handed on any
number of times. So the invariant (`Frame.Placed`) speaks of the frame and, hereditarily, of
everything that is captured in its scope.
-/

namespace RobotGolf

/-! ### What is written down -/

mutual
/-- The sequences that are quoted in an element, at any depth. -/
def Element.quotations : Element → List (List Element)
  | .command _ _ => []
  | .parameter _ _ => []
  | .call _ args _ => Argument.quotationsList args

/-- The sequences that are quoted in an argument, at any depth, and the argument itself if it is
one. -/
def Argument.quotations : Argument → List (List Element)
  | .parameter _ _ => []
  | .quoted body _ => body :: Element.quotationsList body
  | .arithmetic _ => []

/-- The sequences that are quoted in a sequence, at any depth. -/
def Element.quotationsList : List Element → List (List Element)
  | [] => []
  | x :: rest => x.quotations ++ Element.quotationsList rest

/-- The sequences that are quoted in some arguments, at any depth. -/
def Argument.quotationsList : List Argument → List (List Element)
  | [] => []
  | a :: rest => a.quotations ++ Argument.quotationsList rest
end

/-- A sequence, and all that are quoted in it. -/
def Element.layers (body : List Element) : List (List Element) :=
  body :: Element.quotationsList body

/-- The sequences of a program: the main block, the bodies, and all that are quoted there. -/
def Program.sequences (p : Program) : List (List Element) :=
  (p.main :: p.definitions.map (·.body)).flatMap Element.layers

theorem Argument.quotations_subset {a : Argument} {args : List Argument} (h : a ∈ args) :
    a.quotations ⊆ Argument.quotationsList args := by
  induction args with
  | nil => simp at h
  | cons b rest ih =>
    rw [Argument.quotationsList]
    rcases List.mem_cons.1 h with rfl | hrest
    · exact List.subset_append_left _ _
    · exact List.subset_append_of_subset_right _ (ih hrest)

theorem Element.quotations_subset {x : Element} {body : List Element} (h : x ∈ body) :
    x.quotations ⊆ Element.quotationsList body := by
  induction body with
  | nil => simp at h
  | cons y rest ih =>
    rw [Element.quotationsList]
    rcases List.mem_cons.1 h with rfl | hrest
    · exact List.subset_append_left _ _
    · exact List.subset_append_of_subset_right _ (ih hrest)

/-- **What is quoted in a sequence brings its own quotations along.** -/
theorem Element.layers_subset_of_quoted {callee : String} {args : List Argument} {span span' : Span}
    {body quoted : List Element} (hcall : .call callee args span ∈ body)
    (hquoted : .quoted quoted span' ∈ args) : Element.layers quoted ⊆ Element.layers body := by
  have hargs : (Argument.quoted quoted span').quotations ⊆ Argument.quotationsList args :=
    Argument.quotations_subset hquoted
  have hbody : (Element.call callee args span).quotations ⊆ Element.quotationsList body :=
    Element.quotations_subset hcall
  rw [Argument.quotations] at hargs
  rw [Element.quotations] at hbody
  exact List.subset_cons_of_subset _ (List.Subset.trans hargs hbody)

theorem Program.layers_main_subset (p : Program) : Element.layers p.main ⊆ p.sequences :=
  List.subset_append_left _ _

theorem Program.layers_body_subset {p : Program} {d : Definition} (h : d ∈ p.definitions) :
    Element.layers d.body ⊆ p.sequences := by
  intro seq hseq
  refine List.mem_flatMap.2 ⟨d.body, List.mem_cons_of_mem _ ?_, hseq⟩
  exact List.mem_map_of_mem h

/-! ### What is run -/

/-- A frame has come to some place of a sequence. -/
def Frame.Runs (f : Frame Env) (seq : List Element) : Prop :=
  ∃ before, before.length = f.passed ∧ before ++ f.rest = seq

/-- A number, or a captured sequence of the program. -/
def Value.Placed (p : Program) : Value Env → Prop
  | number _ => True
  | deferred body _ => Element.layers body ⊆ p.sequences

/-- A frame runs a sequence of the program, and so do all frames that can come out of its scope. -/
structure Frame.Placed (p : Program) (f : Frame Env) : Prop where
  runs : ∃ seq, Element.layers seq ⊆ p.sequences ∧ f.Runs seq
  scope : f.scope.Hereditary (Value.Placed p)

namespace Frame

variable {p : Program} {f g : Frame Env} {x : Element} {seq : List Element}

theorem runs_enter (name : String) (body : List Element) (scope : Env) :
    (enter name body scope).Runs body :=
  ⟨[], rfl, rfl⟩

theorem Runs.passed_le (h : f.Runs seq) : f.passed ≤ seq.length := by
  obtain ⟨before, hlength, rfl⟩ := h
  rw [List.length_append]
  omega

theorem Runs.rest_eq (h : f.Runs seq) : f.rest = seq.drop f.passed := by
  obtain ⟨before, hlength, rfl⟩ := h
  rw [List.drop_left' hlength]

/-- The element ahead stands in the sequence, in front of the last one unless nothing is left behind
it, and the frame stays in the sequence. -/
theorem Runs.advance (h : f.Runs seq) (hadvance : f.advance? = some (x, g)) :
    x ∈ seq ∧ (g.rest ≠ [] → x ∈ seq.dropLast) ∧ g.Runs seq := by
  have hpassed : g.passed = f.passed + 1 := by
    have hlength := Frame.length_advance? hadvance
    have hrest := congrArg List.length (Frame.of_advance? hadvance).1
    rw [List.length_cons] at hrest
    rw [Frame.length, Frame.length] at hlength
    omega
  obtain ⟨before, hlength, rfl⟩ := h
  rw [(Frame.of_advance? hadvance).1]
  refine ⟨by simp, fun hne ↦ ?_, before ++ [x], by simp [hlength, hpassed], by simp⟩
  rw [List.dropLast_append_of_ne_nil (List.cons_ne_nil _ _), List.dropLast_cons_of_ne_nil hne]
  simp

/-- What is entered was captured, or is a body. -/
theorem Placed.enter {h : Frame Env} (hf : f.Placed p) (hadvance : f.advance? = some (x, g))
    (hdemand : g.demand p x = .enter h) : h.Placed p := by
  have hscope : g.scope.Hereditary (Value.Placed p) := (of_advance? hadvance).2 ▸ hf.scope
  obtain ⟨seq, hseq, hruns⟩ := hf.runs
  rcases (g.source_of_demand p x).2 h hdemand with
    ⟨name, span, body, captured, rfl, hlookup, rfl⟩ |
    ⟨callee, args, span, d, scope, rfl, hfind, hbind, rfl⟩
  · have hvalue := hscope.of_lookup hlookup
    exact ⟨⟨body, hvalue.good, runs_enter ..⟩, hvalue.captured body captured rfl⟩
  · refine ⟨⟨d.body, Program.layers_body_subset (List.mem_of_find?_eq_some hfind),
      runs_enter ..⟩, ?_⟩
    refine Argument.bindAll_hereditary hscope (fun _ _ ↦ trivial) (fun body span hquoted ↦ ?_)
      (Env.hereditary_empty _) hbind
    have hwithin := Element.layers_subset_of_quoted (hruns.advance hadvance).1 hquoted
    exact List.Subset.trans hwithin hseq

/-- A machine makes up nothing that it runs. -/
theorem placed_kept (p : Program) : Frame.Kept p (Frame.Placed p) where
  main := ⟨⟨p.main, p.layers_main_subset, runs_enter ..⟩, Env.hereditary_empty _⟩
  pass f x g hadvance hf := by
    obtain ⟨seq, hseq, hruns⟩ := hf.runs
    exact ⟨⟨seq, hseq, (hruns.advance hadvance).2.2⟩, (of_advance? hadvance).2 ▸ hf.scope⟩
  enter _ _ _ _ hadvance hf hdemand := hf.enter hadvance hdemand

end Frame

/-- **Every frame of every run is at some place of a sequence of the program.** -/
theorem Machine.Reachable.runs {p : Program} {limits : Limits} {m : Machine}
    (hm : Machine.Reachable p limits m) {f : Frame Env} (hf : f ∈ m.stack.items) :
    ∃ seq ∈ p.sequences, f.Runs seq := by
  obtain ⟨seq, hseq, hruns⟩ := (hm.forall_frames (Frame.placed_kept p) f hf).runs
  exact ⟨seq, hseq (List.mem_cons_self ..), hruns⟩

end RobotGolf
