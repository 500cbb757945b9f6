import Mathlib.Data.String.Basic
import Mathlib.Logic.Relation
import RobotGolf.Proofs.Inheritance
import RobotGolf.Proofs.Lockstep
import RobotGolf.Proofs.Scoping
/-!
# Only the first definitions of reachable names matter

The main block calls some procedures, the bodies of these call others, and so on; the names that are
come by in this way are the reachable ones (`Program.Reaches`). Two programs with the same main
block that define the reachable names alike (`Program.Agrees`) cannot be told apart by their runs,
whatever else they define (`Program.Agrees.runsAlike`).

A call is not always made where it was written, since it may be quoted and handed around. But where
it was written is a body of a reachable name, or the main block, and it is a call of the same name
wherever it is made. That all calls ahead are calls of reachable names is therefore inherited
(`Program.inherited_callsReached`), and so the two programs run in lockstep, with frames that are
equal.

A program can be edited accordingly: definitions may go that are shadowed by an earlier one of the
same name, or whose names are not reachable, and definitions of distinct names may change places
(`Program.Edit`).
-/

namespace RobotGolf

/-! ### Reachable names -/

/-- The name of the procedure that is called. -/
def Mention.callee? : Mention → Option String
  | parameter _ => none
  | call callee _ => some callee

/-- The names of the procedures that are called in a sequence, at any quoting depth. -/
def Element.callees (body : List Element) : List String :=
  (Element.mentionsList body).filterMap Mention.callee?

theorem Element.mem_callees {body : List Element} {callee : String} {arguments : Nat}
    (h : .call callee arguments ∈ Element.mentionsList body) : callee ∈ Element.callees body :=
  List.mem_filterMap.2 ⟨_, h, rfl⟩

namespace Program

/-- The reachable names: those that the main block calls, and those that are called in the body of
the first definition of a reachable name. -/
inductive Reaches (p : Program) : String → Prop where
  | main {callee : String} (h : callee ∈ Element.callees p.main) : Reaches p callee
  | body {name callee : String} {d : Definition} (hname : Reaches p name)
      (hd : p.find? name = some d) (h : callee ∈ Element.callees d.body) : Reaches p callee

/-- Some names that no call leads out of: among them are all that the main block calls, and all that
are called in their own first definitions. -/
def Encloses (p : Program) (names : List String) : Prop :=
  ∀ body ∈ p.main :: names.filterMap fun name ↦ (p.find? name).map (·.body),
    ∀ callee ∈ Element.callees body, callee ∈ names

instance (p : Program) (names : List String) : Decidable (p.Encloses names) :=
  inferInstanceAs (Decidable (∀ body ∈ _, ∀ callee ∈ Element.callees body, callee ∈ names))

/-- The reachable names are the fewest that no call leads out of. -/
theorem Encloses.mem_of_reaches {p : Program} {names : List String} (h : p.Encloses names)
    {name : String} (hname : p.Reaches name) : name ∈ names := by
  induction hname with
  | main hcallee => exact h _ (List.mem_cons_self ..) _ hcallee
  | @body name _ d _ hd hcallee ih =>
    have hbody : d.body ∈ names.filterMap fun name ↦ (p.find? name).map (·.body) :=
      List.mem_filterMap.2 ⟨name, ih, by rw [hd]; rfl⟩
    exact h _ (List.mem_cons_of_mem _ hbody) _ hcallee

/-- All calls in an element are calls of reachable names. -/
def CallsReached (p : Program) (x : Element) : Prop :=
  ∀ callee arguments, .call callee arguments ∈ x.mentions → p.Reaches callee

/-- **No call leads out of the reachable names.** -/
theorem inherited_callsReached (p : Program) : Element.Inherited p p.CallsReached where
  main _ hx _ _ hcall := .main (Element.mem_callees (Element.mentions_subset hx hcall))
  quoted callee args span hx body span' hmem y hy callee' arguments hcall := by
    refine hx callee' arguments ?_
    have hbody : .call callee' arguments ∈ Argument.mentionsList args :=
      Argument.mentions_subset hmem (by
        rw [Argument.mentions]
        exact Element.mentions_subset hy hcall)
    rw [Element.mentions]
    exact List.mem_cons_of_mem _ hbody
  called callee args span d hx hd y hy callee' arguments hcall := by
    have hcallee : p.Reaches callee :=
      hx callee args.length (by rw [Element.mentions]; exact List.mem_cons_self ..)
    exact .body hcallee hd (Element.mem_callees (Element.mentions_subset hy hcall))

end Program

/-! ### Programs that agree on the reachable names -/

/-- Equal demands agree, if the frames that are asked for are related to themselves. -/
theorem Demand.agrees_self {R : Frame Env → Frame Env → Prop} {x : Demand}
    (h : ∀ f, x = .enter f → R f f) : x.Agrees R Eq x := by
  cases x with
  | finish => exact .finish
  | leave => exact .leave
  | skip => exact .skip
  | deliver a => exact .deliver a
  | enter f => exact .enter (h f rfl)
  | fail failure => exact .fail rfl
  | stick => exact .stick

/-- An element asks two programs for the same if they define the procedure alike that it calls. -/
theorem Frame.demand_congr {p p' : Program} (f : Frame Env) {x : Element}
    (h : ∀ callee arguments, .call callee arguments ∈ x.mentions →
      p'.find? callee = p.find? callee) :
    f.demand p' x = f.demand p x := by
  cases x with
  | command c span => rfl
  | parameter name span => rfl
  | call callee args span =>
    have hfind : p'.find? callee = p.find? callee :=
      h callee args.length (by rw [Element.mentions]; exact List.mem_cons_self ..)
    rw [Frame.demand, Frame.demand, hfind]

namespace Program

/-- Two programs whose runs cannot be told apart: under any limits, whatever is requested one after
the other, it is answered in the same way and leaves the same to be seen. -/
def RunsAlike (p p' : Program) : Prop :=
  ∀ (limits : Limits) (requests : List Machine.Request),
    (Machine.start p' limits).transcript requests = (Machine.start p limits).transcript requests

/-- Two programs with the same main block that define the reachable names alike. -/
structure Agrees (p p' : Program) : Prop where
  main : p'.main = p.main
  find? : ∀ name, p.Reaches name → p'.find? name = p.find? name

/-- **Programs that agree on the reachable names run in lockstep**, with the same frames. -/
theorem Agrees.lockstep {p p' : Program} (h : p.Agrees p') :
    Lockstep p p' (fun f f' ↦ f' = f ∧ f.Inherits p.CallsReached) Eq where
  main := by
    rw [h.main]
    exact ⟨rfl, (Frame.Inherits.kept p.inherited_callsReached).main⟩
  exhausted := by
    rintro f f' ⟨rfl, -⟩
    rfl
  element f f' x g x' g' hf hadvance hadvance' := by
    obtain ⟨rfl, hf⟩ := hf
    obtain ⟨rfl, rfl⟩ : x = x' ∧ g = g' := by simpa [hadvance] using hadvance'
    obtain ⟨hx, hg⟩ := hf.advance hadvance
    have hdemand : g.demand p' x = g.demand p x :=
      g.demand_congr fun callee arguments hcall ↦ h.find? callee (hx callee arguments hcall)
    refine ⟨⟨rfl, hg⟩, ?_⟩
    rw [hdemand]
    exact Demand.agrees_self fun f hf ↦ ⟨rfl, hg.demand p.inherited_callsReached hx hf⟩
  recursion _ _ := rfl

theorem Agrees.runsAlike {p p' : Program} (h : p.Agrees p') : p.RunsAlike p' :=
  fun limits requests ↦
    (Machine.inStep_start h.lockstep limits).transcript_eq h.lockstep requests

/-! ### Edits -/

/-- Changes of the definitions that do not touch what is reachable. -/
inductive Edit : Program → Program → Prop where
  /-- A definition goes that comes after another one of its name. -/
  | dropShadowed (before between after : List Definition) (d d' : Definition)
      (main : List Element) (h : d'.name = d.name) :
      Edit ⟨before ++ d :: between ++ d' :: after, main⟩ ⟨before ++ d :: between ++ after, main⟩
  /-- A definition goes whose name is not reachable. -/
  | dropUnreached (before after : List Definition) (d : Definition) (main : List Element)
      (h : ¬ Reaches ⟨before ++ d :: after, main⟩ d.name) :
      Edit ⟨before ++ d :: after, main⟩ ⟨before ++ after, main⟩
  /-- Definitions change places, while those of one name stay in their order. -/
  | reorder (definitions definitions' : List Definition) (main : List Element)
      (h : ∀ name, definitions'.filter (·.name == name) = definitions.filter (·.name == name)) :
      Edit ⟨definitions, main⟩ ⟨definitions', main⟩

theorem Edit.agrees {p p' : Program} (h : p.Edit p') : p.Agrees p' := by
  cases h with
  | dropShadowed before between after d d' main hname =>
    refine ⟨rfl, fun name _ ↦ ?_⟩
    show List.find? _ _ = List.find? _ _
    by_cases hd : d.name = name
    · -- the earlier definition is found, unless one before it is
      simp [List.find?_append, hd]
    · have hd' : d'.name ≠ name := hname ▸ hd
      simp [List.find?_append, hd, hd']
  | dropUnreached before after d main hd =>
    refine ⟨rfl, fun name hname ↦ ?_⟩
    have hne : d.name ≠ name := fun heq ↦ hd (heq ▸ hname)
    show List.find? _ _ = List.find? _ _
    simp [List.find?_append, hne]
  | reorder definitions definitions' main hfilter =>
    refine ⟨rfl, fun name _ ↦ ?_⟩
    show List.find? _ _ = List.find? _ _
    rw [← List.head?_filter, ← List.head?_filter, hfilter name]

/-- **Only reachable first definitions matter.** If two programs have the same main block, and every
reachable name has the same first definition in both or none in both, then their runs are the same:
under all limits and for all requests, one after the other, the same actions are delivered, as much
is left to be run, as many actions are counted, and the failure is the same. In particular this is
so for a program that comes of another by dropping shadowed or unreachable definitions and by
reordering definitions of distinct names, any number of times. -/
theorem unreached_definitions_unnoticed (p p' : Program) :
    (p'.main = p.main → (∀ name, p.Reaches name → p'.find? name = p.find? name) →
      p.RunsAlike p') ∧
    (Relation.ReflTransGen Edit p p' → p.RunsAlike p') := by
  refine ⟨fun hmain hfind ↦ Agrees.runsAlike ⟨hmain, hfind⟩, fun hedits ↦ ?_⟩
  induction hedits with
  | refl => exact fun _ _ ↦ rfl
  | tail _ hedit ih =>
    exact fun limits requests ↦ (hedit.agrees.runsAlike limits requests).trans (ih limits requests)

/-! ### A cluttered program -/

/-- The procedure `a`. -/
def turning : Definition := ⟨"a", [], [.command .turnRight ⟨2, 3⟩], ⟨0, 3⟩⟩

/-- The procedure `b`, which runs what it is given and then `c`. -/
def relaying : Definition :=
  ⟨"b", ["A"], [.parameter "A" ⟨9, 10⟩, .call "c" [] ⟨10, 11⟩], ⟨4, 11⟩⟩

/-- A second definition of `a`. -/
def shadowed : Definition := ⟨"a", [], [.command .turnLeft ⟨14, 15⟩], ⟨12, 15⟩⟩

/-- The procedure `c`. -/
def going : Definition := ⟨"c", [], [.command .forward ⟨18, 19⟩], ⟨16, 19⟩⟩

/-- The procedure `d`, which nothing but itself calls. -/
def idle : Definition :=
  ⟨"d", [], [.call "b" [.quoted [.call "d" [] ⟨24, 25⟩] ⟨24, 25⟩] ⟨22, 26⟩], ⟨20, 26⟩⟩

/-- A program with more definitions than it needs. The call of `a` is quoted in the main block and
made in the body of `b`. -/
def cluttered : Program where
  definitions := [turning, relaying, shadowed, going, idle]
  main := [.call "b" [.quoted [.command .turnLeft ⟨29, 30⟩, .call "a" [] ⟨30, 31⟩] ⟨29, 31⟩]
    ⟨27, 32⟩]

/-- The same program with the definitions that it needs, in another order. -/
def tidied : Program where
  definitions := [going, relaying, turning]
  main := cluttered.main

/-- One program comes of the other by three edits, and they agree on the reachable names. -/
theorem cluttered_runsAlike_tidied :
    Program.parse (Bytes.ofString "a:r\nb(A):Ac\na:l\nc:s\nd:b(d)\nb(la)") = .ok cluttered ∧
    Relation.ReflTransGen Edit cluttered tidied ∧ cluttered.RunsAlike tidied ∧
    (∀ name, tidied.Reaches name → cluttered.find? name = tidied.find? name) ∧
    tidied.RunsAlike cluttered := by
  have hparse : Program.parse (Bytes.ofString "a:r\nb(A):Ac\na:l\nc:s\nd:b(d)\nb(la)") =
      .ok cluttered := by
    cbv
  have hidle : ¬ Reaches ⟨[turning, relaying, going, idle], cluttered.main⟩ idle.name := by
    intro hreaches
    have henclosed : Encloses ⟨[turning, relaying, going, idle], cluttered.main⟩
        ["a", "b", "c"] := by decide
    exact absurd (henclosed.mem_of_reaches hreaches) (by decide)
  have horder : ∀ name, [going, relaying, turning].filter (·.name == name) =
      [turning, relaying, going].filter (·.name == name) := by
    intro name
    by_cases hturning : turning.name = name
    · subst hturning
      rfl
    by_cases hrelaying : relaying.name = name
    · subst hrelaying
      rfl
    · simp [List.filter_cons, hturning, hrelaying]
  have hedits : Relation.ReflTransGen Edit cluttered tidied :=
    .head (.dropShadowed [] [relaying] [going, idle] turning shadowed _ rfl)
      (.head (.dropUnreached [turning, relaying, going] [] idle _ hidle)
        (.single (.reorder _ _ _ horder)))
  have hfind : ∀ name, tidied.Reaches name → cluttered.find? name = tidied.find? name := by
    intro name hname
    have henclosed : tidied.Encloses ["a", "b", "c"] := by decide
    have hcases := henclosed.mem_of_reaches hname
    simp only [List.mem_cons, List.not_mem_nil, or_false] at hcases
    rcases hcases with rfl | rfl | rfl <;> rfl
  exact ⟨hparse, hedits, (unreached_definitions_unnoticed _ _).2 hedits, hfind,
    (unreached_definitions_unnoticed _ _).1 rfl hfind⟩

end Program

end RobotGolf
