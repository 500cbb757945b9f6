import Mathlib.Logic.Relation
import RobotGolf.Proofs.Inheritance
import RobotGolf.Proofs.RoundTrip
/-!
# Zero is never bound and never delivered

A call with an argument of zero is skipped, so zero is bound by no call. This is looked at once,
when the argument gets its value, and never again: a value may be handed on as an argument, or be
captured in the scope of a quoted sequence, and the scope in that of another. That all scopes which
can be come by in this way are free of zeros is a part of what frames inherit (`Frame.Inherits`),
and `Env.Hereditary.of_captures` follows a chain of captured scopes to its end.

What is delivered is a command, and those of a well-formed program are the three that there are, or
a number that was looked up. `Machine.zero_neither_bound_nor_delivered` has both together.
-/

namespace RobotGolf

/-! ### Captured scopes -/

/-- A sequence is bound in a scope that has captured another. -/
def Env.Captures (e captured : Env) : Prop :=
  ∃ name body, (name, .deferred body captured) ∈ e.scope.bindings

/-- **What is hereditary holds at the end of every chain of captured scopes.** -/
theorem Env.Hereditary.of_captures {Good : Value Env → Prop} {e e' : Env}
    (h : e.Hereditary Good) (hchain : Relation.ReflTransGen Env.Captures e e') :
    e'.Hereditary Good := by
  induction hchain with
  | refl => exact h
  | tail _ hlast ih =>
    obtain ⟨name, body, hmem⟩ := hlast
    cases ih with
    | mk _ scopes => exact scopes name body _ hmem

theorem Env.Hereditary.good {Good : Value Env → Prop} {e : Env} (h : e.Hereditary Good)
    {name : Bytes} {v : Value Env} (hmem : (name, v) ∈ e.scope.bindings) : Good v := by
  cases h with
  | mk values _ => exact values _ hmem

/-! ### Well-formed elements -/

/-- **A well-formed program runs nothing but well-formed elements.** -/
theorem Program.WellFormed.inherited {p : Program} (hp : p.WellFormed) :
    Element.Inherited p Element.WellFormed where
  main := hp.main
  quoted callee args span hx body span' hmem := by
    cases hx with
    | call _ hargs =>
      cases hargs _ hmem with
      | quoted _ _ hbody => exact hbody
  called callee args span d _ hd := (hp.definitions d (List.mem_of_find?_eq_some hd)).body

/-- One of the three commands, or a number other than zero. -/
def Action.Nonzero : Action → Prop
  | command c => c ∈ [.forward, .turnLeft, .turnRight]
  | number n => n ≠ 0

/-- What a well-formed element delivers, in a scope that is free of zeros. -/
theorem Frame.Inherits.deliver {p : Program} {g : Frame Env} {x : Element} {a : Action}
    (hg : g.Inherits Element.WellFormed) (hx : x.WellFormed) (h : g.demand p x = .deliver a) :
    a.Nonzero := by
  rcases (g.source_of_demand p x).1 a h with ⟨c, span, rfl, rfl⟩ |
    ⟨name, span, n, rfl, hlookup, rfl⟩
  · cases hx with
    | command hc => exact hc
  · exact (hg.scope.of_lookup hlookup).good

namespace Machine

/-- **Zero is never bound and never an action.** Let a program be read from a source text, and let
its evaluation have come to any state, under any limits. Then none of the scopes of its frames binds
a parameter to zero, nor does any scope that is come by from these through captured scopes. All
actions that are delivered from there on, one by one or together, are one of the three commands or
a number other than zero. -/
theorem zero_neither_bound_nor_delivered {source : Bytes} {p : Program}
    (hp : Program.parse source = .ok p) (limits : Limits) {m : Machine}
    (hm : Reachable p limits m) :
    (∀ f ∈ m.stack.items, ∀ e, Relation.ReflTransGen Env.Captures f.scope e →
      ∀ name, (name, .number 0) ∉ e.scope.bindings) ∧
    (∀ a m', m.next = some (.action a, m') → a.Nonzero) ∧
    ∀ n actions, (m.take? n).1 = some actions → ∀ a ∈ actions, a.Nonzero := by
  have hinherited := (Grammar.wellFormed_of_parse hp).inherited
  have hnext : ∀ m a m', Reachable p limits m → m.next = some (.action a, m') →
      a.Nonzero := by
    intro m a m' hm ha
    refine hm.of_next (Frame.Inherits.kept hinherited) ?_ ha
    intro f x g b hadvance hf hdemand
    obtain ⟨hx, hg⟩ := hf.advance hadvance
    exact hg.deliver hx hdemand
  refine ⟨fun f hf e hchain name hzero ↦ ?_, fun a m' ↦ hnext m a m' hm,
    fun n actions ↦ hm.forall_mem_take? hnext⟩
  have hframe := hm.forall_frames (Frame.Inherits.kept hinherited) f hf
  exact (hframe.scope.of_captures hchain).good hzero rfl

end Machine

/-- A program that counts down to zero, delivers the numbers, and quotes what it was given anew each
time, so that scopes are captured in scopes. -/
def fading : Program where
  definitions := [
    ⟨"f", ["N", "B"], [.parameter "B" ⟨7, 8⟩, .call "h" [.parameter "N" ⟨10, 11⟩] ⟨8, 12⟩,
      .call "f" [.arithmetic ⟨false, [⟨false, .parameter "N"⟩, ⟨true, .literal 1⟩], ⟨14, 17⟩⟩,
        .quoted [.command .forward ⟨18, 19⟩, .parameter "B" ⟨19, 20⟩] ⟨18, 20⟩] ⟨12, 21⟩],
      ⟨0, 21⟩⟩,
    ⟨"h", ["N"], [.parameter "N" ⟨27, 28⟩], ⟨22, 28⟩⟩]
  main := [.call "f" [.arithmetic ⟨false, [⟨false, .literal 2⟩], ⟨31, 32⟩⟩,
    .quoted [.command .turnRight ⟨33, 34⟩] ⟨33, 34⟩] ⟨29, 35⟩]

/-- It delivers a two and a one, and the call with zero is skipped. -/
theorem fading_delivered :
    Program.parse (Bytes.ofString "f(N,B):Bh(N)f(N-1,sB)\nh(N):N\nf(2,r)") = .ok fading ∧
    ((Machine.start fading .standard).take? 9).1.map Action.format = some "r2sr1" ∧
    (∀ actions, ((Machine.start fading .standard).take? 9).1 = some actions →
      ∀ a ∈ actions, a.Nonzero) ∧
    ∀ f ∈ ((Machine.start fading .standard).take? 3).2.stack.items, ∀ e,
      Relation.ReflTransGen Env.Captures f.scope e →
        ∀ name, (name, .number 0) ∉ e.scope.bindings := by
  have hparse : Program.parse (Bytes.ofString "f(N,B):Bh(N)f(N-1,sB)\nh(N):N\nf(2,r)") =
      .ok fading := by
    cbv
  have hformat : ((Machine.start fading .standard).take? 9).1.map Action.format =
      some "r2sr1" := by
    cbv
  have hstart : Machine.Reachable fading .standard (Machine.start fading .standard) := .start
  have hlater := hstart.take? 3
  exact ⟨hparse, hformat, (Machine.zero_neither_bound_nor_delivered hparse _ hstart).2.2 9,
    (Machine.zero_neither_bound_nor_delivered hparse _ hlater).1⟩

end RobotGolf
