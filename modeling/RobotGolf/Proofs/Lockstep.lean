import Mathlib.Data.List.Forall2
import RobotGolf.Proofs.Runs
/-!
# Two programs in lockstep

Two programs give the same answers if their machines take the same steps. To compare the machines it
is enough to compare frames, because a step is made of what the topmost frame asks for and of what
the limits say, and the limits look at the number of frames and at nothing else.

So let `R` be a relation between frames and `S` one between failures. They keep two programs in
**lockstep** (`Lockstep`) if the frames of the main blocks are related, and if related frames run
out together, and what the elements ahead of them ask for is the same up to `R` and `S`
(`Demand.Agrees`). Then the machines stay in step (`Machine.InStep`): behind every step
(`InStep.step`), every request (`InStep.next`) and any number of them (`InStep.take?`,
`InStep.respond`).

Requests of all kinds, one after the other, are listed with what is seen of them in a transcript
(`Machine.transcript`). If failures are related only to themselves, transcripts are the same
(`InStep.transcript_eq`).
-/

namespace RobotGolf

/-! ### Transcripts -/

namespace Machine

/-- What can be asked of an evaluation. -/
inductive Request where
  | next
  | take (n : Int)
  | abandon
  deriving DecidableEq, Repr

/-- What a request is answered with. A request for the next action may never be answered. -/
inductive Answer where
  | reply (r : Option Reply)
  | actions (found : Option (List Action))
  | nothing
  deriving DecidableEq, Repr

/-- Answers a request. One that is never answered leaves the machine as it was. -/
def respond (m : Machine) : Request → Answer × Machine
  | .next =>
    match m.next with
    | some (r, m') => (.reply (some r), m')
    | none => (.reply none, m)
  | .take n => (.actions (m.take? n).1, (m.take? n).2)
  | .abandon => (.nothing, m.abandon)

/-- What is seen of a request: its answer and, behind it, whether anything is left to be run, how
many actions were delivered, and the failure. -/
structure Entry where
  answer : Answer
  done : Bool
  count : Nat
  failure : Option Failure
  deriving DecidableEq, Repr

/-- What is seen of a request that is answered and leaves the machine `m`. -/
def entry (answer : Answer) (m : Machine) : Entry := ⟨answer, m.done, m.count, m.failure⟩

/-- What is seen of some requests, one after the other. -/
def transcript (m : Machine) : List Request → List Entry
  | [] => []
  | request :: requests =>
    entry (m.respond request).1 (m.respond request).2 ::
      (m.respond request).2.transcript requests

end Machine

/-! ### Frames in lockstep -/

variable {p p' : Program} {R : Frame Env → Frame Env → Prop} {S : Failure → Failure → Prop}

/-- Demands that are the same, up to the frame that is to be entered and the failure. -/
inductive Demand.Agrees (R : Frame Env → Frame Env → Prop) (S : Failure → Failure → Prop) :
    Demand → Demand → Prop where
  | finish : Demand.Agrees R S .finish .finish
  | leave : Demand.Agrees R S .leave .leave
  | skip : Demand.Agrees R S .skip .skip
  | deliver (a : Action) : Demand.Agrees R S (.deliver a) (.deliver a)
  | enter {f f' : Frame Env} (h : R f f') : Demand.Agrees R S (.enter f) (.enter f')
  | fail {e e' : Failure} (h : S e e') : Demand.Agrees R S (.fail e) (.fail e')
  | stick : Demand.Agrees R S .stick .stick

/-- `R` and `S` keep two programs in lockstep. -/
structure Lockstep (p p' : Program) (R : Frame Env → Frame Env → Prop)
    (S : Failure → Failure → Prop) : Prop where
  main : R (Frame.enter "main" p.main (.mk Scope.globals))
    (Frame.enter "main" p'.main (.mk Scope.globals))
  exhausted : ∀ f f', R f f' → f'.exhausted = f.exhausted
  element : ∀ f f' x g x' g', R f f' → f.advance? = some (x, g) → f'.advance? = some (x', g') →
    R g g' ∧ (g.demand p x).Agrees R S (g'.demand p' x')
  recursion : ∀ depth calls, S (.recursion depth calls) (.recursion depth calls)

namespace Machine

/-- Two machines that differ in their programs, and in related frames and failures. -/
structure InStep (p p' : Program) (R : Frame Env → Frame Env → Prop)
    (S : Failure → Failure → Prop) (m m' : Machine) : Prop where
  program : m.program = p
  program' : m'.program = p'
  limits : m'.limits = m.limits
  items : List.Forall₂ R m.stack.items m'.stack.items
  failure : Option.Rel S m.failure m'.failure
  count : m'.count = m.count
  silent : m'.silent = m.silent

end Machine

/-- Outcomes of the same kind with machines in step. -/
inductive Outcome.InStep (p p' : Program) (R : Frame Env → Frame Env → Prop)
    (S : Failure → Failure → Prop) : Outcome → Outcome → Prop where
  | quiet {m m' : Machine} (h : m.InStep p p' R S m') :
      Outcome.InStep p p' R S (.quiet m) (.quiet m')
  | action {m m' : Machine} (a : Action) (h : m.InStep p p' R S m') :
      Outcome.InStep p p' R S (.action a m) (.action a m')
  | ended {m m' : Machine} (h : m.InStep p p' R S m') :
      Outcome.InStep p p' R S (.ended m) (.ended m')
  | stuck {m m' : Machine} (h : m.InStep p p' R S m') :
      Outcome.InStep p p' R S (.stuck m) (.stuck m')

namespace Machine

variable {m m' : Machine}

/-! ### One step -/

theorem inStep_start (hL : Lockstep p p' R S) (limits : Limits) :
    (start p limits).InStep p p' R S (start p' limits) :=
  ⟨rfl, rfl, rfl, .cons hL.main .nil, .none, rfl, rfl⟩

namespace InStep

theorem size_eq (h : m.InStep p p' R S m') : m'.stack.size = m.stack.size := by
  rw [m.stack.size_eq, m'.stack.size_eq, h.items.length_eq]

theorem done_eq (h : m.InStep p p' R S m') : m'.done = m.done := by
  have hlength := h.items.length_eq
  rw [done, done, Stack.isEmpty, Stack.isEmpty, Bool.eq_iff_iff, List.isEmpty_iff_length_eq_zero,
    List.isEmpty_iff_length_eq_zero, hlength]

theorem failure_eq (h : m.InStep p p' R Eq m') : m'.failure = m.failure := by
  have hrel := h.failure
  generalize m.failure = e at hrel ⊢
  generalize m'.failure = e' at hrel ⊢
  cases hrel with
  | some heq => rw [heq]
  | none => rfl

theorem deliver (h : m.InStep p p' R S m') : m.deliver.InStep p p' R S m'.deliver :=
  ⟨h.program, h.program', h.limits, h.items, h.failure, congrArg (· + 1) h.count, rfl⟩

theorem abandon (h : m.InStep p p' R S m') : m.abandon.InStep p p' R S m'.abandon :=
  ⟨h.program, h.program', h.limits, .nil, h.failure, h.count, h.silent⟩

theorem fail (h : m.InStep p p' R S m') {e e' : Failure} (he : S e e') :
    (m.fail e).InStep p p' R S (m'.fail e') :=
  ⟨h.program, h.program', h.limits, .nil, .some he, h.count, h.silent⟩

/-- One more frame was entered. -/
theorem count_entry (h : m.InStep p p' R S m') :
    { m with silent := m.silent + 1 }.InStep p p' R S { m' with silent := m'.silent + 1 } :=
  ⟨h.program, h.program', h.limits, h.items, h.failure, h.count, congrArg (· + 1) h.silent⟩

/-- Frames that run out together are dropped together. -/
theorem dropExhausted (hL : Lockstep p p' R S) (h : m.InStep p p' R S m') :
    List.Forall₂ R (Machine.dropExhausted m.stack).items
      (Machine.dropExhausted m'.stack).items := by
  have hitems := h.items
  unfold Machine.dropExhausted Stack.top?
  rcases hstack : m.stack.items with - | ⟨f, below⟩ <;>
    rcases hstack' : m'.stack.items with - | ⟨f', below'⟩ <;> rw [hstack, hstack'] at hitems
  · simp [hstack, hstack']
  · cases hitems
  · cases hitems
  · obtain ⟨hf, hbelow⟩ := List.forall₂_cons.1 hitems
    by_cases hrest : f.exhausted = true
    · simpa [hL.exhausted f f' hf, hrest, hstack, hstack'] using hbelow
    · simpa [hL.exhausted f f' hf, hrest, hstack, hstack'] using ⟨hf, hbelow⟩

/-- **Entering a frame** turns out in the same way, since both stacks are of one size. -/
theorem enter (hL : Lockstep p p' R S) (h : m.InStep p p' R S m') {f f' : Frame Env}
    (hf : R f f') : (m.enter f).InStep p p' R S (m'.enter f') := by
  have hdropped := h.dropExhausted hL
  have hsize : (Machine.dropExhausted m'.stack).size = (Machine.dropExhausted m.stack).size := by
    rw [(Machine.dropExhausted m.stack).size_eq, (Machine.dropExhausted m'.stack).size_eq,
      hdropped.length_eq]
  have hsilent : m'.limits.silent < m'.silent + 1 ↔ m.limits.silent < m.silent + 1 := by
    rw [h.limits, h.silent]
  have hdepth : m'.limits.depth.toInt ≤ (Machine.dropExhausted m'.stack).size ↔
      m.limits.depth.toInt ≤ (Machine.dropExhausted m.stack).size := by
    rw [h.limits, hsize]
  simp only [Machine.enter, hsilent, hdepth]
  split
  · refine .ended (h.count_entry.fail ?_)
    rw [h.size_eq, h.silent]
    exact hL.recursion _ _
  split
  · refine .ended (h.count_entry.fail ?_)
    rw [hsize, h.silent]
    exact hL.recursion _ _
  · exact .quiet ⟨h.program, h.program', h.limits, .cons hf hdropped, h.failure, h.count,
      congrArg (· + 1) h.silent⟩

/-- What is asked for is carried out in the same way. -/
theorem perform (hL : Lockstep p p' R S) (h : m.InStep p p' R S m') {d d' : Demand}
    (hd : d.Agrees R S d') : (m.perform d).InStep p p' R S (m'.perform d') := by
  cases hd with
  | finish => exact .ended h
  | leave => exact .quiet h
  | skip => exact .quiet h
  | deliver a => exact .action a h.deliver
  | enter hf => exact h.enter hL hf
  | fail he => exact .ended (h.fail he)
  | stick => exact .stuck h

/-- Both stacks move on, and the same is asked for. -/
theorem moved (hL : Lockstep p p' R S) (h : m.InStep p p' R S m') :
    m.moved.InStep p p' R S m'.moved ∧ m.demand.Agrees R S m'.demand := by
  have hmoved : List.Forall₂ R m.moved.stack.items m'.moved.stack.items →
      m.moved.InStep p p' R S m'.moved := by
    intro hitems
    obtain ⟨stack, hm⟩ := m.exists_moved_eq
    obtain ⟨stack', hm'⟩ := m'.exists_moved_eq
    rw [hm, hm'] at hitems ⊢
    exact ⟨h.program, h.program', h.limits, hitems, h.failure, h.count, h.silent⟩
  have hitems := h.items
  rcases hstack : m.stack.items with - | ⟨f, below⟩ <;>
    rcases hstack' : m'.stack.items with - | ⟨f', below'⟩ <;> rw [hstack, hstack'] at hitems
  · refine ⟨hmoved ?_, ?_⟩
    · rw [moved_of_nil hstack, moved_of_nil hstack', hstack, hstack']
      exact .nil
    · rw [demand_of_nil hstack, demand_of_nil hstack']
      exact .finish
  · cases hitems
  · cases hitems
  obtain ⟨hf, hbelow⟩ := List.forall₂_cons.1 hitems
  have hsame := hL.exhausted f f' hf
  rcases hrest : f.rest with - | ⟨x, rest⟩ <;> rcases hrest' : f'.rest with - | ⟨x', rest'⟩
  · refine ⟨hmoved ?_, ?_⟩
    · rw [items_moved_of_exhausted hstack hrest, items_moved_of_exhausted hstack' hrest']
      exact hbelow
    · rw [demand_of_exhausted hstack hrest, demand_of_exhausted hstack' hrest']
      exact .leave
  · simp [Frame.exhausted, hrest, hrest'] at hsame
  · simp [Frame.exhausted, hrest, hrest'] at hsame
  · have hadvance : f.advance? = some (x, { f with passed := f.passed + 1, rest := rest }) := by
      rw [Frame.advance?, hrest]
    have hadvance' :
        f'.advance? = some (x', { f' with passed := f'.passed + 1, rest := rest' }) := by
      rw [Frame.advance?, hrest']
    obtain ⟨hg, hdemand⟩ := hL.element f f' x _ x' _ hf hadvance hadvance'
    refine ⟨hmoved ?_, ?_⟩
    · rw [items_moved_of_cons hstack hrest, items_moved_of_cons hstack' hrest']
      exact .cons hg hbelow
    · rw [demand_of_cons hstack hrest, demand_of_cons hstack' hrest', h.program, h.program']
      exact hdemand

/-- **Machines in step take the same step.** -/
theorem step (hL : Lockstep p p' R S) (h : m.InStep p p' R S m') :
    m.step.InStep p p' R S m'.step := by
  obtain ⟨hmoved, hdemand⟩ := h.moved hL
  rw [step_eq_perform, step_eq_perform]
  exact hmoved.perform hL hdemand

/-! ### Requests -/

/-- Machines in step go through the same iterations of a request. -/
theorem loop (hL : Lockstep p p' R S) (h : m.InStep p p' R S m') (k : Nat) :
    (m.loop k).InStep p p' R S (m'.loop k) := by
  induction k generalizing m m' with
  | zero => exact .quiet h
  | succ k ih =>
    have hstep := h.step hL
    rw [Machine.loop, Machine.loop]
    generalize m.step = o at hstep
    generalize m'.step = o' at hstep
    cases hstep with
    | quiet h => exact ih h
    | action a h => exact .action a h
    | ended h => exact .ended h
    | stuck h => exact .stuck h

/-- **Machines in step answer a request in the same way**, or neither of them ever does. -/
theorem next (hL : Lockstep p p' R S) (h : m.InStep p p' R S m') :
    Option.Rel (fun r r' ↦ r'.1 = r.1 ∧ r.2.InStep p p' R S r'.2) m.next m'.next := by
  have answer? : ∀ k, Option.Rel (fun r r' ↦ r'.1 = r.1 ∧ r.2.InStep p p' R S r'.2)
      (m.loop k).answer? (m'.loop k).answer? := by
    intro k
    have hloop := h.loop hL k
    generalize m.loop k = o at hloop
    generalize m'.loop k = o' at hloop
    cases hloop with
    | quiet h => exact .none
    | action a h => exact .some ⟨rfl, h⟩
    | ended h => exact .some ⟨rfl, h⟩
    | stuck h => exact .some ⟨rfl, h⟩
  -- whichever machine answers, the other one does so in the same iteration
  rcases hnext : m.next with - | r
  · rcases hnext' : m'.next with - | r'
    · exact .none
    · obtain ⟨k, hk⟩ := next_eq_some_iff_exists_loop.1 hnext'
      have hboth := answer? k
      rw [hk] at hboth
      generalize ha : (m.loop k).answer? = a at hboth
      cases hboth with
      | some => simp [next_eq_some_iff_exists_loop.2 ⟨k, ha⟩] at hnext
  · obtain ⟨k, hk⟩ := next_eq_some_iff_exists_loop.1 hnext
    have hboth := answer? k
    rw [hk] at hboth
    generalize ha : (m'.loop k).answer? = a at hboth
    cases hboth with
    | some hr =>
      rw [next_eq_some_iff_exists_loop.2 ⟨k, ha⟩]
      exact .some hr

theorem take (hL : Lockstep p p' R S) (h : m.InStep p p' R S m') (n : Nat) :
    (m'.take n).1 = (m.take n).1 ∧ (m.take n).2.InStep p p' R S (m'.take n).2 := by
  induction n generalizing m m' with
  | zero => exact ⟨rfl, h⟩
  | succ n ih =>
    have hboth := h.next hL
    generalize hm : m.next = r at hboth
    generalize hm' : m'.next = r' at hboth
    cases hboth with
    | none =>
      rw [take_succ_of_none hm, take_succ_of_none hm']
      exact ⟨rfl, h⟩
    | @some r r' hr =>
      obtain ⟨reply, m₁⟩ := r
      obtain ⟨reply', m₁'⟩ := r'
      obtain ⟨rfl, hnext⟩ : reply' = reply ∧ m₁.InStep p p' R S m₁' := hr
      cases reply' with
      | action a =>
        obtain ⟨hsame, hlater⟩ := ih hnext
        rw [take_succ_of_action hm, take_succ_of_action hm', hsame]
        exact ⟨rfl, hlater⟩
      | ended =>
        rw [take_succ_of_ended hm, take_succ_of_ended hm']
        exact ⟨rfl, hnext⟩
      | stuck =>
        rw [take_succ_of_stuck hm, take_succ_of_stuck hm']
        exact ⟨rfl, hnext⟩

theorem take? (hL : Lockstep p p' R S) (h : m.InStep p p' R S m') (n : Int) :
    (m'.take? n).1 = (m.take? n).1 ∧ (m.take? n).2.InStep p p' R S (m'.take? n).2 := by
  unfold Machine.take?
  split
  · exact ⟨rfl, h⟩
  · exact h.take hL n.toNat

theorem respond (hL : Lockstep p p' R S) (h : m.InStep p p' R S m') (request : Request) :
    (m'.respond request).1 = (m.respond request).1 ∧
      (m.respond request).2.InStep p p' R S (m'.respond request).2 := by
  cases request with
  | next =>
    have hboth := h.next hL
    rw [Machine.respond, Machine.respond]
    generalize m.next = r at hboth
    generalize m'.next = r' at hboth
    cases hboth with
    | some hr => exact ⟨congrArg (Answer.reply ∘ some) hr.1, hr.2⟩
    | none => exact ⟨rfl, h⟩
  | take n => exact ⟨congrArg Answer.actions (h.take? hL n).1, (h.take? hL n).2⟩
  | abandon => exact ⟨rfl, h.abandon⟩

/-- **The same is seen of machines in step**, if their failures are the same. -/
theorem transcript_eq (hL : Lockstep p p' R Eq) (h : m.InStep p p' R Eq m')
    (requests : List Request) : m'.transcript requests = m.transcript requests := by
  induction requests generalizing m m' with
  | nil => rfl
  | cons request requests ih =>
    obtain ⟨hanswer, hnext⟩ := h.respond hL request
    rw [transcript, transcript, ih hnext, entry, entry, hanswer, hnext.done_eq, hnext.count,
      hnext.failure_eq]

end InStep

end Machine

end RobotGolf
