import Mathlib
import RobotGolf.Proofs.Answers
/-!
# Runs of the machine

A run is any sequence of requests to a machine, in any number and of any size, and it may be given
up in between. All of them are made of steps, so `Machine.Reachable` counts steps and not requests:
it also holds of the states that a request passes through. That a request and a number of requests
stay within the reachable states is `Reachable.next` and `Reachable.take?`.

## Invariants of frames

What is kept along a run is nearly always a property of the frames on the stack. A step adds frames
in two ways only: the topmost frame moves on, or an element asks for another one. A property that
survives both (`Frame.Kept`) holds of every frame in every reachable state
(`Reachable.forall_frames`), and whatever it says about the elements that fail is said about the
failure of the run (`Reachable.failure_cases`). The limits add recursion errors and nothing else.
In the same way, what it says about the elements that deliver is said about all actions of the run
(`Reachable.of_next`, `Reachable.forall_mem_take?`).

## Requests one after the other

`take_add_of_full` splits a number of requests behind the first ones, as long as all of these were
answered by an action, and `take_fst_of_full` says what the first ones deliver.

Runs of single programs are computed by the equations of the functions that they go through, for a
request has no normal form. These equations belong to the library as a whole, which is why it is
imported here.
-/

namespace RobotGolf

/-- The machine that an outcome leaves behind. -/
def Outcome.machine : Outcome → Machine
  | quiet m => m
  | action _ m => m
  | ended m => m
  | stuck m => m

theorem Frame.of_advance? {f g : Frame Env} {x : Element} (h : f.advance? = some (x, g)) :
    f.rest = x :: g.rest ∧ g.scope = f.scope := by
  unfold Frame.advance? at h
  split at h
  · simp at h
  · next hrest =>
    obtain ⟨rfl, rfl⟩ : _ = x ∧ _ = g := by simpa using h
    exact ⟨hrest, rfl⟩

/-- A property of frames that the frame of the main block has, and that is kept when a frame moves
on past an element and when the frame is entered that the element asks for. -/
structure Frame.Kept (p : Program) (F : Frame Env → Prop) : Prop where
  main : F (Frame.enter "main" p.main (.mk Scope.globals))
  pass : ∀ f x g, f.advance? = some (x, g) → F f → F g
  enter : ∀ f x g h, f.advance? = some (x, g) → F f → g.demand p x = .enter h → F h

namespace Machine

/-- The evaluation has ended with a recursion error. -/
def Overrun (m : Machine) : Prop := ∃ depth calls, m.failure = some (.recursion depth calls)

/-! ### One step -/

/-- Moving on changes the topmost frame at most, and that by passing an element. -/
theorem mem_moved {m : Machine} {g : Frame Env} (h : g ∈ m.moved.stack.items) :
    g ∈ m.stack.items ∨ ∃ f ∈ m.stack.items, ∃ x, f.advance? = some (x, g) := by
  rcases hitems : m.stack.items with - | ⟨f, below⟩
  · rw [moved_of_nil hitems, hitems] at h
    exact Or.inl h
  · rcases hrest : f.rest with - | ⟨x, rest⟩
    · rw [items_moved_of_exhausted hitems hrest] at h
      exact Or.inl (List.mem_cons_of_mem _ h)
    · rw [items_moved_of_cons hitems hrest] at h
      rcases List.mem_cons.1 h with rfl | hbelow
      · exact Or.inr ⟨f, List.mem_cons_self .., x, by simp [Frame.advance?, hrest]⟩
      · exact Or.inl (List.mem_cons_of_mem _ hbelow)

/-- A demand comes from an element of a frame, unless there is none to come from. -/
theorem exists_of_demand {m : Machine} (hfinish : m.demand ≠ .finish) (hleave : m.demand ≠ .leave) :
    ∃ f ∈ m.stack.items, ∃ x g, f.advance? = some (x, g) ∧ m.demand = g.demand m.program x := by
  rcases hitems : m.stack.items with - | ⟨f, below⟩
  · exact absurd (demand_of_nil hitems) hfinish
  · rcases hrest : f.rest with - | ⟨x, rest⟩
    · exact absurd (demand_of_exhausted hitems hrest) hleave
    · refine ⟨f, List.mem_cons_self .., x, _, ?_, demand_of_cons hitems hrest⟩
      simp [Frame.advance?, hrest]

/-- **What a step leaves behind**: the frames that were there, moved on; these and the frame that
was asked for; or none, with a failure that an element or a limit gave rise to. -/
theorem step_machine_cases (m : Machine) :
    (m.step.machine.stack.items = m.moved.stack.items ∧ m.step.machine.failure = m.failure) ∨
    (∃ f, m.demand = .enter f ∧ m.step.machine = m.moved.entered f) ∨
    (m.step.machine.stack.items = [] ∧ ∃ e, m.step.machine.failure = some e ∧
      (m.demand = .fail e ∨ ∃ depth calls, e = .recursion depth calls)) := by
  rw [step_eq_perform]
  rcases hd : m.demand with - | - | - | a | f | failure | -
  · exact Or.inl ⟨rfl, moved_failure m⟩
  · exact Or.inl ⟨rfl, moved_failure m⟩
  · exact Or.inl ⟨rfl, moved_failure m⟩
  · exact Or.inl ⟨rfl, moved_failure m⟩
  · show _ ∨ _ ∨ (Outcome.machine (m.moved.enter f)).stack.items = [] ∧ _
    rcases m.moved.enter_cases f with ⟨-, he⟩ | ⟨-, -, he⟩ | ⟨-, -, he⟩
    · exact Or.inr (Or.inr ⟨by rw [he]; rfl, _, by simp only [perform, he]; rfl,
        Or.inr ⟨_, _, rfl⟩⟩)
    · exact Or.inr (Or.inr ⟨by rw [he]; rfl, _, by simp only [perform, he]; rfl,
        Or.inr ⟨_, _, rfl⟩⟩)
    · exact Or.inr (Or.inl ⟨f, rfl, by simp only [perform, he]; rfl⟩)
  · exact Or.inr (Or.inr ⟨rfl, failure, rfl, Or.inl rfl⟩)
  · exact Or.inl ⟨rfl, moved_failure m⟩

@[simp]
theorem step_machine_program (m : Machine) : m.step.machine.program = m.program := by
  rw [step_eq_perform]
  rcases m.demand with - | - | - | a | f | failure | -
  case enter =>
    show (Outcome.machine (m.moved.enter f)).program = m.program
    rcases m.moved.enter_cases f with ⟨-, he⟩ | ⟨-, -, he⟩ | ⟨-, -, he⟩ <;> rw [he] <;>
      exact moved_program m
  all_goals exact moved_program m

@[simp]
theorem step_machine_limits (m : Machine) : m.step.machine.limits = m.limits := by
  rw [step_eq_perform]
  rcases m.demand with - | - | - | a | f | failure | -
  case enter =>
    show (Outcome.machine (m.moved.enter f)).limits = m.limits
    rcases m.moved.enter_cases f with ⟨-, he⟩ | ⟨-, -, he⟩ | ⟨-, -, he⟩ <;> rw [he] <;>
      exact moved_limits m
  all_goals exact moved_limits m

/-! ### Reachable states -/

/-- The states that an evaluation of `p` can come to, step by step, those included that a request
passes through. An evaluation may be given up at any time. -/
inductive Reachable (p : Program) (limits : Limits) : Machine → Prop where
  | start : Reachable p limits (start p limits)
  | step {m : Machine} (hm : Reachable p limits m) : Reachable p limits m.step.machine
  | abandon {m : Machine} (hm : Reachable p limits m) : Reachable p limits m.abandon

variable {p : Program} {limits : Limits} {m : Machine}

theorem Reachable.of_step {outcome : Outcome} (hm : Reachable p limits m) (h : m.step = outcome) :
    Reachable p limits outcome.machine :=
  h ▸ hm.step

theorem Reachable.next {r : Reply × Machine} (hm : Reachable p limits m) (h : m.next = some r) :
    Reachable p limits r.2 := by
  rw [next_eq_some_iff] at h
  induction h with
  | quiet hstep _ ih => exact ih (hm.of_step hstep)
  | action hstep => exact hm.of_step hstep
  | ended hstep => exact hm.of_step hstep
  | stuck hstep => exact hm.of_step hstep

theorem Reachable.takeOnto (hm : Reachable p limits m) (before : List Action) (n : Nat) :
    Reachable p limits (m.takeOnto before n).2 := by
  induction n generalizing m before with
  | zero => exact hm
  | succ n ih =>
    rw [Machine.takeOnto]
    rcases hreply : m.next with - | ⟨a | - | -, m'⟩
    · exact hm
    · exact ih (hm.next hreply) (a :: before)
    · exact hm.next hreply
    · exact hm.next hreply

/-- Requests for any number of actions lead to reachable states. -/
theorem Reachable.take? (hm : Reachable p limits m) (n : Int) :
    Reachable p limits (m.take? n).2 := by
  unfold Machine.take?
  split
  · exact hm
  · exact hm.takeOnto [] n.toNat

theorem Reachable.program_eq (hm : Reachable p limits m) : m.program = p := by
  induction hm with
  | start => rfl
  | step _ ih => rw [step_machine_program, ih]
  | abandon _ ih => exact ih

theorem limits_of_step {outcome : Outcome} (h : m.step = outcome) :
    outcome.machine.limits = m.limits :=
  h ▸ m.step_machine_limits

theorem limits_of_next {r : Reply × Machine} (h : m.next = some r) : r.2.limits = m.limits := by
  rw [next_eq_some_iff] at h
  induction h with
  | quiet hstep _ ih => exact ih.trans (limits_of_quiet hstep)
  | action hstep => exact limits_of_step hstep
  | ended hstep => exact limits_of_step hstep
  | stuck hstep => exact limits_of_step hstep

theorem Reachable.limits_eq (hm : Reachable p limits m) : m.limits = limits := by
  induction hm with
  | start => rfl
  | step _ ih => rw [step_machine_limits, ih]
  | abandon _ ih => exact ih

theorem Reachable.of_next_eq_none (hm : Reachable p limits m) (h : m.next = none) :
    limits.silent = Int64.maxValue := by
  rw [← hm.limits_eq]
  exact silent_of_next_eq_none h

/-- **A property of frames that is kept holds of all frames in all reachable states.** -/
theorem Reachable.forall_frames {F : Frame Env → Prop} (hF : Frame.Kept p F)
    (hm : Reachable p limits m) : ∀ f ∈ m.stack.items, F f := by
  induction hm with
  | start =>
    intro f hf
    obtain rfl : f = Frame.enter "main" p.main (.mk Scope.globals) := by
      simpa [Machine.start] using hf
    exact hF.main
  | @step m hm ih =>
    have hmoved : ∀ g ∈ m.moved.stack.items, F g := fun g hg ↦ by
      rcases mem_moved hg with hmem | ⟨f, hmem, x, hadvance⟩
      · exact ih g hmem
      · exact hF.pass f x g hadvance (ih f hmem)
    rcases m.step_machine_cases with ⟨hitems, -⟩ | ⟨h, hd, hentered⟩ | ⟨hitems, -⟩
    · rw [hitems]
      exact hmoved
    · -- the frame that was asked for, on top of the others
      have henter : F h := by
        obtain ⟨f, hmem, x, g, hadvance, hdemand⟩ := exists_of_demand (m := m) (by simp [hd])
          (by simp [hd])
        rw [hd, hm.program_eq] at hdemand
        exact hF.enter f x g h hadvance (ih f hmem) hdemand.symm
      rw [hentered]
      exact List.forall_mem_cons.2 ⟨henter, fun g hg ↦ hmoved g (mem_of_mem_dropExhausted hg)⟩
    · rw [hitems]
      simp
  | abandon _ _ => simp [Machine.abandon]

/-- **How a run can fail**: for lack of room, or because of an element whose frame has the property
that is kept. -/
theorem Reachable.failure_cases {F : Frame Env → Prop} {Admissible : Failure → Prop}
    (hF : Frame.Kept p F)
    (hfail : ∀ f x g e, f.advance? = some (x, g) → F f → g.demand p x = .fail e → Admissible e)
    (hm : Reachable p limits m) :
    m.failure = none ∨ (∃ depth calls, m.failure = some (.recursion depth calls)) ∨
      ∃ e, m.failure = some e ∧ Admissible e := by
  induction hm with
  | start => exact Or.inl rfl
  | @step m hm ih =>
    rcases m.step_machine_cases with ⟨-, hfailure⟩ | ⟨h, -, hentered⟩ | ⟨-, e, hfailure, hcause⟩
    · rw [hfailure]
      exact ih
    · have hsame : m.step.machine.failure = m.failure := by
        rw [hentered]
        exact moved_failure m
      rw [hsame]
      exact ih
    · rcases hcause with hd | ⟨depth, calls, rfl⟩
      · obtain ⟨f, hmem, x, g, hadvance, hdemand⟩ := exists_of_demand (m := m) (by simp [hd])
          (by simp [hd])
        rw [hd, hm.program_eq] at hdemand
        exact Or.inr (Or.inr ⟨e, hfailure,
          hfail f x g e hadvance (hm.forall_frames hF f hmem) hdemand.symm⟩)
      · exact Or.inr (Or.inl ⟨depth, calls, hfailure⟩)
  | abandon _ ih => exact ih

/-- **What a run delivers** is what elements ask for whose frames have the property that is
kept. -/
theorem Reachable.of_next {F : Frame Env → Prop} {Admissible : Action → Prop}
    (hF : Frame.Kept p F)
    (hdeliver : ∀ f x g a, f.advance? = some (x, g) → F f → g.demand p x = .deliver a →
      Admissible a)
    (hm : Reachable p limits m) {a : Action} {m' : Machine} (h : m.next = some (.action a, m')) :
    Admissible a := by
  rw [next_eq_some_iff] at h
  generalize hr : (Reply.action a, m') = r at h
  induction h with
  | quiet hstep _ ih => exact ih (hm.of_step hstep) hr
  | @action m _ b hstep =>
    obtain rfl : a = b := by simpa using congrArg Prod.fst hr
    have hd := (action_cases hstep).1
    obtain ⟨f, hmem, x, g, hadvance, hdemand⟩ := exists_of_demand (m := m) (by simp [hd])
      (by simp [hd])
    rw [hd, hm.program_eq] at hdemand
    exact hdeliver f x g a hadvance (hm.forall_frames hF f hmem) hdemand.symm
  | ended => simp at hr
  | stuck => simp at hr

/-- A property of all actions that are delivered one by one holds of those that are delivered
together. -/
theorem Reachable.forall_mem_takeOnto {Admissible : Action → Prop}
    (hnext : ∀ m a m', Reachable p limits m → m.next = some (.action a, m') → Admissible a)
    (hm : Reachable p limits m) {before actions : List Action} {n : Nat}
    (hbefore : ∀ a ∈ before, Admissible a) (h : (m.takeOnto before n).1 = some actions) :
    ∀ a ∈ actions, Admissible a := by
  induction n generalizing m before with
  | zero =>
    obtain rfl : before.reverse = actions := by simpa [Machine.takeOnto] using h
    simpa using hbefore
  | succ n ih =>
    rw [Machine.takeOnto] at h
    rcases hreply : m.next with - | ⟨a | - | -, m'⟩ <;> rw [hreply] at h
    · simp at h
    · have ha : Admissible a := hnext m a m' hm hreply
      exact ih (hm.next hreply) (List.forall_mem_cons.2 ⟨ha, hbefore⟩) h
    · obtain rfl : before.reverse = actions := by simpa using h
      simpa using hbefore
    · simp at h

theorem Reachable.forall_mem_take? {Admissible : Action → Prop}
    (hnext : ∀ m a m', Reachable p limits m → m.next = some (.action a, m') → Admissible a)
    (hm : Reachable p limits m) {actions : List Action} {n : Int}
    (h : (m.take? n).1 = some actions) : ∀ a ∈ actions, Admissible a := by
  unfold Machine.take? at h
  split at h
  · simp at h
  · exact hm.forall_mem_takeOnto hnext (by simp) h

/-! ### Requests one after the other -/

/-- Actions from before come first, and make no difference otherwise. -/
theorem takeOnto_eq (m : Machine) (before : List Action) (n : Nat) :
    m.takeOnto before n = ((m.take n).1.map (before.reverse ++ ·), (m.take n).2) := by
  induction n generalizing m before with
  | zero => simp [take, takeOnto]
  | succ n ih =>
    rw [take, takeOnto, takeOnto]
    rcases m.next with - | ⟨a | - | -, m'⟩
    · simp
    · simp only [ih m' (a :: before), ih m' [a], Option.map_map, Function.comp_def]
      simp
    · simp
    · simp

@[simp]
theorem take_zero (m : Machine) : m.take 0 = (some [], m) := rfl

theorem take_succ_of_none (h : m.next = none) (n : Nat) : m.take (n + 1) = (none, m) := by
  rw [take, takeOnto, h]

theorem take_succ_of_action {m' : Machine} {a : Action} (h : m.next = some (.action a, m'))
    (n : Nat) : m.take (n + 1) = ((m'.take n).1.map (a :: ·), (m'.take n).2) := by
  rw [take, takeOnto, h]
  exact takeOnto_eq m' [a] n

theorem take_succ_of_ended {m' : Machine} (h : m.next = some (.ended, m')) (n : Nat) :
    m.take (n + 1) = (some [], m') := by
  rw [take, takeOnto, h]
  rfl

theorem take_succ_of_stuck {m' : Machine} (h : m.next = some (.stuck, m')) (n : Nat) :
    m.take (n + 1) = (none, m') := by
  rw [take, takeOnto, h]

/-- A request hands over no more actions than were asked for, and a request for just as many hands
over the same ones. -/
theorem take_length {n : Nat} {actions : List Action} (h : (m.take n).1 = some actions) :
    actions.length ≤ n ∧ (m.take actions.length).1 = some actions := by
  induction n generalizing m actions with
  | zero =>
    obtain rfl : [] = actions := by simpa using h
    exact ⟨Nat.le_refl 0, h⟩
  | succ n ih =>
    rcases hnext : m.next with - | ⟨a | - | -, m'⟩
    · simp [take_succ_of_none hnext] at h
    · rw [take_succ_of_action hnext, Option.map_eq_some_iff] at h
      obtain ⟨more, hmore, rfl⟩ := h
      obtain ⟨hle, hsame⟩ := ih hmore
      refine ⟨Nat.succ_le_succ hle, ?_⟩
      rw [List.length_cons, take_succ_of_action hnext, hsame]
      rfl
    · obtain rfl : [] = actions := by simpa [take_succ_of_ended hnext] using h
      exact ⟨Nat.zero_le _, rfl⟩
    · simp [take_succ_of_stuck hnext] at h

/-- What a request for fewer actions hands over comes first in what one for more does. -/
theorem take_isPrefix {k n : Nat} {actions actions' : List Action} (hk : k ≤ n)
    (h : (m.take k).1 = some actions) (h' : (m.take n).1 = some actions') :
    actions <+: actions' := by
  induction k generalizing m n actions actions' with
  | zero =>
    obtain rfl : [] = actions := by simpa using h
    exact List.nil_prefix
  | succ k ih =>
    obtain ⟨n, rfl⟩ : ∃ n', n = n' + 1 := ⟨n - 1, by omega⟩
    rcases hnext : m.next with - | ⟨a | - | -, m'⟩
    · simp [take_succ_of_none hnext] at h
    · rw [take_succ_of_action hnext, Option.map_eq_some_iff] at h h'
      obtain ⟨more, hmore, rfl⟩ := h
      obtain ⟨more', hmore', rfl⟩ := h'
      exact List.cons_prefix_cons.2 ⟨rfl, ih (Nat.le_of_succ_le_succ hk) hmore hmore'⟩
    · obtain rfl : [] = actions := by simpa [take_succ_of_ended hnext] using h
      exact List.nil_prefix
    · simp [take_succ_of_stuck hnext] at h

/-- A request for more actions than there can be room for has no result. -/
theorem take?_of_lt (m : Machine) {n : Int} (h : capacity < n) : (m.take? n).1 = none := by
  rw [Machine.take?, if_pos h]

theorem take?_of_le (m : Machine) {n : Int} (h : n ≤ capacity) : m.take? n = m.take n.toNat := by
  rw [Machine.take?, if_neg (Int.not_lt.2 h)]

theorem le_capacity_of_take? {n : Int} {actions : List Action} (h : (m.take? n).1 = some actions) :
    n ≤ capacity := by
  refine Int.not_lt.1 fun hn ↦ ?_
  simp [take?_of_lt m hn] at h

/-- Requests that were all answered by actions can be split off. -/
theorem takeOnto_add_of_full {m' : Machine} {before actions : List Action} {k : Nat}
    (h : m.takeOnto before k = (some actions, m')) (hfull : actions.length = before.length + k)
    (n : Nat) : m.takeOnto before (k + n) = m'.takeOnto actions.reverse n := by
  induction k generalizing m before with
  | zero =>
    obtain ⟨rfl, rfl⟩ : before.reverse = actions ∧ m = m' := by simpa [Machine.takeOnto] using h
    rw [Nat.zero_add, List.reverse_reverse]
  | succ k ih =>
    rw [Nat.succ_add, Machine.takeOnto]
    rw [Machine.takeOnto] at h
    rcases hnext : m.next with - | ⟨a | - | -, m₁⟩ <;> rw [hnext] at h
    · simp at h
    · refine ih h ?_
      rw [hfull, List.length_cons]
      omega
    · -- an end in between would have left fewer actions
      obtain ⟨rfl, -⟩ : before.reverse = actions ∧ m₁ = m' := by simpa using h
      rw [List.length_reverse] at hfull
      omega
    · simp at h

/-- **Actions that have been delivered are delivered again**, and the request behind them is the
next one of the machine that they leave. -/
theorem take_add_of_full {m' : Machine} {actions : List Action}
    (h : m.take actions.length = (some actions, m')) (n : Nat) :
    m.take (actions.length + n) = m'.takeOnto actions.reverse n :=
  takeOnto_add_of_full h (by simp) n

/-- Fewer requests, all of them answered, deliver the first of the actions. -/
theorem takeOnto_fst_of_full {m' : Machine} {before actions : List Action} {k n : Nat}
    (h : m.takeOnto before k = (some actions, m')) (hfull : actions.length = before.length + k)
    (hn : n ≤ k) : (m.takeOnto before n).1 = some (actions.take (before.length + n)) := by
  induction k generalizing m before n with
  | zero =>
    obtain ⟨rfl, -⟩ : before.reverse = actions ∧ m = m' := by simpa [Machine.takeOnto] using h
    obtain rfl : n = 0 := by omega
    rw [Machine.takeOnto, List.take_of_length_le (by simp)]
  | succ k ih =>
    rw [Machine.takeOnto] at h
    rcases hnext : m.next with - | ⟨a | - | -, m₁⟩ <;> rw [hnext] at h
    · simp at h
    · have ih := fun n hn ↦ @ih m₁ (a :: before) n h (by simp only [List.length_cons]; omega) hn
      rcases n with - | n
      · -- the action that was delivered next stands behind those from before
        have hnext := ih 0 (Nat.zero_le k)
        rw [Machine.takeOnto, Option.some.injEq, List.reverse_cons, List.length_cons] at hnext
        have htake := congrArg (List.take before.length) hnext
        rw [List.take_take, List.take_left' (by simp)] at htake
        rw [Machine.takeOnto, htake, Nat.min_eq_left (by omega), Nat.add_zero]
      · rw [Machine.takeOnto, hnext]
        dsimp only
        rw [ih n (by omega)]
        congr 2
        simp only [List.length_cons]
        omega
    · obtain ⟨rfl, -⟩ : before.reverse = actions ∧ m₁ = m' := by simpa using h
      simp at hfull
    · simp at h

theorem take_fst_of_full {m' : Machine} {actions : List Action} {n : Nat}
    (h : m.take actions.length = (some actions, m')) (hn : n ≤ actions.length) :
    (m.take n).1 = some (actions.take n) := by
  have hfirst := takeOnto_fst_of_full (n := n) h (by simp) hn
  rw [List.length_nil, Nat.zero_add] at hfirst
  exact hfirst

end Machine

end RobotGolf
