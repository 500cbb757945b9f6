import Mathlib.Data.Int.Notation
import RobotGolf.Proofs.Lockstep
import RobotGolf.Proofs.StackDiscipline
/-!
# The end of an evaluation is final

An evaluation comes to its end in four ways: nothing is left to be run, an element fails, there is
no room for a frame, or it is given up. All of them leave an empty stack (`items_of_ended`), and a
machine with an empty stack answers every request with the end and stays as it is
(`final_of_nil`). So there is one kind of end, and no request leads out of it.

## What is asked for one by one, and what together

A request for `n` actions pulls them one by one, until one of these pulls is not answered by an
action (`pulled`). This is what makes requests divisible: `take_add_of_some` says that `k` actions
and then `n` are `k + n` actions, with the same machine behind them. And it is what is counted
(`count_behind`): of a request that gets stuck on its way nothing is handed over, but what it had
pulled by then has been counted.

## Where a failure comes from

That a machine has failed means that an element could not be run, or a frame not be entered, at some
step of some request (`FailsWithin`). Giving up is no such request.
-/

namespace RobotGolf.Machine

/-! ### Requests one after the other -/

/-- The actions that an answer hands over. -/
def Answer.delivered : Answer → List Action
  | .reply (some (.action a)) => [a]
  | .actions (some found) => found
  | _ => []

/-- Whether there is an answer at all: it came some time, the machine did not get stuck, and there
could be room for the actions. -/
def Answer.given : Answer → Bool
  | .reply none => false
  | .reply (some .stuck) => false
  | .actions none => false
  | _ => true

/-- The machine behind some requests, one after the other. Requests without an answer leave a
machine behind as well. -/
def behind (m : Machine) : List Request → Machine
  | [] => m
  | request :: requests => (m.respond request).2.behind requests

/-- What some requests are answered with, one after the other. -/
def answers (m : Machine) : List Request → List Answer
  | [] => []
  | request :: requests => (m.respond request).1 :: (m.respond request).2.answers requests

/-- Of some requests, one after the other, `P` holds of one and of the machine that it is made
to. -/
def Encounters (m : Machine) (P : Machine → Request → Prop) : List Request → Prop
  | [] => False
  | request :: requests => P m request ∨ (m.respond request).2.Encounters P requests

variable {p : Program} {limits : Limits} {m m' : Machine}

theorem Reachable.respond (hm : Reachable p limits m) (request : Request) :
    Reachable p limits (m.respond request).2 := by
  cases request with
  | next =>
    rw [Machine.respond]
    rcases hnext : m.next with - | r
    · exact hm
    · exact hm.next hnext
  | take n => exact hm.take? n
  | abandon => exact hm.abandon

theorem Reachable.behind (hm : Reachable p limits m) (requests : List Request) :
    Reachable p limits (m.behind requests) := by
  induction requests generalizing m with
  | nil => exact hm
  | cons request requests ih => exact ih (hm.respond request)

/-! ### An empty stack -/

theorem done_iff : m.done = true ↔ m.stack.items = [] := by
  rw [done, Stack.isEmpty, List.isEmpty_iff]

theorem step_of_nil (h : m.stack.items = []) : m.step = .ended m := by
  rw [step_eq_perform, demand_of_nil h, moved_of_nil h]
  rfl

theorem next_of_nil (h : m.stack.items = []) : m.next = some (.ended, m) :=
  next_of_ended (step_of_nil h)

theorem take_of_nil (h : m.stack.items = []) (n : ℕ) : m.take n = (some [], m) := by
  cases n with
  | zero => rfl
  | succ n => exact take_succ_of_ended (next_of_nil h) n

/-- No request changes a machine with an empty stack. -/
theorem respond_of_nil (h : m.stack.items = []) (request : Request) :
    (m.respond request).2 = m := by
  cases request with
  | next => rw [respond, next_of_nil h]
  | take n =>
    show (m.take? n).2 = m
    unfold take?
    split
    · rfl
    · rw [take_of_nil h]
  | abandon =>
    have hstack : Stack.empty = m.stack := Stack.ext_items h.symm
    rw [respond, Machine.abandon, hstack]

theorem behind_of_nil (h : m.stack.items = []) (requests : List Request) :
    m.behind requests = m := by
  induction requests with
  | nil => rfl
  | cons request requests ih => rw [behind, respond_of_nil h, ih]

/-- The evaluation is over: nothing is left to be run, and whatever is requested, the machine stays
as it is and answers with the end. -/
structure Final (m : Machine) : Prop where
  done : m.done = true
  behind : ∀ requests, m.behind requests = m
  next : m.next = some (.ended, m)

/-- **A machine with an empty stack has come to its end for good.** -/
theorem final_of_nil (h : m.stack.items = []) : m.Final :=
  ⟨done_iff.2 h, behind_of_nil h, next_of_nil h⟩

/-! ### One step -/

@[simp]
theorem moved_count (m : Machine) : m.moved.count = m.count := by
  obtain ⟨stack, h⟩ := m.exists_moved_eq
  rw [h]

/-- The step ahead fails with `e`: an element cannot be run, or the frame that it asks for is one
too many for the counter or for the stack. -/
def Faults (m : Machine) (e : Failure) : Prop :=
  m.demand = .fail e ∨ ∃ f depth, m.demand = .enter f ∧ e = .recursion depth (m.silent + 1) ∧
    (m.limits.silent < m.silent + 1 ∧ depth = m.moved.stack.size ∨
      m.silent + 1 ≤ m.limits.silent ∧
        m.limits.depth.toInt ≤ (dropExhausted m.moved.stack).size ∧
        depth = (dropExhausted m.moved.stack).size)

/-- A step that ends the evaluation finds nothing left, or it fails. -/
theorem ended_account (h : m.step = .ended m') :
    (m.stack.items = [] ∧ m' = m) ∨
      ∃ e, m.Faults e ∧ m'.failure = some e ∧ m'.stack.items = [] ∧ m'.count = m.count := by
  have hcount := m.moved_count
  rw [step_eq_perform] at h
  rcases hd : m.demand with - | - | - | a | f | failure | - <;> rw [hd] at h <;>
    simp only [perform, Outcome.ended.injEq, reduceCtorEq] at h
  · have hnil := items_of_finish hd
    exact Or.inl ⟨hnil, by rw [← h, moved_of_nil hnil]⟩
  · refine Or.inr ?_
    rcases m.moved.enter_cases f with ⟨hs, he⟩ | ⟨hs, hsize, he⟩ | ⟨-, -, he⟩ <;> rw [he] at h <;>
      simp only [Outcome.ended.injEq, reduceCtorEq] at h <;>
      rw [moved_silent, moved_limits] at hs <;> subst h
    · refine ⟨_, Or.inr ⟨f, _, hd, rfl, Or.inl ⟨hs, rfl⟩⟩, ?_, rfl, hcount⟩
      simp only [fail, moved_silent]
    · rw [moved_limits] at hsize
      refine ⟨_, Or.inr ⟨f, _, hd, rfl, Or.inr ⟨hs, hsize, rfl⟩⟩, ?_, rfl, hcount⟩
      simp only [fail, moved_silent]
  · exact Or.inr ⟨failure, Or.inl hd, by rw [← h]; rfl, by rw [← h]; rfl, by rw [← h]; exact hcount⟩

/-- Where the step ahead fails, it ends the evaluation. -/
theorem Faults.step {e : Failure} (h : m.Faults e) :
    ∃ m', m.step = .ended m' ∧ m'.failure = some e := by
  rw [step_eq_perform]
  rcases h with hd | ⟨f, depth, hd, rfl, hcause⟩
  · rw [hd]
    exact ⟨_, rfl, rfl⟩
  · rw [← moved_limits m, ← moved_silent m] at hcause
    rw [hd, ← moved_silent m]
    rcases m.moved.enter_cases f with ⟨hs, he⟩ | ⟨hs, hsize, he⟩ | ⟨hs, hsize, he⟩ <;>
      rcases hcause with ⟨hs', rfl⟩ | ⟨hs', hsize', rfl⟩
    · exact ⟨_, he, rfl⟩
    · exact absurd hs' (Int64.not_le.2 hs)
    · exact absurd hs (Int64.not_le.2 hs')
    · exact ⟨_, he, rfl⟩
    · exact absurd hs (Int64.not_le.2 hs')
    · omega

theorem quiet_account (h : m.step = .quiet m') : m'.failure = m.failure ∧ m'.count = m.count := by
  rcases quiet_cases h with ⟨-, rfl⟩ | ⟨-, rfl⟩ | ⟨f, -, -, -, rfl⟩
  all_goals exact ⟨moved_failure m, moved_count m⟩

/-- A frame that an element was asked of is still there behind it. -/
theorem items_moved_ne_nil (hfinish : m.demand ≠ .finish) (hleave : m.demand ≠ .leave) :
    m.moved.stack.items ≠ [] := by
  rcases hitems : m.stack.items with - | ⟨f, below⟩
  · exact absurd (demand_of_nil hitems) hfinish
  · rcases hrest : f.rest with - | ⟨x, rest⟩
    · exact absurd (demand_of_exhausted hitems hrest) hleave
    · simp [items_moved_of_cons hitems hrest]

theorem action_account {a : Action} (h : m.step = .action a m') :
    m'.failure = m.failure ∧ m'.count = m.count + 1 ∧ m'.stack.items ≠ [] := by
  obtain ⟨hd, rfl⟩ := action_cases h
  refine ⟨moved_failure m, ?_, items_moved_ne_nil (by simp [hd]) (by simp [hd])⟩
  rw [deliver, moved_count]

theorem stuck_account (h : m.step = .stuck m') :
    m'.failure = m.failure ∧ m'.count = m.count ∧ m'.stack.items ≠ [] := by
  have hd := stuck_cases h
  obtain rfl : m.moved = m' := by simpa [step_eq_perform, hd, perform] using h
  exact ⟨moved_failure m, moved_count m, items_moved_ne_nil (by simp [hd]) (by simp [hd])⟩

/-! ### One request -/

/-- **How a request can turn out**, if it is answered. Only an end leaves an empty stack. -/
theorem next_account {r : Reply × Machine} (h : m.next = some r) :
    (∃ a m', r = (.action a, m') ∧ m'.failure = m.failure ∧ m'.count = m.count + 1 ∧
      m'.stack.items ≠ []) ∨
    (∃ m', r = (.ended, m') ∧ m'.count = m.count ∧ m'.stack.items = []) ∨
    (∃ m', r = (.stuck, m') ∧ m'.failure = m.failure ∧ m'.count = m.count ∧
      m'.stack.items ≠ []) := by
  rw [next_eq_some_iff] at h
  induction h with
  | quiet hstep _ ih =>
    obtain ⟨hfailure, hcount⟩ := quiet_account hstep
    rwa [hfailure, hcount] at ih
  | action hstep => exact Or.inl ⟨_, _, rfl, action_account hstep⟩
  | ended hstep =>
    refine Or.inr (Or.inl ⟨_, rfl, ?_⟩)
    rcases ended_account hstep with ⟨hnil, rfl⟩ | ⟨e, -, -, hnil, hcount⟩
    · exact ⟨rfl, hnil⟩
    · exact ⟨hcount, hnil⟩
  | stuck hstep => exact Or.inr (Or.inr ⟨_, rfl, stuck_account hstep⟩)

/-- **Every end leaves an empty stack.** -/
theorem items_of_ended (h : m.next = some (.ended, m')) : m'.stack.items = [] := by
  rcases next_account h with ⟨a, m₁, hr, -⟩ | ⟨m₁, hr, -, hnil⟩ | ⟨m₁, hr, -⟩ <;> cases hr
  exact hnil

/-! ### Requests for several actions -/

theorem take_succ_of_quiet (h : m.step = .quiet m') (n : ℕ) (hnext : m.next ≠ none) :
    m.take (n + 1) = m'.take (n + 1) := by
  have hsame := next_of_quiet h
  rcases hr : m.next with - | ⟨a | - | -, m₁⟩
  · exact absurd hr hnext
  · rw [take_succ_of_action hr, take_succ_of_action (hsame ▸ hr)]
  · rw [take_succ_of_ended hr, take_succ_of_ended (hsame ▸ hr)]
  · rw [take_succ_of_stuck hr, take_succ_of_stuck (hsame ▸ hr)]

/-- **Some actions and then some more are as many together.** -/
theorem take_add_of_some {k : ℕ} {actions : List Action} (h : m.take k = (some actions, m'))
    (n : ℕ) : m.take (k + n) = ((m'.take n).1.map (actions ++ ·), (m'.take n).2) := by
  induction k generalizing m actions with
  | zero =>
    obtain ⟨rfl, rfl⟩ : [] = actions ∧ m = m' := by simpa using h
    simp
  | succ k ih =>
    rw [Nat.succ_add]
    rcases hnext : m.next with - | ⟨a | - | -, m₁⟩
    · simp [take_succ_of_none hnext] at h
    · rw [take_succ_of_action hnext, Prod.mk.injEq, Option.map_eq_some_iff] at h
      obtain ⟨⟨more, hmore, rfl⟩, rfl⟩ := h
      rw [take_succ_of_action hnext, ih (Prod.ext hmore rfl)]
      simp [Function.comp_def]
    · -- the end came within the first actions, and comes again
      rw [take_succ_of_ended hnext, Prod.mk.injEq] at h
      obtain ⟨h, rfl⟩ := h
      obtain rfl := Option.some.inj h
      rw [take_succ_of_ended hnext, take_of_nil (items_of_ended hnext)]
      rfl
    · simp [take_succ_of_stuck hnext] at h

/-- A machine that gets stuck, or never answers, does so with more actions to come. -/
theorem take_add_of_none {k : ℕ} (h : (m.take k).1 = none) (n : ℕ) : m.take (k + n) = m.take k := by
  induction k generalizing m with
  | zero => simp at h
  | succ k ih =>
    rw [Nat.succ_add]
    rcases hnext : m.next with - | ⟨a | - | -, m₁⟩
    · rw [take_succ_of_none hnext, take_succ_of_none hnext]
    · rw [take_succ_of_action hnext, Option.map_eq_none_iff] at h
      rw [take_succ_of_action hnext, take_succ_of_action hnext, ih h]
    · simp [take_succ_of_ended hnext] at h
    · rw [take_succ_of_stuck hnext, take_succ_of_stuck hnext]

/-! ### What is counted -/

/-- The actions that are pulled by up to `n` requests for one action each, until one of them is not
answered by an action. -/
def pulled (m : Machine) : ℕ → List Action
  | 0 => []
  | n + 1 =>
    match m.next with
    | some (.action a, m') => a :: m'.pulled n
    | _ => []

/-- The actions that are pulled to answer a request. -/
def pulledFor (m : Machine) : Request → List Action
  | .next => m.pulled 1
  | .take n => if capacity < n then [] else m.pulled n.toNat
  | .abandon => []

/-- The actions that are pulled to answer some requests, one after the other. -/
def pulls (m : Machine) : List Request → List Action
  | [] => []
  | request :: requests => m.pulledFor request ++ (m.respond request).2.pulls requests

theorem take_one (m : Machine) : (m.take 1).2 = (m.respond .next).2 := by
  rw [respond]
  rcases hnext : m.next with - | ⟨a | - | -, m'⟩
  · rw [take_succ_of_none hnext]
  · rw [take_succ_of_action hnext]
    rfl
  · rw [take_succ_of_ended hnext]
  · rw [take_succ_of_stuck hnext]

/-- **What is pulled is counted**, also if the machine gets stuck behind it. -/
theorem count_take (m : Machine) (n : ℕ) : (m.take n).2.count = m.count + (m.pulled n).length := by
  induction n generalizing m with
  | zero => rfl
  | succ n ih =>
    rw [pulled]
    rcases hnext : m.next with - | r
    · rw [take_succ_of_none hnext]
      rfl
    rcases next_account hnext with ⟨a, m', rfl, -, hcount, -⟩ | ⟨m', rfl, hcount, -⟩ |
      ⟨m', rfl, -, hcount, -⟩
    · rw [take_succ_of_action hnext, ih m', hcount, List.length_cons]
      omega
    · rw [take_succ_of_ended hnext]
      exact hcount
    · rw [take_succ_of_stuck hnext]
      exact hcount

/-- Actions that are handed over are those that were pulled. -/
theorem eq_pulled_of_take {n : ℕ} {actions : List Action} (h : (m.take n).1 = some actions) :
    actions = m.pulled n := by
  induction n generalizing m actions with
  | zero => simpa [pulled, eq_comm] using h
  | succ n ih =>
    rw [pulled]
    rcases hnext : m.next with - | ⟨a | - | -, m'⟩
    · simp [take_succ_of_none hnext] at h
    · rw [take_succ_of_action hnext, Option.map_eq_some_iff] at h
      obtain ⟨more, hmore, rfl⟩ := h
      rw [ih hmore]
    · simpa [take_succ_of_ended hnext, eq_comm] using h
    · simp [take_succ_of_stuck hnext] at h

theorem count_respond (m : Machine) (request : Request) :
    (m.respond request).2.count = m.count + (m.pulledFor request).length := by
  cases request with
  | next =>
    show (m.respond .next).2.count = m.count + (m.pulled 1).length
    rw [← count_take, take_one]
  | take n =>
    show (m.take? n).2.count = m.count + List.length (if capacity < n then [] else _)
    unfold take?
    split
    · rfl
    · exact m.count_take n.toNat
  | abandon => rfl

theorem count_behind (m : Machine) (requests : List Request) :
    (m.behind requests).count = m.count + (m.pulls requests).length := by
  induction requests generalizing m with
  | nil => rfl
  | cons request requests ih =>
    rw [behind, ih, count_respond, pulls, List.length_append, Nat.add_assoc]

/-- A request that is answered hands over what was pulled for it. -/
theorem pulledFor_of_given {request : Request} (h : (m.respond request).1.given = true) :
    m.pulledFor request = (m.respond request).1.delivered := by
  cases request with
  | next =>
    rw [pulledFor, respond, pulled]
    rcases m.next with - | ⟨a | - | -, m'⟩ <;> rfl
  | take n =>
    rw [respond] at h ⊢
    rcases hfound : (m.take? n).1 with - | found
    · simp [hfound, Answer.given] at h
    · rw [take?] at hfound
      rw [pulledFor]
      split at hfound
      · simp at hfound
      · next hroom => rw [if_neg hroom, ← eq_pulled_of_take hfound, Answer.delivered]
  | abandon => rfl

theorem pulls_of_given {requests : List Request}
    (h : ∀ answer ∈ m.answers requests, answer.given = true) :
    m.pulls requests = (m.answers requests).flatMap Answer.delivered := by
  induction requests generalizing m with
  | nil => rfl
  | cons request requests ih =>
    obtain ⟨hfirst, hothers⟩ := List.forall_mem_cons.1 h
    rw [pulls, answers, List.flatMap_cons, pulledFor_of_given hfirst, ih hothers]

/-! ### Where a failure comes from -/

/-- A request for `n` actions comes to a step that fails with `e`. -/
inductive FailsWithin (e : Failure) : Machine → ℕ → Prop where
  | now {m : Machine} {n : ℕ} (h : m.Faults e) : FailsWithin e m (n + 1)
  | quiet {m m' : Machine} {n : ℕ} (h : m.step = .quiet m') (later : FailsWithin e m' (n + 1)) :
      FailsWithin e m (n + 1)
  | action {m m' : Machine} {n : ℕ} {a : Action} (h : m.step = .action a m')
      (later : FailsWithin e m' n) : FailsWithin e m (n + 1)

/-- A request fails with `e`. -/
def FailsOn (e : Failure) (m : Machine) : Request → Prop
  | .next => FailsWithin e m 1
  | .take n => n ≤ capacity ∧ FailsWithin e m n.toNat
  | .abandon => False

/-- What a request for some actions comes to is decided by the first step. -/
theorem failsWithin_iff {e : Failure} {n : ℕ} :
    FailsWithin e m (n + 1) ↔ m.Faults e ∨ (∃ m', m.step = .quiet m' ∧ FailsWithin e m' (n + 1)) ∨
      ∃ a m', m.step = .action a m' ∧ FailsWithin e m' n := by
  constructor
  · intro h
    cases h with
    | now h => exact Or.inl h
    | quiet h later => exact Or.inr (Or.inl ⟨_, h, later⟩)
    | action h later => exact Or.inr (Or.inr ⟨_, _, h, later⟩)
  · rintro (h | ⟨m', h, later⟩ | ⟨a, m', h, later⟩)
    · exact .now h
    · exact .quiet h later
    · exact .action h later

/-- A failure leaves nothing to be run. -/
theorem Reachable.items_of_failure (hm : Reachable p limits m) (h : m.failure ≠ none) :
    m.stack.items = [] := by
  induction hm with
  | start => simp [Machine.start] at h
  | @step m hm ih =>
    rcases m.step_machine_cases with ⟨hitems, hfailure⟩ | ⟨f, hd, heq⟩ | ⟨hnil, -⟩
    · have hnil := ih (hfailure ▸ h)
      rw [hitems, moved_of_nil hnil, hnil]
    · have hfailure : m.step.machine.failure = m.failure := by
        rw [heq]
        exact moved_failure m
      rw [demand_of_nil (ih (hfailure ▸ h))] at hd
      simp at hd
    · exact hnil
  | abandon _ _ => rfl

/-- Before a step fails there was no failure. -/
theorem Faults.failure_eq_none {e : Failure} (h : m.Faults e) (hm : Reachable p limits m) :
    m.failure = none := by
  by_contra hfailure
  have hd := demand_of_nil (hm.items_of_failure hfailure)
  simp [Faults, hd] at h

/-- Only a step that ends the evaluation fails. -/
theorem not_faults {e : Failure} (h : ∀ m', m.step ≠ .ended m') : ¬m.Faults e := fun hf ↦ by
  obtain ⟨m', hended, -⟩ := hf.step
  exact h m' hended

/-- A request that comes to a failing step is answered. -/
theorem FailsWithin.next_ne_none {e : Failure} {n : ℕ} (h : FailsWithin e m n) :
    m.next ≠ none := by
  induction h with
  | now hfaults =>
    obtain ⟨m', hended, -⟩ := hfaults.step
    simp [next_of_ended hended]
  | quiet hstep _ ih => rwa [next_of_quiet hstep]
  | action hstep => simp [next_of_action hstep]

/-- **A machine has failed if it had failed before, or if a step of the request did.** The induction
is on the number of actions, and for each of them along the quiet steps in front of it. -/
theorem Reachable.failure_take (hm : Reachable p limits m) (e : Failure) (n : ℕ) :
    (m.take n).2.failure = some e ↔ m.failure = some e ∨ FailsWithin e m n := by
  induction n generalizing m with
  | zero =>
    have hnot : ¬FailsWithin e m 0 := fun h ↦ by cases h
    simp [hnot]
  | succ n ihn =>
    rcases hnext : m.next with - | r
    · have hnot : ¬FailsWithin e m (n + 1) := fun h ↦ h.next_ne_none hnext
      simp [take_succ_of_none hnext, hnot]
    rw [next_eq_some_iff] at hnext
    induction hnext with
    | @quiet m _ _ h hlater ih =>
      have hfault : ¬m.Faults e := not_faults (by simp [h])
      have hnext : m.next ≠ none := by simp [(Answered.quiet h hlater).next_eq]
      rw [failsWithin_iff, take_succ_of_quiet h n hnext, ih (hm.of_step h), (quiet_account h).1]
      simp [h, hfault]
    | @action m m' _ h =>
      have hfault : ¬m.Faults e := not_faults (by simp [h])
      have hlater : (m'.take n).2.failure = some e ↔ m'.failure = some e ∨ FailsWithin e m' n :=
        ihn (hm.of_step h)
      rw [failsWithin_iff, take_succ_of_action (next_of_action h), hlater, (action_account h).1]
      simp [h, hfault]
    | @ended m _ h =>
      rw [take_succ_of_ended (next_of_ended h), failsWithin_iff]
      rcases ended_account h with ⟨hnil, rfl⟩ | ⟨e', hfaults, hfailure, -, -⟩
      · simp [h, Faults, demand_of_nil hnil]
      · -- a step fails with one failure only, and none had been there before
        have hsame : m.Faults e ↔ e' = e := by
          constructor
          · intro hf
            obtain ⟨m₁, hended, he⟩ := hf.step
            obtain rfl := Outcome.ended.inj (h.symm.trans hended)
            exact Option.some.inj (hfailure.symm.trans he)
          · rintro rfl
            exact hfaults
        simp [h, hfailure, hfaults.failure_eq_none hm, hsame]
    | @stuck m _ h =>
      have hfault : ¬m.Faults e := not_faults (by simp [h])
      rw [take_succ_of_stuck (next_of_stuck h), (stuck_account h).1, failsWithin_iff]
      simp [h, hfault]

theorem Reachable.failure_respond (hm : Reachable p limits m) (e : Failure) (request : Request) :
    (m.respond request).2.failure = some e ↔ m.failure = some e ∨ FailsOn e m request := by
  cases request with
  | next =>
    rw [← take_one]
    exact hm.failure_take e 1
  | take n =>
    show (m.take? n).2.failure = some e ↔ m.failure = some e ∨ (n ≤ capacity ∧ _)
    unfold Machine.take?
    split
    · next hroom => simp [Int.not_le.2 hroom]
    · next hroom =>
      rw [hm.failure_take e n.toNat]
      simp [Int.not_lt.1 hroom]
  | abandon => simp [Machine.respond, Machine.abandon, FailsOn]

/-- **A machine has failed if and only if one of the requests did.** -/
theorem Reachable.failure_behind (hm : Reachable p limits m) (e : Failure)
    (requests : List Request) :
    (m.behind requests).failure = some e ↔
      m.failure = some e ∨ m.Encounters (FailsOn e) requests := by
  induction requests generalizing m with
  | nil => simp [Machine.behind, Encounters]
  | cons request requests ih =>
    rw [Machine.behind, ih (hm.respond request), hm.failure_respond e request, Encounters, or_assoc]

/-! ### Requests of any size -/

/-- If there can be room for all actions, they can be requested in two parts. -/
theorem take?_add {k n : ℤ} (hk : 0 ≤ k) (hn : 0 ≤ n) (hroom : k + n ≤ capacity) :
    (∀ actions, (m.take? k).1 = some actions → m.take? (k + n) =
      (((m.take? k).2.take? n).1.map (actions ++ ·), ((m.take? k).2.take? n).2)) ∧
    ((m.take? k).1 = none → m.take? (k + n) = m.take? k) := by
  have hsum : (k + n).toNat = k.toNat + n.toNat := Int.toNat_add hk hn
  rw [take?_of_le _ hroom, take?_of_le _ (by omega : k ≤ capacity), hsum]
  refine ⟨fun actions h ↦ ?_, fun h ↦ take_add_of_none h _⟩
  rw [take?_of_le _ (by omega : n ≤ capacity)]
  exact take_add_of_some (Prod.ext h rfl) _

/-- **The end is final, and requests can be divided.** Of any program, under any limits and behind
any requests, one after the other:

* as many actions were counted as were pulled, and these are the ones that were handed over, unless
  a request was left without an answer;
* once a request for the next action is answered with the end, or the evaluation is given up, it is
  over for good;
* the machine has failed with some failure if and only if a step of one of the requests has, and
  giving up leaves it so;
* if there can be room for `k + n` actions, then a request for `k` and behind it one for `n` hand
  over what a request for `k + n` does and leave the same machine, its failure included, and this
  gets stuck if and where they do;
* requests to a program without blanks are answered, unless there can be no room for the actions or
  the limit on frames for one action is the largest one, which never stops the evaluation. -/
theorem end_final_and_requests_divisible (p : Program) (limits : Limits)
    (requests : List Request) :
    let m := (start p limits).behind requests
    (m.count = ((start p limits).pulls requests).length ∧
      ((∀ answer ∈ (start p limits).answers requests, answer.given = true) →
        (start p limits).pulls requests =
          ((start p limits).answers requests).flatMap Answer.delivered)) ∧
    ((∀ m', m.next = some (.ended, m') → m'.Final) ∧ m.abandon.Final) ∧
    ((∀ e, m.failure = some e ↔ (start p limits).Encounters (FailsOn e) requests) ∧
      m.abandon.failure = m.failure) ∧
    (∀ k n : ℤ, 0 ≤ k → 0 ≤ n → k + n ≤ capacity →
      (∀ actions, (m.take? k).1 = some actions → m.take? (k + n) =
        (((m.take? k).2.take? n).1.map (actions ++ ·), ((m.take? k).2.take? n).2)) ∧
      ((m.take? k).1 = none → m.take? (k + n) = m.take? k)) ∧
    (p.Filled → (∀ m', m.next ≠ some (.stuck, m')) ∧
      (m.next = none → limits.silent = Int64.maxValue) ∧
      ∀ n, (capacity < n → (m.take? n).1 = none) ∧
        ((m.take? n).1 = none → capacity < n ∨ limits.silent = Int64.maxValue)) := by
  intro m
  have hm : Reachable p limits m := Reachable.start.behind requests
  refine ⟨⟨?_, pulls_of_given⟩, ⟨fun m' hended ↦ ?_, final_of_nil rfl⟩,
    ⟨fun e ↦ ?_, rfl⟩, fun k n hk hn hroom ↦ take?_add hk hn hroom,
    fun hp ↦ ⟨hm.next_ne_stuck hp, hm.of_next_eq_none, fun n ↦
      ⟨take?_of_lt m, hm.of_take?_eq_none hp⟩⟩⟩
  · exact (count_behind _ requests).trans (Nat.zero_add _)
  · exact final_of_nil (items_of_ended hended)
  · have hstart : (start p limits).failure ≠ some e := by simp [start]
    rw [Reachable.start.failure_behind e requests, or_iff_right hstart]

/-- With room for two frames the descent of `descent` ends behind its first action, with a recursion
error. It ends so for good, and the same way if three actions are requested in two parts. -/
theorem descent_ends_for_good : descent.Filled ∧
    (∀ answer ∈ (start descent ⟨2, 9⟩).answers [.next], answer.given = true) ∧
    ((start descent ⟨2, 9⟩).answers [.next]).flatMap Answer.delivered = [.command .forward] ∧
    ((start descent ⟨2, 9⟩).behind [.next]).count = 1 ∧
    (∃ m', ((start descent ⟨2, 9⟩).behind [.next]).next = some (.ended, m') ∧ m'.Final) ∧
    (start descent ⟨2, 9⟩).Encounters (FailsOn (.recursion 2 3)) [.next, .next] ∧
    ∃ actions, ((start descent ⟨2, 9⟩).take? 1).1 = some actions ∧ (start descent ⟨2, 9⟩).take? 3 =
      ((((start descent ⟨2, 9⟩).take? 1).2.take? 2).1.map (actions ++ ·),
        (((start descent ⟨2, 9⟩).take? 1).2.take? 2).2) := by
  have hfilled : descent.Filled := by decide
  have hgiven : ((start descent ⟨2, 9⟩).answers [.next]).all Answer.given = true := by cbv
  have hpulls : (start descent ⟨2, 9⟩).pulls [.next] = [.command .forward] := by cbv
  have hended : ((start descent ⟨2, 9⟩).behind [.next]).next.map Prod.fst = some .ended := by cbv
  have hfailure : ((start descent ⟨2, 9⟩).behind [.next, .next]).failure =
      some (.recursion 2 3) := by
    cbv
  have hfirst : ((start descent ⟨2, 9⟩).take? 1).1 = some [.command .forward] := by cbv
  obtain ⟨⟨hcount, hdelivered⟩, ⟨hfinal, -⟩, -⟩ :=
    end_final_and_requests_divisible descent ⟨2, 9⟩ [.next]
  obtain ⟨-, -, ⟨hencounters, -⟩, -⟩ :=
    end_final_and_requests_divisible descent ⟨2, 9⟩ [.next, .next]
  obtain ⟨-, -, -, hdivided, -⟩ := end_final_and_requests_divisible descent ⟨2, 9⟩ []
  obtain ⟨⟨reply, m'⟩, hnext, rfl⟩ := Option.map_eq_some_iff.1 hended
  rw [hpulls] at hcount hdelivered
  exact ⟨hfilled, List.all_eq_true.1 hgiven, (hdelivered (List.all_eq_true.1 hgiven)).symm, hcount,
    ⟨m', hnext, hfinal m' hnext⟩, (hencounters _).1 hfailure, _, hfirst,
    (hdivided 1 2 (by decide) (by decide) (by decide)).1 _ hfirst⟩

/-! ### Requests that are not answered -/

/-- The main block `sa()`, where the argument is a sum with a blank operand. -/
def lateBlank : Program := { blankCall with main := blankCall.main.reverse }

/-- The main block `s`. -/
def singleAction : Program := ⟨[], [.command .forward .null]⟩

/-- **Requests that are not answered cannot be divided, and what they pull is counted all the
same.** If the machine gets stuck behind its first action, that was counted and is not handed over.
If it gets stuck in front of it, then two requests for one action each do more than one request for
two, since the second one goes on behind the blank. And if there can be no room for all actions,
then none of them is delivered, although there is room for the first one. -/
theorem unanswered_requests_indivisible :
    (¬∀ (p : Program) (limits : Limits) (requests : List Request),
      ((start p limits).behind requests).count =
        (((start p limits).answers requests).flatMap Answer.delivered).length) ∧
    (¬∀ (p : Program) (limits : Limits) (k n : ℤ), 0 ≤ k → 0 ≤ n → k + n ≤ capacity →
      ((start p limits).take? (k + n)).2 = (((start p limits).take? k).2.take? n).2) ∧
    ¬∀ (p : Program) (limits : Limits) (k n : ℤ), 0 ≤ k → 0 ≤ n → p.Filled →
      ((start p limits).take? (k + n)).2 = (((start p limits).take? k).2.take? n).2 := by
  refine ⟨fun h ↦ ?_, fun h ↦ ?_, fun h ↦ ?_⟩
  · have hcount : ((start lateBlank .standard).behind [.take 2]).count = 1 := by cbv
    have hnothing : ((start lateBlank .standard).answers [.take 2]).flatMap Answer.delivered =
        [] := by
      cbv
    have hsame := h lateBlank .standard [.take 2]
    rw [hcount, hnothing] at hsame
    simp at hsame
  · have htogether : ((start blankCall .standard).take? (1 + 1)).2.count = 0 := by cbv
    have hdivided : (((start blankCall .standard).take? 1).2.take? 1).2.count = 1 := by cbv
    have hsame := h blankCall .standard 1 1 (by decide) (by decide) (by decide)
    rw [hsame, hdivided] at htogether
    simp at htogether
  · have hfirst : ((start singleAction .standard).take? 1).2.count = 1 := by cbv
    have hsame := h singleAction .standard 1 (2 ^ 45) (by decide) (by decide) (by decide)
    rw [take?, if_pos (by decide), take?, if_pos (by decide)] at hsame
    have hnone : (start singleAction .standard).count = 1 := by
      rw [← hfirst]
      exact congrArg count hsame
    simp [start] at hnone

end RobotGolf.Machine
