import Mathlib.Data.Nat.Notation
import RobotGolf.Proofs.FinalEnd
/-!
# Running to the end, step by step

That a program delivers certain actions and then comes to its end is a statement about requests
(`Delivers`). It is proved one step at a time: `Completes` says of a machine which actions its
remaining steps deliver and what failure they end with, and that the stack is never larger than some
bound on the way. From there one goes to requests (`Completes.delivers`) and to all states that the
evaluation can come to (`Reachable.size_le_of_completes`), and from one program to another that is
in lockstep with it (`InStep.completes`).

## Rules

A machine that has not failed is given by its frames and its two counters (`running`). For such
machines there is one rule for each thing that the element ahead may ask for. The rules are read
backwards, from what the machine does behind the step to what it does before it, so a loop or a
recursion of a program is followed by induction on what is left of it.
-/

namespace RobotGolf

/-- The stack with some items, its top first. -/
def Stack.ofList {α : Type} (items : List α) : Stack α := ⟨items, items.length, rfl⟩

namespace Machine

/-! ### Requests until the end -/

/-- Requests are answered by these actions, one after the other, and then by the end of the
evaluation, which has the failure `failure` or, if that is `none`, has not failed. -/
def Delivers (failure : Option Failure) : Machine → List Action → Prop
  | m, [] => ∃ m', m.next = some (.ended, m') ∧ m'.failure = failure
  | m, a :: actions => ∃ m', m.next = some (.action a, m') ∧ Delivers failure m' actions

/-- The steps of a machine deliver these actions and then end the evaluation, with a failure or
without, and there are never more than `bound` frames on the stack. -/
inductive Completes (bound : ℕ) (failure : Option Failure) : Machine → List Action → Prop where
  | quiet {m m' : Machine} {actions : List Action} (hstep : m.step = .quiet m')
      (hsize : m.stack.size ≤ bound) (h : Completes bound failure m' actions) :
      Completes bound failure m actions
  | action {m m' : Machine} {a : Action} {actions : List Action} (hstep : m.step = .action a m')
      (hsize : m.stack.size ≤ bound) (h : Completes bound failure m' actions) :
      Completes bound failure m (a :: actions)
  | ended {m m' : Machine} (hstep : m.step = .ended m') (hsize : m.stack.size ≤ bound)
      (hfailure : m'.failure = failure) : Completes bound failure m []

variable {p p' : Program} {limits : Limits} {bound : ℕ} {failure : Option Failure}
  {m m' : Machine} {actions : List Action}

theorem delivers_congr (h : m.next = m'.next) (hm' : m'.Delivers failure actions) :
    m.Delivers failure actions := by
  cases actions with
  | nil => rwa [Delivers, h]
  | cons a actions => rwa [Delivers, h]

namespace Completes

/-- **From steps to requests.** -/
theorem delivers (h : m.Completes bound failure actions) : m.Delivers failure actions := by
  induction h with
  | quiet hstep _ _ ih => exact delivers_congr (next_of_quiet hstep) ih
  | action hstep _ _ ih => exact ⟨_, next_of_action hstep, ih⟩
  | ended hstep _ hfailure => exact ⟨_, next_of_ended hstep, hfailure⟩

theorem size_le (h : m.Completes bound failure actions) : m.stack.size ≤ bound := by
  cases h with
  | quiet _ hsize => exact hsize
  | action _ hsize => exact hsize
  | ended _ hsize => exact hsize

end Completes

/-- A machine with nothing left to run is at its end. -/
theorem completes_of_nil (h : m.stack.items = []) : m.Completes bound m.failure [] := by
  refine .ended (step_of_nil h) ?_ rfl
  rw [m.stack.size_eq, h]
  exact Nat.zero_le bound

/-- Behind a step there are fewer actions to come, or as many. -/
theorem Completes.step (h : m.Completes bound failure actions) :
    ∃ actions', m.step.machine.Completes bound failure actions' := by
  cases h with
  | quiet hstep _ h => exact ⟨_, by rwa [hstep]⟩
  | action hstep _ h => exact ⟨_, by rwa [hstep]⟩
  | ended hstep _ hfailure =>
    rw [hstep, ← hfailure]
    exact ⟨[], completes_of_nil (items_of_ended (next_of_ended hstep))⟩

/-- **The bound holds in every reachable state.** -/
theorem Reachable.size_le_of_completes
    (h : (Machine.start p limits).Completes bound failure actions)
    (hm : Reachable p limits m) : m.stack.size ≤ bound := by
  have hcompletes : ∃ failure actions, m.Completes bound failure actions := by
    induction hm with
    | start => exact ⟨_, _, h⟩
    | step _ ih =>
      obtain ⟨e, _, h⟩ := ih
      exact ⟨e, h.step⟩
    | @abandon m _ _ => exact ⟨_, [], completes_of_nil (m := m.abandon) rfl⟩
  obtain ⟨_, _, h⟩ := hcompletes
  exact h.size_le

/-- **Programs in lockstep run to the same end.** -/
theorem InStep.completes {R : Frame Env → Frame Env → Prop} (hL : Lockstep p p' R Eq)
    (h : m.InStep p p' R Eq m') (hm' : m'.Completes bound failure actions) :
    m.Completes bound failure actions := by
  induction hm' generalizing m with
  | quiet hstep hsize _ ih =>
    have hsame := h.step hL
    rw [hstep] at hsame
    generalize ho : m.step = o at hsame
    cases hsame with
    | quiet h₁ => exact .quiet ho (h.size_eq ▸ hsize) (ih h₁)
  | action hstep hsize _ ih =>
    have hsame := h.step hL
    rw [hstep] at hsame
    generalize ho : m.step = o at hsame
    cases hsame with
    | action a h₁ => exact .action ho (h.size_eq ▸ hsize) (ih h₁)
  | ended hstep hsize hfailure =>
    have hsame := h.step hL
    rw [hstep] at hsame
    generalize ho : m.step = o at hsame
    cases hsame with
    | ended h₁ => exact .ended ho (h.size_eq ▸ hsize) (h₁.failure_eq ▸ hfailure)

/-! ### Rules for machines that have not failed -/

/-- The evaluation of `p` with some frames on its stack, and no failure so far. -/
def running (p : Program) (limits : Limits) (frames : List (Frame Env)) (count : ℕ)
    (silent : Int64) : Machine :=
  ⟨p, limits, Stack.ofList frames, none, count, silent⟩

/-- What stays on a stack when another frame is put on top of it. -/
def kept (f : Frame Env) (below : List (Frame Env)) : List (Frame Env) :=
  match f.rest with
  | [] => below
  | _ :: _ => f :: below

variable {f g h : Frame Env} {x : Element} {below : List (Frame Env)} {count : ℕ}
  {silent : Int64}

theorem step_running (hf : f.advance? = some (x, g)) :
    (running p limits (f :: below) count silent).step =
      (running p limits (g :: below) count silent).perform (g.demand p x) := by
  simp only [step, running, Stack.top?, Stack.ofList, List.head?_cons, hf,
    runElement_eq_perform]
  rfl

theorem step_running_of_exhausted (hf : f.rest = []) :
    (running p limits (f :: below) count silent).step =
      .quiet (running p limits below count silent) := by
  simp only [step, running, Stack.top?, Stack.ofList, List.head?_cons, Frame.advance?, hf]
  rfl

theorem dropExhausted_ofList (f : Frame Env) (below : List (Frame Env)) :
    dropExhausted (Stack.ofList (f :: below)) = Stack.ofList (kept f below) := by
  obtain ⟨name, passed, rest, e⟩ := f
  cases rest <;> rfl

theorem enter_running (hsilent : silent + 1 ≤ limits.silent)
    (hdepth : (kept f below).length < limits.depth.toInt) :
    (running p limits (f :: below) count silent).enter g =
      .quiet (running p limits (g :: kept f below) count (silent + 1)) := by
  simp only [enter, running, dropExhausted_ofList]
  rw [if_neg (Int64.not_lt.2 hsilent)]
  exact if_neg (Int.not_le.2 hdepth)

theorem enter_running_of_full (hsilent : silent + 1 ≤ limits.silent)
    (hdepth : limits.depth.toInt ≤ (kept f below).length) :
    (running p limits (f :: below) count silent).enter g =
      .ended ((running p limits (f :: below) count (silent + 1)).fail
        (.recursion (kept f below).length (silent + 1))) := by
  simp only [enter, running, dropExhausted_ofList]
  rw [if_neg (Int64.not_lt.2 hsilent)]
  exact if_pos hdepth

namespace Completes

/-- Nothing is left. -/
theorem finish : (running p limits [] count silent).Completes bound none [] :=
  completes_of_nil (m := running p limits [] count silent) rfl

/-- The topmost frame has run out. -/
theorem leave (hf : f.rest = []) (hsize : below.length + 1 ≤ bound)
    (hrun : (running p limits below count silent).Completes bound failure actions) :
    (running p limits (f :: below) count silent).Completes bound failure actions :=
  .quiet (step_running_of_exhausted hf) hsize hrun

/-- An action is delivered. -/
theorem deliver {a : Action} (hf : f.advance? = some (x, g)) (hx : g.demand p x = .deliver a)
    (hsize : below.length + 1 ≤ bound)
    (hrun : (running p limits (g :: below) (count + 1) 0).Completes bound failure actions) :
    (running p limits (f :: below) count silent).Completes bound failure (a :: actions) := by
  refine .action ?_ hsize hrun
  rw [step_running hf, hx]
  rfl

/-- A call is skipped. -/
theorem skip (hf : f.advance? = some (x, g)) (hx : g.demand p x = .skip)
    (hsize : below.length + 1 ≤ bound)
    (hrun : (running p limits (g :: below) count silent).Completes bound failure actions) :
    (running p limits (f :: below) count silent).Completes bound failure actions := by
  refine .quiet ?_ hsize hrun
  rw [step_running hf, hx]
  rfl

/-- A frame is entered. -/
theorem enter (hf : f.advance? = some (x, g)) (hx : g.demand p x = .enter h)
    (hsilent : silent + 1 ≤ limits.silent) (hdepth : (kept g below).length < limits.depth.toInt)
    (hsize : below.length + 1 ≤ bound)
    (hrun : (running p limits (h :: kept g below) count (silent + 1)).Completes bound failure
      actions) :
    (running p limits (f :: below) count silent).Completes bound failure actions := by
  refine .quiet ?_ hsize hrun
  rw [step_running hf, hx, perform, enter_running hsilent hdepth]

/-- The stack is full, and a frame is not entered. -/
theorem refuse (hf : f.advance? = some (x, g)) (hx : g.demand p x = .enter h)
    (hsilent : silent + 1 ≤ limits.silent) (hdepth : limits.depth.toInt ≤ (kept g below).length)
    (hsize : below.length + 1 ≤ bound) :
    (running p limits (f :: below) count silent).Completes bound
      (some (.recursion (kept g below).length (silent + 1))) [] := by
  have hstep : (running p limits (f :: below) count silent).step = .ended
      ((running p limits (g :: below) count (silent + 1)).fail
        (.recursion (kept g below).length (silent + 1))) := by
    rw [step_running hf, hx, perform, enter_running_of_full hsilent hdepth]
  exact .ended hstep hsize rfl

end Completes

end Machine

end RobotGolf
