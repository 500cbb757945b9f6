import RobotGolf.Proofs.Runs
/-!
# Dropping frames that have run out is not noticed

Before the machine enters a frame it drops the one on top if that has run out, so that calls in last
position do not pile up. Here it is compared with the **plain machine**, which does not
(`plainStep`): all else is shared between the two, since what is asked for depends on the topmost
frame only (`step_eq_perform`), and the plain machine carries it out in the same way unless a frame
is to be entered.

## How the stacks correspond

Between two requests the stack of the machine is that of the plain machine without the frames below
the top that have run out (`slim`). During a request this is not kept. When the plain machine leaves
a frame it may find one below that has run out as well, which the machine has dropped long before;
so there are two ways to correspond, with and without the top (`Tracks`), and the plain machine
takes steps of its own (`plainStep_cases`). As soon as an element is run, the frame on top is there
in both stacks, and whatever comes of it, the stacks correspond in the first way again
(`perform_matches`).

Only the size of the stack could make a difference. The plain machine has the larger one, so it is
the plain machine that is stopped first.
-/

namespace RobotGolf

/-! ### The plain machine -/

namespace Machine

/-- Enters a frame on top of all others, also of one that has run out. -/
def pile (m : Machine) (f : Frame Env) : Outcome :=
  let silent := m.silent + 1
  if m.limits.silent < silent then
    .ended ({ m with silent := silent }.fail (.recursion m.stack.size silent))
  else if m.limits.depth.toInt ≤ m.stack.size then
    .ended ({ m with silent := silent }.fail (.recursion m.stack.size silent))
  else .quiet { m with silent := silent, stack := m.stack.push f }

/-- Carries a demand out without dropping a frame. -/
def performPlain (m : Machine) : Demand → Outcome
  | .enter f => m.pile f
  | demand => m.perform demand

/-- One step of the plain machine. -/
def plainStep (m : Machine) : Outcome := m.moved.performPlain m.demand

theorem pile_cases (m : Machine) (f : Frame Env) :
    (∃ m', m.pile f = .ended m' ∧ m'.Overrun ∧ m'.stack.items = []) ∨
    (m.silent + 1 ≤ m.limits.silent ∧ m.stack.size < m.limits.depth.toInt ∧
      m.pile f = .quiet { m with silent := m.silent + 1, stack := m.stack.push f }) := by
  by_cases hs : m.limits.silent < m.silent + 1
  · exact Or.inl ⟨_, by rw [pile]; exact if_pos hs, ⟨_, _, rfl⟩, rfl⟩
  · by_cases hd : m.limits.depth.toInt ≤ m.stack.size
    · exact Or.inl ⟨_, by simp only [pile, if_neg hs, if_pos hd]; rfl, ⟨_, _, rfl⟩, rfl⟩
    · exact Or.inr ⟨Int64.not_lt.1 hs, by omega, by simp only [pile, if_neg hs, if_neg hd]⟩

/-- Runs the plain machine until it delivers an action, has come to its end or is stuck. -/
def plainNext (m : Machine) : Option (Reply × Machine) :=
  match m.plainStep with
  | .ended m' => some (.ended, m')
  | .action a m' => some (.action a, m')
  | .stuck m' => some (.stuck, m')
  | .quiet m' => by apply plainNext; exact m'
partial_fixpoint

/-- The machine behind a number of requests. One that is never answered leaves it as it was. -/
def afterRequests (m : Machine) : Nat → Machine
  | 0 => m
  | k + 1 => ((m.afterRequests k).next.map Prod.snd).getD (m.afterRequests k)

/-- The plain machine behind a number of requests. -/
def plainAfterRequests (m : Machine) : Nat → Machine
  | 0 => m
  | k + 1 => ((m.plainAfterRequests k).plainNext.map Prod.snd).getD (m.plainAfterRequests k)

theorem plainNext_of_quiet {m m' : Machine} (h : m.plainStep = .quiet m') :
    m.plainNext = m'.plainNext := by
  rw [plainNext, h]

theorem plainNext_of_action {m m' : Machine} {a : Action} (h : m.plainStep = .action a m') :
    m.plainNext = some (.action a, m') := by
  rw [plainNext, h]

theorem plainNext_of_ended {m m' : Machine} (h : m.plainStep = .ended m') :
    m.plainNext = some (.ended, m') := by
  rw [plainNext, h]

theorem plainNext_of_stuck {m m' : Machine} (h : m.plainStep = .stuck m') :
    m.plainNext = some (.stuck, m') := by
  rw [plainNext, h]

/-! ### Corresponding stacks -/

/-- The frames with something left to run. -/
def live (frames : List (Frame Env)) : List (Frame Env) := frames.filter fun f ↦ !f.exhausted

/-- A stack without the frames below the top that have run out. -/
def slim : List (Frame Env) → List (Frame Env)
  | [] => []
  | top :: below => top :: live below

theorem live_cons_of_nil {f : Frame Env} (hf : f.rest = []) (frames : List (Frame Env)) :
    live (f :: frames) = live frames := by
  simp [live, Frame.exhausted, hf]

theorem live_cons_of_cons {f : Frame Env} {x : Element} {rest : List Element}
    (hf : f.rest = x :: rest) (frames : List (Frame Env)) :
    live (f :: frames) = f :: live frames := by
  simp [live, Frame.exhausted, hf]

theorem length_slim_le (frames : List (Frame Env)) : (slim frames).length ≤ frames.length := by
  rcases frames with - | ⟨top, below⟩
  · exact Nat.le_refl _
  · exact Nat.succ_le_succ (List.length_filter_le _ _)

/-- Dropping the top if it has run out leaves the frames that have not. -/
theorem items_dropExhausted_of_slim {stack : Stack (Frame Env)} {frames : List (Frame Env)}
    (h : stack.items = slim frames) : (dropExhausted stack).items = live frames := by
  rcases frames with - | ⟨top, below⟩
  · simp [dropExhausted, Stack.top?, h, slim, live]
  · rcases hrest : top.rest with - | ⟨x, rest⟩
    · rw [live_cons_of_nil hrest]
      simp [dropExhausted, Stack.top?, h, slim, Frame.exhausted, hrest]
    · rw [live_cons_of_cons hrest]
      simp [dropExhausted, Stack.top?, h, slim, Frame.exhausted, hrest]

/-- A machine and a plain machine between two requests: they differ in their stacks only, and the
first one has lost the frames below the top that have run out. -/
structure Slims (o p : Machine) : Prop where
  same : o = { p with stack := o.stack }
  items : o.stack.items = slim p.stack.items

/-- A machine and a plain machine during a request: the first one may have lost the top as well, if
that has run out. -/
structure Tracks (o p : Machine) : Prop where
  same : o = { p with stack := o.stack }
  items : o.stack.items = slim p.stack.items ∨ o.stack.items = live p.stack.items

end Machine

/-- Outcomes of the same kind with machines that correspond. -/
inductive Outcome.Matches : Outcome → Outcome → Prop where
  | quiet {o p : Machine} (h : o.Slims p) : Outcome.Matches (.quiet o) (.quiet p)
  | action {o p : Machine} (a : Action) (h : o.Slims p) :
      Outcome.Matches (.action a o) (.action a p)
  | ended {o p : Machine} (h : o.Slims p) : Outcome.Matches (.ended o) (.ended p)
  | stuck {o p : Machine} (h : o.Slims p) : Outcome.Matches (.stuck o) (.stuck p)

namespace Machine

variable {o p : Machine}

theorem Slims.tracks (h : o.Slims p) : o.Tracks p := ⟨h.same, Or.inl h.items⟩

theorem Slims.size_le (h : o.Slims p) : o.stack.size ≤ p.stack.size := by
  rw [o.stack.size_eq, p.stack.size_eq, h.items]
  exact length_slim_le _

theorem Slims.deliver (h : o.Slims p) : o.deliver.Slims p.deliver :=
  ⟨by rw [h.same]; rfl, h.items⟩

theorem Slims.fail (h : o.Slims p) (failure : Failure) : (o.fail failure).Slims (p.fail failure) :=
  ⟨by rw [h.same]; rfl, rfl⟩

/-- **Entering a frame.** If the plain machine finds room for it, so does the other one. -/
theorem Slims.enter (h : o.Slims p) (f : Frame Env) :
    (∃ p', p.pile f = .ended p' ∧ p'.Overrun ∧ p'.stack.items = []) ∨
      (o.enter f).Matches (p.pile f) := by
  have hsilent : o.silent = p.silent := by rw [h.same]
  have hlimits : o.limits = p.limits := by rw [h.same]
  have hdropped := items_dropExhausted_of_slim h.items
  have hsize : (dropExhausted o.stack).size ≤ p.stack.size := by
    rw [(dropExhausted o.stack).size_eq, p.stack.size_eq, hdropped]
    exact List.length_filter_le _ _
  rcases p.pile_cases f with hover | ⟨hs, hd, hpile⟩
  · exact Or.inl hover
  · rcases o.enter_cases f with ⟨hs', -⟩ | ⟨-, hd', -⟩ | ⟨-, -, he⟩
    · rw [hsilent, hlimits] at hs'
      exact absurd hs (Int64.not_le.2 hs')
    · rw [hlimits] at hd'
      omega
    · rw [he, hpile]
      refine Or.inr (.quiet ⟨?_, ?_⟩)
      · rw [entered, h.same]
      · rw [entered, Stack.items_push, hdropped]
        rfl

/-- **What is asked for is carried out in the same way**, unless the plain machine has no room. -/
theorem Slims.perform_matches (h : o.Slims p) (demand : Demand) :
    (∃ p', p.performPlain demand = .ended p' ∧ p'.Overrun ∧ p'.stack.items = []) ∨
      (o.perform demand).Matches (p.performPlain demand) := by
  rcases demand with - | - | - | a | f | failure | -
  · exact Or.inr (.ended h)
  · exact Or.inr (.quiet h)
  · exact Or.inr (.quiet h)
  · exact Or.inr (.action a h.deliver)
  · exact h.enter f
  · exact Or.inr (.ended (h.fail failure))
  · exact Or.inr (.stuck h)

/-- Moving on, both machines change nothing but their stacks. -/
theorem Tracks.moved_same (h : o.Tracks p) : o.moved = { p.moved with stack := o.moved.stack } := by
  obtain ⟨stack, ho⟩ := o.exists_moved_eq
  obtain ⟨stack', hp⟩ := p.exists_moved_eq
  rw [ho, hp, h.same]

/-- **One step of the plain machine.** It has no room left; it leaves a frame that the other machine
has dropped before, and its stack gets smaller; both leave a frame; or both do the same with the
same element. -/
theorem Tracks.plainStep_cases (h : o.Tracks p) :
    (∃ p', p.plainStep = .ended p' ∧ p'.Overrun ∧ p'.stack.items = []) ∨
    (∃ p', p.plainStep = .quiet p' ∧ o.Tracks p' ∧ p'.stack.size < p.stack.size) ∨
    (∃ o' p', o.step = .quiet o' ∧ p.plainStep = .quiet p' ∧ o'.Tracks p') ∨
    o.step.Matches p.plainStep := by
  have hprogram : o.program = p.program := by rw [h.same]
  rcases hitems : p.stack.items with - | ⟨f, below⟩
  · -- nothing is left
    have hempty : o.stack.items = [] := by
      rcases h.items with ho | ho <;> rw [ho, hitems] <;> rfl
    refine Or.inr (Or.inr (Or.inr ?_))
    rw [step_eq_perform, plainStep, demand_of_nil hempty, demand_of_nil hitems,
      moved_of_nil hempty, moved_of_nil hitems]
    exact .ended ⟨h.same, by rw [hempty, hitems]; rfl⟩
  rcases hrest : f.rest with - | ⟨x, rest⟩
  · -- the plain machine leaves a frame
    have hplain : p.plainStep = .quiet p.moved := by
      rw [plainStep, demand_of_exhausted hitems hrest]
      rfl
    have hmoved := items_moved_of_exhausted hitems hrest
    rcases h.items with ho | ho <;> rw [hitems] at ho
    · refine Or.inr (Or.inr (Or.inl ⟨o.moved, p.moved, ?_, hplain, h.moved_same, Or.inr ?_⟩))
      · rw [step_eq_perform, demand_of_exhausted ho hrest]
        rfl
      · rw [items_moved_of_exhausted ho hrest, hmoved]
    · refine Or.inr (Or.inl ⟨p.moved, hplain, ⟨?_, Or.inr ?_⟩, ?_⟩)
      · obtain ⟨stack, hp⟩ := p.exists_moved_eq
        rw [hp]
        exact h.same
      · rw [ho, live_cons_of_nil hrest, hmoved]
      · simp [Stack.size_eq, hmoved, hitems]
  · -- an element is run, in a frame that is on top of both stacks
    have ho : o.stack.items = f :: live below := by
      rcases h.items with ho | ho <;> rw [ho, hitems]
      · rfl
      · exact live_cons_of_cons hrest below
    have hslims : o.moved.Slims p.moved := by
      refine ⟨h.moved_same, ?_⟩
      rw [items_moved_of_cons ho hrest, items_moved_of_cons hitems hrest]
      rfl
    have hdemand : o.demand = p.demand := by
      rw [demand_of_cons ho hrest, demand_of_cons hitems hrest, hprogram]
    rw [step_eq_perform, hdemand, plainStep]
    rcases hslims.perform_matches p.demand with hover | hmatches
    · exact Or.inl hover
    · exact Or.inr (Or.inr (Or.inr hmatches))

/-! ### Requests -/

/-- If the plain machine answers a request, so does the other one, and in the same way, unless the
plain machine has no room. -/
theorem Tracks.next_of_plainNext {r' : Reply × Machine} (h : o.Tracks p)
    (hp : p.plainNext = some r') :
    (r'.1 = .ended ∧ r'.2.Overrun ∧ r'.2.stack.items = []) ∨
      ∃ r, o.next = some r ∧ r.1 = r'.1 ∧ r.2.Slims r'.2 := by
  refine plainNext.partial_correctness (fun p r' ↦ ∀ o : Machine, o.Tracks p →
    (r'.1 = .ended ∧ r'.2.Overrun ∧ r'.2.stack.items = []) ∨
      ∃ r, o.next = some r ∧ r.1 = r'.1 ∧ r.2.Slims r'.2) ?_ p r' hp o h
  intro plainNext ih p r' hp o h
  rcases h.plainStep_cases with ⟨p', hended, hover⟩ | ⟨p', hquiet, htracks, -⟩ |
    ⟨o', p', hstep, hquiet, htracks⟩ | hmatches
  · rw [hended] at hp
    obtain rfl := Option.some.inj hp
    exact Or.inl ⟨rfl, hover⟩
  · rw [hquiet] at hp
    exact ih p' r' hp o htracks
  · rw [hquiet] at hp
    rw [next_of_quiet hstep]
    exact ih p' r' hp o' htracks
  · generalize ho : o.step = x at hmatches
    generalize hplain : p.plainStep = y at hmatches hp
    cases hmatches with
    | quiet hslims =>
      rw [next_of_quiet ho]
      exact ih _ r' hp _ hslims.tracks
    | action a hslims =>
      obtain rfl := Option.some.inj hp
      exact Or.inr ⟨_, next_of_action ho, rfl, hslims⟩
    | ended hslims =>
      obtain rfl := Option.some.inj hp
      exact Or.inr ⟨_, next_of_ended ho, rfl, hslims⟩
    | stuck hslims =>
      obtain rfl := Option.some.inj hp
      exact Or.inr ⟨_, next_of_stuck ho, rfl, hslims⟩

/-- Steps of its own take the plain machine to where it has no room left, or does what the other
machine does. They come to an end because its stack gets smaller. -/
theorem Tracks.exists_catchUp (h : o.Tracks p) : ∃ p₁ : Machine, p.plainNext = p₁.plainNext ∧
    ((∃ p', p₁.plainStep = .ended p') ∨
      (∃ o' p', o.step = .quiet o' ∧ p₁.plainStep = .quiet p' ∧ o'.Tracks p') ∨
      o.step.Matches p₁.plainStep) := by
  obtain ⟨n, hn⟩ : ∃ n, p.stack.size = n := ⟨_, rfl⟩
  induction n using Nat.strongRecOn generalizing p with
  | ind n ih =>
    rcases h.plainStep_cases with ⟨p', hended, -⟩ | ⟨p', hquiet, htracks, hlt⟩ | hquiet | hmatches
    · exact ⟨p, rfl, Or.inl ⟨p', hended⟩⟩
    · obtain ⟨p₁, heq, hcases⟩ := ih _ (hn ▸ hlt) htracks rfl
      exact ⟨p₁, (plainNext_of_quiet hquiet).trans heq, hcases⟩
    · exact ⟨p, rfl, Or.inr (Or.inl hquiet)⟩
    · exact ⟨p, rfl, Or.inr (Or.inr hmatches)⟩

theorem Tracks.plainNext_ne_none_of_step (h : o.Tracks p) (ho : ∀ o', o.step ≠ .quiet o') :
    p.plainNext ≠ none := by
  obtain ⟨p₁, heq, ⟨p', hended⟩ | ⟨o', p', hstep, -⟩ | hmatches⟩ := h.exists_catchUp
  · simp [heq, plainNext_of_ended hended]
  · exact absurd hstep (ho o')
  · generalize hstep : o.step = x at hmatches
    generalize hplain : p₁.plainStep = y at hmatches
    cases hmatches with
    | quiet => exact absurd hstep (ho _)
    | action => simp [heq, plainNext_of_action hplain]
    | ended => simp [heq, plainNext_of_ended hplain]
    | stuck => simp [heq, plainNext_of_stuck hplain]

/-- If the machine answers a request, so does the plain one. -/
theorem Tracks.plainNext_ne_none {r : Reply × Machine} (h : o.Tracks p) (ho : o.next = some r) :
    p.plainNext ≠ none := by
  rw [next_eq_some_iff] at ho
  induction ho generalizing p with
  | quiet hstep _ ih =>
    obtain ⟨p₁, heq, ⟨p', hended⟩ | ⟨o', p', hstep', hquiet, htracks⟩ | hmatches⟩ :=
      h.exists_catchUp
    · simp [heq, plainNext_of_ended hended]
    · obtain rfl := Outcome.quiet.inj (hstep.symm.trans hstep')
      rw [heq, plainNext_of_quiet hquiet]
      exact ih htracks
    · rw [hstep] at hmatches
      generalize hplain : p₁.plainStep = y at hmatches
      cases hmatches with
      | quiet hslims =>
        rw [heq, plainNext_of_quiet hplain]
        exact ih hslims.tracks
  | action hstep => exact h.plainNext_ne_none_of_step (by simp [hstep])
  | ended hstep => exact h.plainNext_ne_none_of_step (by simp [hstep])
  | stuck hstep => exact h.plainNext_ne_none_of_step (by simp [hstep])

/-- **A request is answered in the same way**, or not at all by both machines, unless the plain
machine has no room. -/
theorem Tracks.next_cases (h : o.Tracks p) :
    (∃ p', p.plainNext = some (.ended, p') ∧ p'.Overrun ∧ p'.stack.items = []) ∨
      Option.Rel (fun r r' ↦ r.1 = r'.1 ∧ r.2.Slims r'.2) o.next p.plainNext := by
  rcases hp : p.plainNext with - | ⟨reply, p'⟩
  · rcases ho : o.next with - | r
    · exact Or.inr .none
    · exact absurd hp (h.plainNext_ne_none ho)
  · rcases h.next_of_plainNext hp with ⟨hended, hover⟩ | ⟨r, ho, hsame⟩
    · exact Or.inl ⟨p', congrArg (fun reply ↦ some (reply, p')) hended, hover⟩
    · rw [ho]
      exact Or.inr (.some hsame)

/-- Once nothing is left on the stack, requests change nothing. -/
theorem plainNext_of_nil (h : p.stack.items = []) : p.plainNext = some (.ended, p) := by
  refine plainNext_of_ended ?_
  rw [plainStep, demand_of_nil h, moved_of_nil h]
  rfl

theorem slims_start (program : Program) (limits : Limits) :
    (start program limits).Slims (start program limits) := ⟨rfl, rfl⟩

/-- Behind any number of requests the machines correspond, or the plain one has run out of room. -/
theorem Slims.afterRequests (h : o.Slims p) (k : Nat) :
    ((p.plainAfterRequests k).Overrun ∧ (p.plainAfterRequests k).stack.items = []) ∨
      (o.afterRequests k).Slims (p.plainAfterRequests k) := by
  induction k with
  | zero => exact Or.inr h
  | succ k ih =>
    rw [Machine.afterRequests, plainAfterRequests]
    rcases ih with ⟨hover, hnil⟩ | hslims
    · rw [plainNext_of_nil hnil]
      exact Or.inl ⟨hover, hnil⟩
    · rcases hslims.tracks.next_cases with ⟨p', hended, hover, hnil⟩ | hsame
      · rw [hended]
        exact Or.inl ⟨hover, hnil⟩
      · generalize (o.afterRequests k).next = r at hsame ⊢
        generalize (p.plainAfterRequests k).plainNext = r' at hsame ⊢
        cases hsame with
        | some h => exact Or.inr h.2
        | none => exact Or.inr hslims

/-- An evaluation that has run out of room stays as it is. -/
theorem plainAfterRequests_of_nil {i k : Nat} (hik : i ≤ k)
    (h : (p.plainAfterRequests i).stack.items = []) :
    p.plainAfterRequests k = p.plainAfterRequests i := by
  induction hik with
  | refl => rfl
  | step _ ih =>
    rw [plainAfterRequests, ih, plainNext_of_nil h]
    rfl

/-- As long as the plain machine has room, the machines correspond behind every request. -/
theorem Slims.of_not_overrun (h : o.Slims p) {i k : Nat} (hik : i ≤ k)
    (hk : ¬(p.plainAfterRequests k).Overrun) :
    (o.afterRequests i).Slims (p.plainAfterRequests i) := by
  rcases h.afterRequests i with ⟨hover, hnil⟩ | hslims
  · rw [plainAfterRequests_of_nil hik hnil] at hk
    exact absurd hover hk
  · exact hslims

/-- **Dropping frames that have run out is not noticed, except for space.** Run any program under
any limits on the machine and on the plain machine, request by request, up to a request behind which
the plain machine has not ended with a recursion error. Then every request was answered in the same
way by both, or by neither; behind every request both have failed in the same way or not at all,
delivered as many actions and entered as many frames since; the stack of the machine is that of the
plain machine without the frames below the top that have run out, so it is no larger; and the
machine has not ended with a recursion error either. -/
theorem dropping_unnoticed (program : Program) (limits : Limits) (k : Nat)
    (hk : ¬((start program limits).plainAfterRequests k).Overrun) :
    (∀ i < k, ((start program limits).afterRequests i).next.map Prod.fst =
      ((start program limits).plainAfterRequests i).plainNext.map Prod.fst) ∧
    (∀ i ≤ k,
      ((start program limits).afterRequests i).failure =
        ((start program limits).plainAfterRequests i).failure ∧
      ((start program limits).afterRequests i).count =
        ((start program limits).plainAfterRequests i).count ∧
      ((start program limits).afterRequests i).silent =
        ((start program limits).plainAfterRequests i).silent ∧
      ((start program limits).afterRequests i).stack.items =
        slim ((start program limits).plainAfterRequests i).stack.items ∧
      ((start program limits).afterRequests i).stack.size ≤
        ((start program limits).plainAfterRequests i).stack.size) ∧
    ¬((start program limits).afterRequests k).Overrun := by
  have hslims := fun i (hi : i ≤ k) ↦ (slims_start program limits).of_not_overrun hi hk
  refine ⟨fun i hi ↦ ?_, fun i hi ↦ ?_, ?_⟩
  · rcases (hslims i (Nat.le_of_lt hi)).tracks.next_cases with ⟨p', hended, hover, hnil⟩ | hsame
    · -- the plain machine would not have recovered from a recursion error
      have hnext : (start program limits).plainAfterRequests (i + 1) = p' := by
        rw [plainAfterRequests, hended]
        rfl
      rw [← hnext] at hover hnil
      rw [plainAfterRequests_of_nil hi hnil] at hk
      exact absurd hover hk
    · generalize ((start program limits).afterRequests i).next = r at hsame ⊢
      generalize ((start program limits).plainAfterRequests i).plainNext = r' at hsame ⊢
      cases hsame with
      | some h => exact congrArg some h.1
      | none => rfl
  · have h := hslims i hi
    exact ⟨by rw [h.same], by rw [h.same], by rw [h.same], h.items, h.size_le⟩
  · have h := hslims k (Nat.le_refl k)
    rintro ⟨depth, calls, hfailure⟩
    exact hk ⟨depth, calls, by rw [← hfailure, h.same]⟩

/-- The program `a:sa` with the main block `a`, which calls itself in last position. -/
def march : Program :=
  ⟨[⟨"a", [], [.command .forward .null, .call "a" [] .null], .null⟩], [.call "a" [] .null]⟩

/-- With room for three frames, the plain machine holds three of them behind the second action and
is stopped before the third one. The machine never holds more than one. -/
theorem march_unnoticed :
    ¬((start march ⟨3, 5⟩).plainAfterRequests 2).Overrun ∧
    ((start march ⟨3, 5⟩).plainAfterRequests 3).Overrun ∧
    ((start march ⟨3, 5⟩).plainAfterRequests 2).stack.size = 3 ∧
    ((start march ⟨3, 5⟩).afterRequests 2).stack.size = 1 ∧
    ((start march ⟨3, 5⟩).afterRequests 2).count = 2 ∧
    ((start march ⟨3, 5⟩).afterRequests 2).stack.items =
      slim ((start march ⟨3, 5⟩).plainAfterRequests 2).stack.items := by
  have hfailure : ((start march ⟨3, 5⟩).plainAfterRequests 2).failure = none := by cbv
  have hover : ((start march ⟨3, 5⟩).plainAfterRequests 3).failure = some (.recursion 3 1) := by
    cbv
  have hplain : ((start march ⟨3, 5⟩).plainAfterRequests 2).stack.size = 3 := by cbv
  have hsize : ((start march ⟨3, 5⟩).afterRequests 2).stack.size = 1 := by cbv
  have hcount : ((start march ⟨3, 5⟩).plainAfterRequests 2).count = 2 := by cbv
  have hnot : ¬((start march ⟨3, 5⟩).plainAfterRequests 2).Overrun := by
    rintro ⟨depth, calls, h⟩
    simp [hfailure] at h
  obtain ⟨-, hsame, -⟩ := dropping_unnoticed march ⟨3, 5⟩ 2 hnot
  obtain ⟨-, hcounts, -, hitems, -⟩ := hsame 2 (Nat.le_refl 2)
  exact ⟨hnot, ⟨3, 1, hover⟩, hplain, hsize, hcounts.trans hcount, hitems⟩

end Machine

end RobotGolf
