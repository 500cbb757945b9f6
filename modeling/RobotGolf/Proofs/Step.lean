import RobotGolf.Machine.Basic
/-!
# What one step of the machine can do

A step looks at the topmost frame only, and what it is asked to do there — the **demand** — depends
on the program and on that frame, never on the limits, on the counters or on the frames below. The
limits come in afterwards, and only where a frame is to be entered. `step_eq_perform` takes a step
apart along this line: first the stack moves on past the element ahead (`Machine.moved`), then the
demand is carried out (`Machine.perform`).

Everything that is proved about runs of the machine starts from here and from `enter_cases`, which
lists the three ways in which entering a frame can turn out. No later proof unfolds `Machine.step`.
-/

namespace RobotGolf

/-! ### Demands -/

/-- What the machine is asked to do next, before any limit is looked at. -/
inductive Demand where
  /-- Nothing is left on the stack. -/
  | finish
  /-- The topmost frame has run out. -/
  | leave
  /-- A call is skipped, since one of its arguments is zero. -/
  | skip
  | deliver (a : Action)
  | enter (f : Frame Env)
  | fail (failure : Failure)
  /-- A sum with a blank operand is asked for its value. -/
  | stick

/-- What an element of the frame `f` asks for. -/
def Frame.demand (p : Program) (f : Frame Env) : Element → Demand
  | .command c _ => .deliver (.command c)
  | .parameter name _ =>
    match f.scope.lookup name with
    | .error failure => .fail failure
    | .ok (.deferred body captured) => .enter (Frame.enter name body captured)
    | .ok (.number n) =>
      if f.sole then .deliver (.number n) else .fail (.numberAmongStatements name n)
  | .call callee args _ =>
    match p.find? callee with
    | none => .fail (.missingProcedure callee)
    | some d =>
      if args.length ≠ d.params.length then .fail (.arity d.name d.params.length args.length)
      else
        match Argument.bindAll f.scope (Scope.empty (.ofString d.name)) d.params args with
        | .error (.failure failure) => .fail failure
        | .error .blank => .stick
        | .ok none => .skip
        | .ok (some scope) => .enter (Frame.enter d.name d.body (.mk scope))

/-- An element does not ask for the end, and a frame that it asks for is at the start of its
sequence. -/
theorem Frame.demand_element (p : Program) (f : Frame Env) (x : Element) :
    f.demand p x ≠ .finish ∧ ∀ g, f.demand p x = .enter g → g.passed = 0 := by
  cases x with
  | command c s => simp [demand]
  | parameter name s =>
    rw [demand]
    rcases f.scope.lookup name with failure | n | ⟨body, captured⟩
    · simp
    · by_cases hsole : f.sole = true <;> simp [hsole]
    · simp [enter]
  | call callee args s =>
    rw [demand]
    rcases p.find? callee with - | d
    · simp
    · by_cases hargs : args.length = d.params.length
      · simp only [hargs, ne_eq, not_true_eq_false, if_false]
        rcases Argument.bindAll f.scope (Scope.empty (.ofString d.name)) d.params args with
          (failure | -) | (- | scope) <;> simp [enter]
      · simp [hargs]

/-- **Where actions and frames come from.** What is delivered is a command or a number that was
looked up. A frame that is entered runs a captured sequence that was looked up, or the body of a
procedure with its arguments bound. -/
theorem Frame.source_of_demand (p : Program) (f : Frame Env) (x : Element) :
    (∀ a, f.demand p x = .deliver a → (∃ c span, x = .command c span ∧ a = .command c) ∨
      ∃ name span n, x = .parameter name span ∧ f.scope.lookup name = .ok (.number n) ∧
        a = .number n) ∧
    ∀ g, f.demand p x = .enter g → (∃ name span body captured, x = .parameter name span ∧
        f.scope.lookup name = .ok (.deferred body captured) ∧ g = enter name body captured) ∨
      ∃ callee args span d scope, x = .call callee args span ∧ p.find? callee = some d ∧
        Argument.bindAll f.scope (Scope.empty (.ofString d.name)) d.params args = .ok (some scope) ∧
        g = enter d.name d.body (.mk scope) := by
  cases x with
  | command c span =>
    refine ⟨fun a ha ↦ Or.inl ⟨c, span, rfl, ?_⟩, by simp [demand]⟩
    simpa [demand, eq_comm] using ha
  | parameter name span =>
    rw [demand]
    rcases hlookup : f.scope.lookup name with failure | n | ⟨body, captured⟩
    · simp
    · refine ⟨fun a ha ↦ Or.inr ⟨name, span, n, rfl, hlookup, ?_⟩, ?_⟩
      · by_cases hsole : f.sole = true <;> simp_all
      · by_cases hsole : f.sole = true <;> simp [hsole]
    · refine ⟨by simp, fun g hg ↦ Or.inl ⟨name, span, body, captured, rfl, hlookup, ?_⟩⟩
      simpa [eq_comm] using hg
  | call callee args span =>
    rw [demand]
    rcases hfind : p.find? callee with - | d
    · simp
    by_cases hlength : args.length = d.params.length
    · simp only [hlength, ne_eq, not_true_eq_false, if_false]
      rcases hbind : Argument.bindAll f.scope (Scope.empty (.ofString d.name)) d.params args with
        (failure | -) | (- | scope)
      · simp
      · simp
      · simp
      · refine ⟨by simp, fun g hg ↦ Or.inr ⟨callee, args, span, d, scope, rfl, hfind, hbind, ?_⟩⟩
        simpa [eq_comm] using hg
    · simp [hlength]

namespace Machine

/-- What the topmost frame asks for. -/
def demand (m : Machine) : Demand :=
  match m.stack.top? with
  | none => .finish
  | some f =>
    match f.advance? with
    | none => .leave
    | some (e, g) => g.demand m.program e

/-- The machine with its stack moved on: past the element ahead, or off a frame that has run
out. -/
def moved (m : Machine) : Machine :=
  match m.stack.top? with
  | none => m
  | some f =>
    match f.advance? with
    | none => { m with stack := m.stack.pop }
    | some (_, g) => { m with stack := m.stack.pop.push g }

/-- Carries a demand out. -/
def perform (m : Machine) : Demand → Outcome
  | .finish => .ended m
  | .leave => .quiet m
  | .skip => .quiet m
  | .deliver a => .action a m.deliver
  | .enter f => m.enter f
  | .fail failure => .ended (m.fail failure)
  | .stick => .stuck m

/-- Running an element is carrying out what it asks for. -/
theorem runElement_eq_perform (m : Machine) (f : Frame Env) (e : Element) :
    m.runElement f e = m.perform (f.demand m.program e) := by
  cases e with
  | command c s => rfl
  | parameter name s =>
    simp only [runElement, runParameter, Frame.demand]
    rcases f.scope.lookup name with failure | n | ⟨body, captured⟩
    · rfl
    · by_cases hsole : f.sole = true <;> simp [hsole, perform]
    · rfl
  | call callee args s =>
    simp only [runElement, runCall, Frame.demand]
    rcases m.program.find? callee with - | d
    · rfl
    · by_cases hargs : args.length = d.params.length
      · simp only [hargs, ne_eq, not_true_eq_false, if_false]
        rcases Argument.bindAll f.scope (Scope.empty (.ofString d.name)) d.params args with
          (failure | -) | (- | scope) <;> rfl
      · simp [hargs, perform]

/-- **A step moves the stack on and carries the demand out.** -/
theorem step_eq_perform (m : Machine) : m.step = m.moved.perform m.demand := by
  unfold step moved demand
  rcases m.stack.top? with - | f
  · rfl
  · rcases hf : f.advance? with - | ⟨e, g⟩
    · simp only [hf, perform]
    · simp only [hf]
      exact runElement_eq_perform _ g e

/-! ### Moving on changes nothing but the stack -/

/-- The machine with another stack. -/
theorem exists_moved_eq (m : Machine) : ∃ stack, m.moved = { m with stack := stack } := by
  unfold moved
  split
  · exact ⟨m.stack, rfl⟩
  · split
    · exact ⟨_, rfl⟩
    · exact ⟨_, rfl⟩

@[simp]
theorem moved_program (m : Machine) : m.moved.program = m.program := by
  obtain ⟨stack, h⟩ := m.exists_moved_eq
  rw [h]

@[simp]
theorem moved_limits (m : Machine) : m.moved.limits = m.limits := by
  obtain ⟨stack, h⟩ := m.exists_moved_eq
  rw [h]

@[simp]
theorem moved_failure (m : Machine) : m.moved.failure = m.failure := by
  obtain ⟨stack, h⟩ := m.exists_moved_eq
  rw [h]

@[simp]
theorem moved_silent (m : Machine) : m.moved.silent = m.silent := by
  obtain ⟨stack, h⟩ := m.exists_moved_eq
  rw [h]

/-! ### The three shapes of a stack -/

theorem demand_of_nil {m : Machine} (h : m.stack.items = []) : m.demand = .finish := by
  simp [demand, Stack.top?, h]

theorem moved_of_nil {m : Machine} (h : m.stack.items = []) : m.moved = m := by
  simp [moved, Stack.top?, h]

theorem demand_of_exhausted {m : Machine} {f : Frame Env} {below : List (Frame Env)}
    (h : m.stack.items = f :: below) (hf : f.rest = []) : m.demand = .leave := by
  simp [demand, Stack.top?, Frame.advance?, h, hf]

theorem items_moved_of_exhausted {m : Machine} {f : Frame Env} {below : List (Frame Env)}
    (h : m.stack.items = f :: below) (hf : f.rest = []) : m.moved.stack.items = below := by
  simp [moved, Stack.top?, Frame.advance?, h, hf]

theorem demand_of_cons {m : Machine} {f : Frame Env} {below : List (Frame Env)} {e : Element}
    {rest : List Element} (h : m.stack.items = f :: below) (hf : f.rest = e :: rest) :
    m.demand = { f with passed := f.passed + 1, rest := rest }.demand m.program e := by
  simp [demand, Stack.top?, Frame.advance?, h, hf]

theorem items_moved_of_cons {m : Machine} {f : Frame Env} {below : List (Frame Env)} {e : Element}
    {rest : List Element} (h : m.stack.items = f :: below) (hf : f.rest = e :: rest) :
    m.moved.stack.items = { f with passed := f.passed + 1, rest := rest } :: below := by
  simp [moved, Stack.top?, Frame.advance?, h, hf]

/-! ### Entering a frame -/

/-- The machine once it has entered a frame. -/
def entered (m : Machine) (f : Frame Env) : Machine :=
  { m with silent := m.silent + 1, stack := (dropExhausted m.stack).push f }

/-- Dropping a frame that has run out leaves a part of the stack. -/
theorem mem_of_mem_dropExhausted {stack : Stack (Frame Env)} {f : Frame Env}
    (h : f ∈ (dropExhausted stack).items) : f ∈ stack.items := by
  unfold dropExhausted at h
  split at h
  · exact h
  · split at h
    · exact List.mem_of_mem_tail h
    · exact h

/-- **The three ways in which entering a frame turns out**: too many frames were entered for one
action, the stack is full, or the frame is put on top of what is left of the stack. -/
theorem enter_cases (m : Machine) (f : Frame Env) :
    (m.limits.silent < m.silent + 1 ∧
      m.enter f = .ended ({ m with silent := m.silent + 1 }.fail
        (.recursion m.stack.size (m.silent + 1)))) ∨
    (m.silent + 1 ≤ m.limits.silent ∧ m.limits.depth.toInt ≤ (dropExhausted m.stack).size ∧
      m.enter f = .ended ({ m with silent := m.silent + 1 }.fail
        (.recursion (dropExhausted m.stack).size (m.silent + 1)))) ∨
    (m.silent + 1 ≤ m.limits.silent ∧ (dropExhausted m.stack).size < m.limits.depth.toInt ∧
      m.enter f = .quiet (m.entered f)) := by
  by_cases hs : m.limits.silent < m.silent + 1
  · exact Or.inl ⟨hs, by simp only [enter, if_pos hs]⟩
  · have hle : m.silent + 1 ≤ m.limits.silent := Int64.not_lt.1 hs
    by_cases hd : m.limits.depth.toInt ≤ (dropExhausted m.stack).size
    · exact Or.inr (Or.inl ⟨hle, hd, by simp only [enter, if_neg hs, if_pos hd]⟩)
    · exact Or.inr (Or.inr ⟨hle, by omega, by
        simp only [enter, if_neg hs, if_neg hd, entered]⟩)

/-- **What a quiet step was**: a frame was left, a call was skipped, or a frame was entered within
the limits. -/
theorem quiet_cases {m m' : Machine} (h : m.step = .quiet m') :
    (m.demand = .leave ∧ m' = m.moved) ∨ (m.demand = .skip ∧ m' = m.moved) ∨
    ∃ f, m.demand = .enter f ∧ m.silent + 1 ≤ m.limits.silent ∧
      (dropExhausted m.moved.stack).size < m.limits.depth.toInt ∧ m' = m.moved.entered f := by
  rw [step_eq_perform] at h
  rcases hd : m.demand with - | - | - | a | f | failure | - <;> rw [hd] at h <;>
    simp only [perform, Outcome.quiet.injEq, reduceCtorEq] at h
  · exact Or.inl ⟨rfl, h.symm⟩
  · exact Or.inr (Or.inl ⟨rfl, h.symm⟩)
  · refine Or.inr (Or.inr ⟨f, rfl, ?_⟩)
    rcases m.moved.enter_cases f with ⟨-, he⟩ | ⟨-, -, he⟩ | ⟨hs, hsize, he⟩ <;> rw [he] at h
    · simp at h
    · simp at h
    · simp only [Outcome.quiet.injEq, moved_silent, moved_limits] at h hs hsize
      exact ⟨hs, hsize, h.symm⟩

/-- What a step was that delivered an action. -/
theorem action_cases {m m' : Machine} {a : Action} (h : m.step = .action a m') :
    m.demand = .deliver a ∧ m' = m.moved.deliver := by
  rw [step_eq_perform] at h
  rcases hd : m.demand with - | - | - | b | f | failure | - <;> rw [hd] at h <;>
    simp only [perform, Outcome.action.injEq, reduceCtorEq] at h
  · exact ⟨by rw [h.1], h.2.symm⟩
  · rcases m.moved.enter_cases f with ⟨-, he⟩ | ⟨-, -, he⟩ | ⟨-, -, he⟩ <;> simp [he] at h

/-- What a step was that ended the evaluation: nothing was left, an element failed, or a frame could
not be entered within the limits. -/
theorem ended_cases {m m' : Machine} (h : m.step = .ended m') :
    (m.demand = .finish ∧ m' = m.moved) ∨
    (∃ failure, m.demand = .fail failure ∧ m' = m.moved.fail failure) ∨
    ∃ depth calls, m'.failure = some (.recursion depth calls) := by
  rw [step_eq_perform] at h
  rcases hd : m.demand with - | - | - | a | f | failure | - <;> rw [hd] at h <;>
    simp only [perform, Outcome.ended.injEq, reduceCtorEq] at h
  · exact Or.inl ⟨rfl, h.symm⟩
  · refine Or.inr (Or.inr ?_)
    rcases m.moved.enter_cases f with ⟨-, he⟩ | ⟨-, -, he⟩ | ⟨-, -, he⟩ <;> rw [he] at h <;>
      simp only [Outcome.ended.injEq, reduceCtorEq] at h
    · exact ⟨_, _, by rw [← h]; rfl⟩
    · exact ⟨_, _, by rw [← h]; rfl⟩
  · exact Or.inr (Or.inl ⟨failure, rfl, h.symm⟩)

theorem stuck_cases {m m' : Machine} (h : m.step = .stuck m') : m.demand = .stick := by
  rw [step_eq_perform] at h
  rcases hd : m.demand with - | - | - | a | f | failure | - <;> rw [hd] at h <;>
    simp only [perform, reduceCtorEq] at h
  · rcases m.moved.enter_cases f with ⟨-, he⟩ | ⟨-, -, he⟩ | ⟨-, -, he⟩ <;> simp [he] at h

/-- A frame that is asked for is at the start of its sequence. -/
theorem passed_of_enter {m : Machine} {g : Frame Env} (h : m.demand = .enter g) :
    g.passed = 0 := by
  rcases hitems : m.stack.items with - | ⟨f, below⟩
  · simp [demand_of_nil hitems] at h
  · rcases hrest : f.rest with - | ⟨x, rest⟩
    · simp [demand_of_exhausted hitems hrest] at h
    · rw [demand_of_cons hitems hrest] at h
      exact (Frame.demand_element _ _ _).2 g h

/-- The evaluation is at its end only if nothing is left on the stack. -/
theorem items_of_finish {m : Machine} (h : m.demand = .finish) : m.stack.items = [] := by
  rcases hitems : m.stack.items with - | ⟨f, below⟩
  · rfl
  · rcases hrest : f.rest with - | ⟨x, rest⟩
    · simp [demand_of_exhausted hitems hrest] at h
    · rw [demand_of_cons hitems hrest] at h
      exact absurd h (Frame.demand_element _ _ _).1

/-! ### Requests -/

/-- A request goes on behind a quiet step. -/
theorem next_of_quiet {m m' : Machine} (h : m.step = .quiet m') : m.next = m'.next := by
  rw [next, h]

theorem next_of_action {m m' : Machine} {a : Action} (h : m.step = .action a m') :
    m.next = some (.action a, m') := by
  rw [next, h]

theorem next_of_ended {m m' : Machine} (h : m.step = .ended m') :
    m.next = some (.ended, m') := by
  rw [next, h]

theorem next_of_stuck {m m' : Machine} (h : m.step = .stuck m') :
    m.next = some (.stuck, m') := by
  rw [next, h]

end Machine

end RobotGolf
