import RobotGolf.Proofs.RaisedLimits
import RobotGolf.Proofs.Sequences
/-!
# The stack is kept within its limits and in order

The limits are looked at in the middle of a step: the stack has moved on, the counter has gone up,
and only then a frame is dropped, or not, and the size compared. `step_account` lists all ways in
which a step can turn out, with what is known at that moment. Everything about limits comes from
there:

* the stack never holds more frames than the limit on its size admits, and a run that is stopped for
  this reason has exactly as many;
* the counter goes past its limit by one, and only by the step that stops the run for it;
* no frame waits below the top that has run out, since it was dropped before another one was put on
  top of it.

They hold together or not at all (`Orderly`): that the counter is within its limit, for example, is
known as long as there was no failure, and a frame is entered only then, because a failure leaves
nothing on the stack.

## Nothing is taken from where there is nothing

An empty stack cannot be popped, and a frame that has run out cannot be advanced. The machine does
neither. To say so, `step?` is the machine with operations that have no result there, and it always
has the result of `step` (`step?_eq`). Sums with a blank operand are the only other reason why a
request could go unanswered.
-/

namespace RobotGolf

/-! ### Limits in effect -/

/-- The limits that an evaluation can have: the standard ones, and what setting them makes of
these. -/
inductive Limits.Effective : Limits → Prop where
  | standard : Limits.Effective .standard
  | withDepth {l : Limits} (h : l.Effective) (n : Int64) : Limits.Effective (l.withDepth n)
  | withSilent {l : Limits} (h : l.Effective) (n : Int64) : Limits.Effective (l.withSilent n)

/-- Limits are positive, and all positive limits can be set. -/
theorem Limits.effective_iff {l : Limits} : l.Effective ↔ 0 < l.depth ∧ 0 < l.silent := by
  constructor
  · intro h
    induction h with
    | standard => decide
    | withDepth h n ih =>
      unfold Limits.withDepth
      split
      · next hn => exact ⟨hn, ih.2⟩
      · exact ih
    | withSilent h n ih =>
      unfold Limits.withSilent
      split
      · next hn => exact ⟨ih.1, hn⟩
      · exact ih
  · rintro ⟨hdepth, hsilent⟩
    have heq : (Limits.standard.withDepth l.depth).withSilent l.silent = l := by
      rw [Limits.withSilent, if_pos hsilent, Limits.withDepth, if_pos hdepth]
    rw [← heq]
    exact (Limits.Effective.standard.withDepth l.depth).withSilent l.silent

/-! ### Operations that have no result where there is nothing -/

/-- Takes the item on top off a stack. There has to be one. -/
def Stack.pop? {α : Type} (s : Stack α) : Option (Stack α) :=
  if s.isEmpty then none else some s.pop

theorem Stack.pop?_of_top? {α : Type} {s : Stack α} {a : α} (h : s.top? = some a) :
    s.pop? = some s.pop := by
  obtain ⟨below, hitems⟩ : ∃ below, s.items = a :: below := by
    simpa [top?, List.head?_eq_some_iff] using h
  simp [pop?, isEmpty, hitems]

namespace Machine

/-- As `dropExhausted`. -/
def dropExhausted? (stack : Stack (Frame Env)) : Option (Stack (Frame Env)) :=
  match stack.top? with
  | none => some stack
  | some f => if f.exhausted then stack.pop? else some stack

/-- As `enter`. -/
def enter? (m : Machine) (f : Frame Env) : Option Outcome :=
  let silent := m.silent + 1
  if m.limits.silent < silent then
    some (.ended ({ m with silent := silent }.fail (.recursion m.stack.size silent)))
  else
    (dropExhausted? m.stack).map fun stack ↦
      if m.limits.depth.toInt ≤ stack.size then
        .ended ({ m with silent := silent }.fail (.recursion stack.size silent))
      else .quiet { m with silent := silent, stack := stack.push f }

/-- As `perform`. -/
def perform? (m : Machine) : Demand → Option Outcome
  | .enter f => m.enter? f
  | demand => some (m.perform demand)

/-- One step of a machine that has no result where an empty stack would be popped, or a frame
advanced that has run out. -/
def step? (m : Machine) : Option Outcome :=
  match m.stack.top? with
  | none => some (.ended m)
  | some f =>
    if f.exhausted then m.stack.pop?.map fun stack ↦ .quiet { m with stack := stack }
    else
      f.advance?.bind fun ahead ↦
        { m with stack := m.stack.pop.push ahead.2 }.perform? (ahead.2.demand m.program ahead.1)

theorem dropExhausted?_eq (stack : Stack (Frame Env)) :
    dropExhausted? stack = some (dropExhausted stack) := by
  unfold dropExhausted? dropExhausted
  rcases htop : stack.top? with - | f
  · rfl
  · simp only [Stack.pop?_of_top? htop]
    split <;> rfl

theorem enter?_eq (m : Machine) (f : Frame Env) : m.enter? f = some (m.enter f) := by
  simp only [enter?, enter, dropExhausted?_eq, Option.map_some]
  split
  · rfl
  · rfl

theorem perform?_eq (m : Machine) (demand : Demand) :
    m.perform? demand = some (m.perform demand) := by
  cases demand with
  | enter f => exact m.enter?_eq f
  | _ => rfl

/-- **The machine never pops an empty stack and never advances a frame that has run out.** -/
theorem step?_eq (m : Machine) : m.step? = some m.step := by
  unfold step? step
  rcases htop : m.stack.top? with - | f
  · rfl
  · rcases hrest : f.rest with - | ⟨x, rest⟩
    · simp [Frame.exhausted, Frame.advance?, hrest, Stack.pop?_of_top? htop]
    · simp [Frame.exhausted, Frame.advance?, hrest, perform?_eq, runElement_eq_perform]

end Machine

/-! ### Failures of elements -/

/-- An evaluation failed for lack of room. -/
def Failure.IsRecursion : Failure → Prop
  | recursion _ _ => True
  | _ => False

theorem Env.not_isRecursion_of_lookup {e : Env} {name : String} {failure : Failure}
    (h : e.lookup name = .error failure) : ¬failure.IsRecursion := by
  rw [Env.lookup] at h
  rcases hfind : e.find? name with - | v <;> rw [hfind] at h
  · obtain rfl : .unboundParameter name = failure := by simpa using h
    exact id
  · simp at h

theorem Operand.not_isRecursion_of_value {e : Env} {o : Operand} {failure : Failure}
    (h : o.value e = .error (.failure failure)) : ¬failure.IsRecursion := by
  cases o with
  | literal n => simp [Operand.value] at h
  | parameter name =>
    rw [Operand.value] at h
    rcases hlookup : e.lookup name with failure' | n | ⟨body, captured⟩ <;> rw [hlookup] at h
    · obtain rfl : failure' = failure := by simpa using h
      exact Env.not_isRecursion_of_lookup hlookup
    · simp at h
    · obtain rfl : .sequenceInArithmetic name (Element.renderSequence body) = failure := by
        simpa using h
      exact id
  | blank => simp [Operand.value] at h

theorem Term.not_isRecursion_of_sum {e : Env} {terms : List Term} {before : Int}
    {failure : Failure} (h : Term.sum e before terms = .error (.failure failure)) :
    ¬failure.IsRecursion := by
  induction terms generalizing before with
  | nil => simp [Term.sum] at h
  | cons t rest ih =>
    rw [Term.sum] at h
    rcases hvalue : t.operand.value e with cause | n <;> rw [hvalue] at h
    · obtain rfl : cause = .failure failure := by simpa using h
      exact Operand.not_isRecursion_of_value hvalue
    · exact ih h

theorem Argument.not_isRecursion_of_value {e : Env} {a : Argument} {failure : Failure}
    (h : a.value e = .error (.failure failure)) : ¬failure.IsRecursion := by
  cases a with
  | parameter name span =>
    rw [Argument.value] at h
    rcases hlookup : e.lookup name with failure' | v <;> rw [hlookup] at h
    · obtain rfl : failure' = failure := by simpa using h
      exact Env.not_isRecursion_of_lookup hlookup
    · simp at h
  | quoted body span => simp [Argument.value] at h
  | arithmetic sum =>
    rw [Argument.value] at h
    rcases hsum : Term.sum e 0 sum.terms with cause | n <;> rw [hsum] at h
    · obtain rfl : cause = .failure failure := by simpa using h
      exact Term.not_isRecursion_of_sum hsum
    · simp at h

theorem Argument.not_isRecursion_of_bindAll {e : Env} {target : Scope Env} {names : List String}
    {args : List Argument} {failure : Failure}
    (h : Argument.bindAll e target names args = .error (.failure failure)) :
    ¬failure.IsRecursion := by
  induction names generalizing args target with
  | nil => simp [Argument.bindAll] at h
  | cons name names ih =>
    rcases args with - | ⟨a, args⟩
    · simp [Argument.bindAll] at h
    rw [Argument.bindAll] at h
    rcases hvalue : a.value e with cause | v <;> rw [hvalue] at h
    · obtain rfl : cause = .failure failure := by simpa using h
      exact Argument.not_isRecursion_of_value hvalue
    · by_cases hzero : v.isZero = true
      · simp [hzero] at h
      · exact ih (by simpa [hzero] using h)

/-- **No element fails for lack of room.** -/
theorem Frame.not_isRecursion_of_demand {p : Program} {f : Frame Env} {x : Element}
    {failure : Failure} (h : f.demand p x = .fail failure) : ¬failure.IsRecursion := by
  cases x with
  | command c span => simp [demand] at h
  | parameter name span =>
    rw [demand] at h
    rcases hlookup : f.scope.lookup name with failure' | n | ⟨body, captured⟩ <;>
      rw [hlookup] at h
    · obtain rfl : failure' = failure := by simpa using h
      exact Env.not_isRecursion_of_lookup hlookup
    · by_cases hsole : f.sole = true
      · simp [hsole] at h
      · obtain rfl : .numberAmongStatements name n = failure := by simpa [hsole] using h
        exact id
    · simp at h
  | call callee args span =>
    rw [demand] at h
    rcases hfind : p.find? callee with - | d <;> rw [hfind] at h
    · obtain rfl : .missingProcedure callee = failure := by simpa using h
      exact id
    by_cases hlength : args.length = d.params.length
    · simp only [hlength, ne_eq, not_true_eq_false, if_false] at h
      rcases hbind : Argument.bindAll f.scope (Scope.empty (.ofString d.name)) d.params args with
        (failure' | -) | (- | scope) <;> rw [hbind] at h
      · obtain rfl : failure' = failure := by simpa using h
        exact Argument.not_isRecursion_of_bindAll hbind
      all_goals simp at h
    · obtain rfl : .arity d.name d.params.length args.length = failure := by
        simpa [hlength] using h
      exact id

namespace Machine

/-! ### One step -/

/-- **All that a step can come to.** The stack moves on and the counter stays or starts anew; a
frame is entered within the limits; an element fails; or the frame that it asks for is one too many
for the counter, or for the stack. -/
theorem step_account (m : Machine) :
    (m.step.machine.stack.items = m.moved.stack.items ∧ m.step.machine.failure = m.failure ∧
      (m.step.machine.silent = m.silent ∨ m.step.machine.silent = 0)) ∨
    (∃ f, m.demand = .enter f ∧ m.silent + 1 ≤ m.limits.silent ∧
      (dropExhausted m.moved.stack).size < m.limits.depth.toInt ∧
      m.step.machine = m.moved.entered f) ∨
    (∃ failure, m.demand = .fail failure ∧ m.step.machine = m.moved.fail failure) ∨
    (∃ f depth, m.demand = .enter f ∧
      m.step.machine =
        { m.moved with silent := m.silent + 1 }.fail (.recursion depth (m.silent + 1)) ∧
      (m.limits.silent < m.silent + 1 ∧ depth = m.moved.stack.size ∨
        m.silent + 1 ≤ m.limits.silent ∧
          m.limits.depth.toInt ≤ (dropExhausted m.moved.stack).size ∧
          depth = (dropExhausted m.moved.stack).size)) := by
  rw [step_eq_perform]
  rcases hd : m.demand with - | - | - | a | f | failure | -
  case enter =>
    rw [← moved_limits m, ← moved_silent m]
    rcases m.moved.enter_cases f with ⟨hs, he⟩ | ⟨hs, hsize, he⟩ | ⟨hs, hsize, he⟩
    · exact Or.inr (Or.inr (Or.inr ⟨f, _, rfl, by rw [perform, he]; rfl, Or.inl ⟨hs, rfl⟩⟩))
    · exact Or.inr (Or.inr (Or.inr ⟨f, _, rfl, by rw [perform, he]; rfl,
        Or.inr ⟨hs, hsize, rfl⟩⟩))
    · exact Or.inr (Or.inl ⟨f, rfl, hs, hsize, by rw [perform, he]; rfl⟩)
  case fail => exact Or.inr (Or.inr (Or.inl ⟨failure, rfl, rfl⟩))
  case deliver => exact Or.inl ⟨rfl, moved_failure m, Or.inr rfl⟩
  all_goals exact Or.inl ⟨rfl, moved_failure m, Or.inl (moved_silent m)⟩

/-- What fails in a step is an element, and not for lack of room. -/
theorem not_isRecursion_of_demand {m : Machine} {failure : Failure} (h : m.demand = .fail failure) :
    ¬failure.IsRecursion := by
  obtain ⟨f, -, x, g, -, hdemand⟩ := exists_of_demand (m := m) (by simp [h]) (by simp [h])
  exact Frame.not_isRecursion_of_demand (hdemand.symm.trans h)

/-- Moving on leaves no frame waiting that did not wait before. -/
theorem tail_moved_subset (m : Machine) :
    m.moved.stack.items.tail ⊆ m.stack.items.tail := by
  rcases hitems : m.stack.items with - | ⟨f, below⟩
  · rw [moved_of_nil hitems, hitems]
    exact List.Subset.refl _
  · rcases hrest : f.rest with - | ⟨x, rest⟩
    · rw [items_moved_of_exhausted hitems hrest]
      exact List.tail_subset below
    · rw [items_moved_of_cons hitems hrest]
      exact List.Subset.refl _

theorem size_moved_le (m : Machine) : m.moved.stack.size ≤ m.stack.size := by
  rw [Stack.size_eq, Stack.size_eq]
  rcases hitems : m.stack.items with - | ⟨f, below⟩
  · rw [moved_of_nil hitems, hitems]
  · rcases hrest : f.rest with - | ⟨x, rest⟩
    · rw [items_moved_of_exhausted hitems hrest]
      exact Nat.le_succ _
    · rw [items_moved_of_cons hitems hrest]
      exact Nat.le_refl _

theorem size_dropExhausted_le (stack : Stack (Frame Env)) :
    (dropExhausted stack).size ≤ stack.size := by
  unfold dropExhausted
  split
  · exact Nat.le_refl _
  · split
    · exact Nat.sub_le _ _
    · exact Nat.le_refl _

/-- If no frame below the top has run out, then none has once the top was dropped. -/
theorem exhausted_of_mem_dropExhausted {stack : Stack (Frame Env)}
    (htail : ∀ f ∈ stack.items.tail, f.exhausted = false) {f : Frame Env}
    (hf : f ∈ (dropExhausted stack).items) : f.exhausted = false := by
  unfold dropExhausted at hf
  split at hf
  · next htop =>
    rw [Stack.top?, List.head?_eq_none_iff] at htop
    simp [htop] at hf
  · next top htop =>
    obtain ⟨below, hitems⟩ : ∃ below, stack.items = top :: below := by
      simpa [Stack.top?, List.head?_eq_some_iff] using htop
    rw [hitems, List.tail_cons] at htail
    split at hf
    · rw [Stack.items_pop, hitems] at hf
      exact htail f hf
    · next hlive =>
      rw [hitems] at hf
      rcases List.mem_cons.1 hf with rfl | hbelow
      · simpa using hlive
      · exact htail f hbelow

/-! ### Runs -/

/-- What the limits and the order of the stack come to, between any two steps. -/
structure Orderly (m : Machine) : Prop where
  effective : m.limits.Effective
  size_le : m.stack.size ≤ m.limits.depth.toInt
  /-- A frame below the top has something left to run. -/
  awaiting : ∀ f ∈ m.stack.items.tail, f.exhausted = false
  /-- A failure leaves nothing on the stack. -/
  ended : m.failure ≠ none → m.stack.items = []
  silent_le : m.failure = none → m.silent ≤ m.limits.silent
  /-- Below the largest limit the counter does not wrap around. -/
  silent_nonneg : m.limits.silent < Int64.maxValue → m.failure = none → 0 ≤ m.silent
  recursion : ∀ depth calls, m.failure = some (.recursion depth calls) →
    calls.toInt = m.limits.silent.toInt + 1 ∨
      depth = m.limits.depth.toInt ∧ calls ≤ m.limits.silent

variable {p : Program} {limits : Limits} {m : Machine}

/-- While anything is asked for there was no failure. -/
theorem Orderly.failure_of_demand (h : m.Orderly) (hd : m.demand ≠ .finish) : m.failure = none := by
  by_contra hfailure
  exact hd (demand_of_nil (h.ended hfailure))

/-- A machine that has failed is in order if its failure is. -/
theorem Orderly.of_failed {e : Failure} (heffective : m.limits.Effective)
    (hitems : m.stack.items = []) (hfailure : m.failure = some e)
    (hrecursion : ∀ depth calls, e = .recursion depth calls →
      calls.toInt = m.limits.silent.toInt + 1 ∨
        depth = m.limits.depth.toInt ∧ calls ≤ m.limits.silent) : m.Orderly where
  effective := heffective
  size_le := by
    have hdepth := Int64.lt_iff_toInt_lt.1 (Limits.effective_iff.1 heffective).1
    rw [Stack.size_eq, hitems]
    exact Int.le_of_lt hdepth
  awaiting := by simp [hitems]
  ended _ := hitems
  silent_le := by simp [hfailure]
  silent_nonneg := by simp [hfailure]
  recursion depth calls h := hrecursion depth calls (Option.some.inj (hfailure.symm.trans h))

/-- The counter goes past its limit by one. -/
theorem toInt_of_limit_lt {limit silent : Int64} (hle : silent ≤ limit) (h : limit < silent + 1) :
    (silent + 1).toInt = limit.toInt + 1 := by
  rcases eq_or_ne silent Int64.maxValue with rfl | hne
  · rw [maxValue_add_one] at h
    exact absurd (Int64.minValue_le limit) (Int64.not_le.2 h)
  · rw [Int64.le_iff_toInt_le] at hle
    rw [Int64.lt_iff_toInt_lt, toInt_add_one hne] at h
    rw [toInt_add_one hne]
    omega

theorem Orderly.awaiting_moved (h : m.Orderly) :
    ∀ f ∈ m.moved.stack.items.tail, f.exhausted = false :=
  fun f hf ↦ h.awaiting f (m.tail_moved_subset hf)

/-- The stack moves on, and the counter stays or starts anew. -/
theorem Orderly.of_moved {m' : Machine} (h : m.Orderly) (hlimits : m'.limits = m.limits)
    (hitems : m'.stack.items = m.moved.stack.items) (hfailure : m'.failure = m.failure)
    (hsilent : m'.silent = m.silent ∨ m'.silent = 0) : m'.Orderly where
  effective := hlimits ▸ h.effective
  size_le := by
    have hsize := m.size_moved_le
    have hbelow := h.size_le
    rw [hlimits, Stack.size_eq, hitems, ← Stack.size_eq]
    omega
  awaiting := hitems ▸ h.awaiting_moved
  ended hne := by
    have hnil := h.ended (hfailure ▸ hne)
    rw [hitems, moved_of_nil hnil, hnil]
  silent_le hnone := by
    rw [hlimits]
    rcases hsilent with hsame | hzero
    · exact hsame ▸ h.silent_le (hfailure ▸ hnone)
    · exact hzero ▸ Int64.le_of_lt (Limits.effective_iff.1 h.effective).2
  silent_nonneg hlimit hnone := by
    rcases hsilent with hsame | hzero
    · exact hsame ▸ h.silent_nonneg (hlimits ▸ hlimit) (hfailure ▸ hnone)
    · exact hzero ▸ Int64.le_refl 0
  recursion depth calls hr := by
    rw [hlimits]
    exact h.recursion depth calls (hfailure ▸ hr)

/-- A frame is entered for which there is room. -/
theorem Orderly.entered (h : m.Orderly) {f : Frame Env} (hd : m.demand = .enter f)
    (hs : m.silent + 1 ≤ m.limits.silent)
    (hroom : (dropExhausted m.moved.stack).size < m.limits.depth.toInt) :
    (m.moved.entered f).Orderly := by
  have hnone : m.failure = none := h.failure_of_demand (by simp [hd])
  have hsame : (m.moved.entered f).failure = none := (moved_failure m).trans hnone
  have hlimits : (m.moved.entered f).limits = m.limits := moved_limits m
  have hcounted : (m.moved.entered f).silent = m.silent + 1 := by rw [Machine.entered, moved_silent]
  refine ⟨hlimits ▸ h.effective, ?_, fun g hg ↦ exhausted_of_mem_dropExhausted h.awaiting_moved hg,
    by simp [hsame], fun _ ↦ ?_, fun hlimit _ ↦ ?_, by simp [hsame]⟩
  · show ((dropExhausted m.moved.stack).size + 1 : Nat) ≤ (m.moved.entered f).limits.depth.toInt
    rw [hlimits]
    omega
  · rwa [hcounted, hlimits]
  · rw [hlimits] at hlimit
    have hlow := Int64.le_iff_toInt_le.1 (h.silent_nonneg hlimit hnone)
    have hne : m.silent ≠ Int64.maxValue :=
      Int64.ne_of_lt (Int64.lt_of_le_of_lt (h.silent_le hnone) hlimit)
    rw [hcounted, Int64.le_iff_toInt_le, toInt_add_one hne]
    rw [Int64.toInt_zero] at hlow ⊢
    omega

/-- **A step keeps the stack in order and within its limits.** -/
theorem Orderly.step (h : m.Orderly) : m.step.machine.Orderly := by
  have hlimits := m.step_machine_limits
  have heffective : m.step.machine.limits.Effective := hlimits ▸ h.effective
  rcases m.step_account with ⟨hitems, hfailure, hsilent⟩ | ⟨f, hd, hs, hroom, heq⟩ |
    ⟨failure, hd, heq⟩ | ⟨f, depth, hd, heq, hcause⟩
  · exact h.of_moved hlimits hitems hfailure hsilent
  · exact heq ▸ h.entered hd hs hroom
  · -- an element fails, which is never for lack of room
    refine .of_failed heffective (by rw [heq]; rfl) (by rw [heq]; rfl) fun depth calls hr ↦ ?_
    subst hr
    exact absurd trivial (not_isRecursion_of_demand hd)
  · -- a frame too many: the counter is past its limit by one, or the stack is full
    have hsilent := h.silent_le (h.failure_of_demand (by simp [hd]))
    have hdropped := size_dropExhausted_le m.moved.stack
    have hmoved := m.size_moved_le
    have hbelow := h.size_le
    refine .of_failed heffective (by rw [heq]; rfl) (by rw [heq]; rfl) fun depth' calls hr ↦ ?_
    obtain ⟨rfl, rfl⟩ : depth = depth' ∧ m.silent + 1 = calls := by simpa using hr
    rw [hlimits]
    rcases hcause with ⟨hs, -⟩ | ⟨hs, hfull, rfl⟩
    · exact Or.inl (toInt_of_limit_lt hsilent hs)
    · exact Or.inr ⟨by omega, hs⟩

theorem orderly_start (p : Program) (hlimits : limits.Effective) : (start p limits).Orderly where
  effective := hlimits
  size_le := Int64.lt_iff_toInt_lt.1 (Limits.effective_iff.1 hlimits).1
  awaiting := by simp [start]
  ended := by simp [start]
  silent_le _ := Int64.le_of_lt (Limits.effective_iff.1 hlimits).2
  silent_nonneg _ _ := Int64.le_refl 0
  recursion := by simp [start]

theorem Orderly.abandon (h : m.Orderly) : m.abandon.Orderly where
  effective := h.effective
  size_le := Int.le_of_lt (Int64.lt_iff_toInt_lt.1 (Limits.effective_iff.1 h.effective).1)
  awaiting := by simp [Machine.abandon]
  ended _ := rfl
  silent_le := h.silent_le
  silent_nonneg := h.silent_nonneg
  recursion := h.recursion

theorem Reachable.orderly (hlimits : limits.Effective) (hm : Reachable p limits m) :
    m.Orderly := by
  induction hm with
  | start => exact orderly_start p hlimits
  | step _ ih => exact ih.step
  | abandon _ ih => exact ih.abandon

/-- **The stack stays within its limits and is never misused.** Of any program and under any limits
in effect, in every state that an evaluation can come to, within a request too: the stack holds no
more frames than the limit on its size admits; each of them is at some place of a sequence of the
program, and all but the topmost one have something left to run; no empty stack is popped and no
frame advanced that has run out, so that a request to a program without blanks does not get stuck;
as long as there was no failure, the frames entered for one action are within their limit; and a
recursion error reports one frame too many for one action, or a full stack. -/
theorem stack_within_limits (hlimits : limits.Effective) (hm : Reachable p limits m) :
    m.stack.size ≤ limits.depth.toInt ∧
    (∀ f ∈ m.stack.items, ∃ seq ∈ p.sequences,
      f.passed ≤ seq.length ∧ f.rest = seq.drop f.passed) ∧
    (∀ f ∈ m.stack.items.tail, f.exhausted = false) ∧
    m.step? = some m.step ∧
    (p.Filled → ∀ m', m.next ≠ some (.stuck, m')) ∧
    (m.failure = none → m.silent ≤ limits.silent) ∧
    (∀ depth calls, m.failure = some (.recursion depth calls) →
      calls.toInt = limits.silent.toInt + 1 ∨
        depth = limits.depth.toInt ∧ calls ≤ limits.silent) := by
  have horderly := hm.orderly hlimits
  obtain rfl := hm.limits_eq
  refine ⟨horderly.size_le, fun f hf ↦ ?_, horderly.awaiting, m.step?_eq,
    fun hp ↦ hm.next_ne_stuck hp, horderly.silent_le, horderly.recursion⟩
  obtain ⟨seq, hseq, hruns⟩ := hm.runs hf
  exact ⟨seq, hseq, hruns.passed_le, hruns.rest_eq⟩

/-- The descent of `descent` behind three steps: one call waits for the next one. -/
def descending : Machine := (start descent ⟨2, 9⟩).step.machine.step.machine.step.machine

/-- With room for two frames the stack is full there, the frame below has an action left, and the
next step ends with a recursion error that reports two frames. -/
theorem descending_within_limits : Limits.Effective ⟨2, 9⟩ ∧ Reachable descent ⟨2, 9⟩ descending ∧
    descent.Filled ∧ descending.stack.size = 2 ∧
    (∀ f ∈ descending.stack.items, ∃ seq ∈ descent.sequences,
      f.passed ≤ seq.length ∧ f.rest = seq.drop f.passed) ∧
    (∀ f ∈ descending.stack.items.tail, f.exhausted = false) ∧
    descending.step? = some descending.step ∧ (∀ m', descending.next ≠ some (.stuck, m')) ∧
    descending.failure = none ∧ descending.silent ≤ 9 ∧
    ∃ (depth : Nat) (calls : Int64),
      descending.step.machine.failure = some (.recursion depth calls) ∧
      (calls.toInt = (9 : Int64).toInt + 1 ∨ depth = (2 : Int64).toInt ∧ calls ≤ 9) := by
  have hlimits : Limits.Effective ⟨2, 9⟩ := Limits.effective_iff.2 (by decide)
  have hm : Reachable descent ⟨2, 9⟩ descending := Reachable.start.step.step.step
  have hfilled : descent.Filled := by decide
  have hsize : descending.stack.size = 2 := by cbv
  have hnone : descending.failure = none := by cbv
  have hover : descending.step.machine.failure = some (.recursion 2 3) := by cbv
  obtain ⟨-, hplaced, hawaiting, hstep, hstuck, hsilent, -⟩ := stack_within_limits hlimits hm
  obtain ⟨-, -, -, -, -, -, hrecursion⟩ := stack_within_limits hlimits hm.step
  exact ⟨hlimits, hm, hfilled, hsize, hplaced, hawaiting, hstep, hstuck hfilled, hnone,
    hsilent hnone, 2, 3, hover, hrecursion 2 3 hover⟩

/-- The program `a(A):A` with the main block `a()s`, where the argument is a sum with a blank
operand. -/
def blankCall : Program where
  definitions := [⟨"a", ["A"], [.parameter "A" .null], .null⟩]
  main := [.call "a" [.arithmetic ⟨false, [⟨false, .blank⟩], .null⟩] .null,
    .command .forward .null]

/-- A blank operand leaves a request unanswered, whatever the state of the stack. -/
theorem blankCall_stuck : ¬∀ (p : Program) (limits : Limits) (m : Machine), limits.Effective →
    Reachable p limits m → ∀ m', m.next ≠ some (.stuck, m') := by
  intro h
  have hstuck : (start blankCall .standard).next.map Prod.fst = some .stuck := by cbv
  obtain ⟨⟨reply, m'⟩, hnext, rfl⟩ := Option.map_eq_some_iff.1 hstuck
  exact h blankCall .standard _ .standard .start m' hnext

end Machine

end RobotGolf
