import RobotGolf.Proofs.StackDiscipline
/-!
# Requests that are never answered

Below the largest limit on frames for one action every request is answered
(`Machine.exists_answered`). Under the largest one the counter is never past its limit: it goes on
with the smallest number, and nothing is left to stop a program that enters frames for ever and
keeps the stack small. `selfCall_unanswered` is such a program.

What a machine would do without any limits is said by `onward?`, which takes a quiet step wherever
the limits alone could prevent it. A machine **descends** if this can be repeated without end. A
request that is never answered is one of a machine that descends (`descends_of_next_eq_none`), and
if the request of such a machine is answered at all, then it is by a recursion error
(`Answered.recursion_of_descends`). So the limits are all that stands between a descent and a
request without an answer, and `request_answered` says how far they go.
-/

namespace RobotGolf

namespace Machine

variable {p : Program} {limits : Limits} {m m' : Machine} {r : Reply × Machine}

/-! ### Descending without limits -/

/-- A quiet step that no limit prevents. -/
def onward? (m : Machine) : Option Machine :=
  match m.demand with
  | .leave => some m.moved
  | .skip => some m.moved
  | .enter f => some (m.moved.entered f)
  | _ => none

/-- Several of them. -/
def onwards? (m : Machine) : Nat → Option Machine
  | 0 => some m
  | k + 1 => m.onward?.bind (·.onwards? k)

/-- The machine would go on for ever without an action, if only its limits let it. -/
def Descends (m : Machine) : Prop := ∀ k, (m.onwards? k).isSome

/-- What the limits admit is not prevented by them. -/
theorem onward?_of_quiet (h : m.step = .quiet m') : m.onward? = some m' := by
  rcases quiet_cases h with ⟨hd, rfl⟩ | ⟨hd, rfl⟩ | ⟨f, hd, -, -, rfl⟩ <;> rw [onward?, hd]

theorem onwards?_of_loop {k : Nat} (h : m.loop k = .quiet m') : m.onwards? k = some m' := by
  induction k generalizing m with
  | zero =>
    obtain rfl : m = m' := by simpa [loop] using h
    rfl
  | succ k ih =>
    rcases hstep : m.step with m₁ | ⟨a, m₁⟩ | m₁ | m₁
    · rw [loop_succ_of_quiet hstep] at h
      rw [onwards?, onward?_of_quiet hstep, Option.bind_some, ih h]
    all_goals simp [loop, hstep] at h

/-- **A request that is never answered is a descent.** -/
theorem descends_of_next_eq_none (h : m.next = none) : m.Descends := by
  intro k
  obtain ⟨m', hloop⟩ := next_eq_none_iff.1 h k
  rw [onwards?_of_loop hloop]
  rfl

theorem Descends.of_quiet (hm : m.Descends) (h : m.step = .quiet m') : m'.Descends := by
  intro k
  have hk := hm (k + 1)
  rwa [onwards?, onward?_of_quiet h, Option.bind_some] at hk

/-- A step that the limits alone can prevent is quiet, or else it ends with a recursion error. -/
theorem step_of_onward? (h : m.onward? = some m') : m.step = .quiet m' ∨
    ∃ m₁ depth calls, m.step = .ended m₁ ∧ m₁.failure = some (.recursion depth calls) := by
  rw [step_eq_perform]
  rcases hd : m.demand with - | - | - | a | f | failure | - <;> rw [onward?, hd] at h <;>
    simp only [Option.some.injEq, reduceCtorEq] at h <;> subst h
  · exact Or.inl rfl
  · exact Or.inl rfl
  · rcases m.moved.enter_cases f with ⟨-, he⟩ | ⟨-, -, he⟩ | ⟨-, -, he⟩
    · exact Or.inr ⟨_, _, _, he, rfl⟩
    · exact Or.inr ⟨_, _, _, he, rfl⟩
    · exact Or.inl he

/-- **A descent is stopped by nothing but its limits**: the answer is a recursion error, if there is
one. -/
theorem Answered.recursion_of_descends (h : m.Answered r) (hm : m.Descends) :
    r.1 = .ended ∧ ∃ depth calls, r.2.failure = some (.recursion depth calls) := by
  -- in front of the answer the descent goes on, so the last step could have been quiet
  have hlast : ∀ m : Machine, m.Descends → ∃ m', m.onward? = some m' := by
    intro m hm
    simpa [onwards?, Option.isSome_iff_exists] using hm 1
  induction h with
  | quiet hstep _ ih => exact ih (hm.of_quiet hstep)
  | action hstep =>
    obtain ⟨m₁, hm₁⟩ := hlast _ hm
    rcases step_of_onward? hm₁ with hquiet | ⟨m₂, depth, calls, hended, -⟩ <;> simp_all
  | ended hstep =>
    obtain ⟨m₁, hm₁⟩ := hlast _ hm
    rcases step_of_onward? hm₁ with hquiet | ⟨m₂, depth, calls, hended, hfailure⟩
    · simp_all
    · obtain rfl : _ = m₂ := by simpa [hstep] using hended
      exact ⟨rfl, depth, calls, hfailure⟩
  | stuck hstep =>
    obtain ⟨m₁, hm₁⟩ := hlast _ hm
    rcases step_of_onward? hm₁ with hquiet | ⟨m₂, depth, calls, hended, -⟩ <;> simp_all

/-! ### How far the limits go -/

/-- A machine that has nothing on its stack tries to enter no frame. -/
theorem attempts_of_nil (h : m.stack.items = []) (k : Nat) : m.attempts k = 0 := by
  have hstep : m.step = .ended m := by rw [step_eq_perform, demand_of_nil h, moved_of_nil h]; rfl
  cases k with
  | zero => rfl
  | succ k => simp [attempts, demand_of_nil h, hstep, Demand.entries]

/-- If the counter is not negative, there is room for no more frames than the limit says. -/
theorem Orderly.room_le (h : m.Orderly) (hlimit : m.limits.silent < Int64.maxValue)
    (hnone : m.failure = none) : (m.room : Int) ≤ m.limits.silent.toInt := by
  have hlow : 0 ≤ m.silent.toBitVec.toInt :=
    Int64.le_iff_toInt_le.1 (h.silent_nonneg hlimit hnone)
  have hhigh : m.silent.toBitVec.toInt ≤ m.limits.silent.toBitVec.toInt :=
    Int64.le_iff_toInt_le.1 (h.silent_le hnone)
  show ((m.limits.silent - m.silent).toBitVec.toNat : Int) ≤ m.limits.silent.toBitVec.toInt
  rw [BitVec.toInt_eq_toNat_cond] at hlow
  rw [BitVec.toInt_eq_toNat_cond, BitVec.toInt_eq_toNat_cond] at hhigh
  rw [BitVec.toInt_eq_toNat_cond, Int64.toBitVec_sub, BitVec.toNat_sub]
  omega

/-- Between two actions at most one frame more is attempted to be entered than the limit says. -/
theorem Orderly.attempts_le_limit (h : m.Orderly) (hlimit : m.limits.silent < Int64.maxValue)
    (k : Nat) : (m.attempts k : Int) ≤ m.limits.silent.toInt + 1 := by
  by_cases hnone : m.failure = none
  · have hattempts := attempts_le hlimit k
    have hroom := h.room_le hlimit hnone
    omega
  · rw [attempts_of_nil (h.ended hnone)]
    have hpositive := Int64.lt_iff_toInt_lt.1 (Limits.effective_iff.1 h.effective).2
    rw [Int64.toInt_zero] at hpositive
    omega

/-- **Requests are answered below the largest limit.** Of any program and under any limits in
effect, in every state that an evaluation can come to: the result of a request is what the last one
of finitely many iterations comes to. If the limit on frames for one action is not the largest one,
then quiet iterations are well-founded, every request has a result, and it tries to enter at most
one frame more than the limit says. A request to a program without blanks does not get stuck, so
that its result is an action or the end. A machine that would descend for ever without an action
ends with a recursion error, if its request has a result at all. One that has none is that of a
machine which descends for ever, under the largest limit. -/
theorem request_answered (hlimits : limits.Effective) (hm : Reachable p limits m) :
    (∀ r, m.next = some r ↔ ∃ k, (m.loop k).answer? = some r) ∧
    (limits.silent < Int64.maxValue →
      (WellFounded fun m₂ m₁ : Machine ↦ m₁.limits = limits ∧ m₁.step = .quiet m₂) ∧
      (∃ r, m.next = some r) ∧ ∀ k, (m.attempts k : Int) ≤ limits.silent.toInt + 1) ∧
    (p.Filled → ∀ r, m.next = some r → (∃ a, r.1 = .action a) ∨ r.1 = .ended) ∧
    (m.Descends → ∀ r, m.next = some r →
      r.1 = .ended ∧ ∃ depth calls, r.2.failure = some (.recursion depth calls)) ∧
    (m.next = none → limits.silent = Int64.maxValue ∧ m.Descends) := by
  have horderly := hm.orderly hlimits
  obtain rfl := hm.limits_eq
  refine ⟨fun r ↦ next_eq_some_iff_exists_loop, fun hlimit ↦ ⟨?_, ?_, ?_⟩, fun hp r hr ↦ ?_,
    fun hdescends r hr ↦ (next_eq_some_iff.1 hr).recursion_of_descends hdescends,
    fun hnone ↦ ⟨silent_of_next_eq_none hnone, descends_of_next_eq_none hnone⟩⟩
  · exact Subrelation.wf (fun h ↦ ⟨h.1 ▸ hlimit, h.2⟩) wellFounded_quiet
  · exact Option.ne_none_iff_exists'.1 (next_ne_none hlimit)
  · exact horderly.attempts_le_limit hlimit
  · rcases r with ⟨a | - | -, m'⟩
    · exact Or.inl ⟨a, rfl⟩
    · exact Or.inr rfl
    · exact absurd hr (hm.next_ne_stuck hp m')

/-! ### A program that calls itself -/

/-- The program `a:a` with the main block `a`, which does nothing but call itself. -/
def selfCall : Program := ⟨[⟨"a", [], [.call "a" [] .null], .null⟩], [.call "a" [] .null]⟩

/-- The frame that the call enters. -/
def selfFrame : Frame Env :=
  Frame.enter "a" [.call "a" [] .null] (.mk (Scope.empty (.ofString "a")))

/-- In front of the call there is one frame on the stack, with nothing left to run behind it. -/
structure Calling (m : Machine) : Prop where
  program : m.program = selfCall
  frame : ∃ f : Frame Env, m.stack.items = [f] ∧ f.rest = [.call "a" [] .null]

theorem Calling.demand (h : m.Calling) : m.demand = .enter selfFrame := by
  obtain ⟨f, hitems, hrest⟩ := h.frame
  rw [demand_of_cons hitems hrest, h.program]
  rfl

/-- The frame that calls has run out and is dropped. -/
theorem Calling.dropExhausted (h : m.Calling) : dropExhausted m.moved.stack = Stack.empty := by
  obtain ⟨f, hitems, hrest⟩ := h.frame
  have hmoved := items_moved_of_cons hitems hrest
  exact Stack.ext_items (by simp [Machine.dropExhausted, Stack.top?, hmoved, Frame.exhausted])

theorem Calling.entered (h : m.Calling) : (m.moved.entered selfFrame).Calling where
  program := (moved_program m).trans h.program
  frame := ⟨selfFrame, by simp [Machine.entered, h.dropExhausted], rfl⟩

/-- The call is made again and again. -/
theorem Calling.descends (h : m.Calling) : m.Descends := by
  intro k
  induction k generalizing m with
  | zero => rfl
  | succ k ih =>
    rw [onwards?, onward?, h.demand]
    exact ih h.entered

/-- Under the largest limit on frames for one action nothing stops it: one frame is enough. -/
theorem Calling.next_eq_none (h : m.Calling) (hdepth : 0 < m.limits.depth)
    (hlargest : m.limits.silent = Int64.maxValue) : m.next = none := by
  refine next_eq_none_iff.2 fun k ↦ ?_
  induction k generalizing m with
  | zero => exact ⟨m, rfl⟩
  | succ k ih =>
    have hstep : m.step = .quiet (m.moved.entered selfFrame) := by
      rw [step_eq_perform, h.demand]
      rcases m.moved.enter_cases selfFrame with ⟨hs, -⟩ | ⟨-, hs, -⟩ | ⟨-, -, he⟩
      · rw [moved_limits, hlargest] at hs
        exact absurd (Int64.le_maxValue _) (Int64.not_le.2 hs)
      · rw [h.dropExhausted, moved_limits] at hs
        exact absurd (Int64.lt_iff_toInt_lt.1 hdepth) (Int.not_lt.2 hs)
      · exact he
    rw [loop_succ_of_quiet hstep]
    exact ih h.entered (by simpa [Machine.entered] using hdepth)
      (by simpa [Machine.entered] using hlargest)

theorem calling_start (limits : Limits) : (start selfCall limits).Calling where
  program := rfl
  frame := ⟨_, rfl, rfl⟩

/-- **Not every request is answered.** The limits are in effect and the program has no blanks. -/
theorem selfCall_unanswered : Limits.Effective ⟨1000, Int64.maxValue⟩ ∧ selfCall.Filled ∧
    (start selfCall ⟨1000, Int64.maxValue⟩).next = none :=
  ⟨Limits.effective_iff.2 (by decide), by decide,
    (calling_start _).next_eq_none (by decide) rfl⟩

/-- Under the standard limits the program that only calls itself ends with a recursion error. -/
theorem selfCall_stopped : Limits.standard.Effective ∧ selfCall.Filled ∧
    (start selfCall Limits.standard).Descends ∧
    ∃ m' depth calls, (start selfCall Limits.standard).next = some (.ended, m') ∧
      m'.failure = some (.recursion depth calls) := by
  have hdescends : (start selfCall Limits.standard).Descends := (calling_start _).descends
  obtain ⟨-, hbelow, -, hrecursion, -⟩ :=
    request_answered Limits.Effective.standard (Reachable.start (p := selfCall))
  obtain ⟨-, ⟨⟨reply, m'⟩, hnext⟩, -⟩ := hbelow (by decide)
  obtain ⟨hended, depth, calls, hfailure⟩ := hrecursion hdescends _ hnext
  obtain rfl : reply = .ended := hended
  exact ⟨.standard, by decide, hdescends, m', depth, calls, hnext, hfailure⟩

end Machine

end RobotGolf
