import RobotGolf.Proofs.Step
import RobotGolf.Proofs.Words
/-!
# Which requests are answered

A request repeats `Machine.step` until the machine delivers an action, comes to its end or is
stuck. `Machine.loop` is this repetition cut off after a number of iterations, and `Answered` says
without a number that one of them is the last. A request has a result if and only if it is answered
in this sense (`next_eq_some_iff`), and then results are followed by induction on the quiet steps in
front of them.

## When a request is answered

Every quiet step enters a frame, or makes the frames on the stack shorter. Frames are counted in a
machine word, so there is no order in general in which quiet steps go down: a count that has reached
the largest number goes on with the smallest one. Below the largest limit it does not get that far.
The number of frames that may still be entered (`room`) is then the distance of the count from the
limit, taken the way that the count goes, and it goes down with every frame (`room_entered`).

* The repetition comes to an end below the largest limit (`exists_answered`) because quiet steps go
  down in `Sooner`, a lexicographic order: the frames that may still be entered come first, the
  elements left on the whole stack second. Neither alone would do. Entering a frame puts any number
  of elements on the stack, and leaving one or skipping a call does not touch the counter.
* The number of attempts to enter a frame is bounded by the first component alone (`attempts_le`).

Nothing here supposes that the machine can be reached from the start of an evaluation.
-/

namespace RobotGolf

/-- What an outcome comes to for a request; nothing as long as the machine is quiet. -/
def Outcome.answer? : Outcome → Option (Machine.Reply × Machine)
  | quiet _ => none
  | action a m => some (.action a, m)
  | ended m => some (.ended, m)
  | stuck m => some (.stuck, m)

/-- How many frames a demand tries to enter. -/
def Demand.entries : Demand → Nat
  | enter _ => 1
  | _ => 0

namespace Machine

variable {m m' : Machine} {r : Reply × Machine}

/-! ### Requests with a result -/

/-- A step that is not quiet comes behind finitely many that are. -/
inductive Answered : Machine → Reply × Machine → Prop where
  | quiet {m m' : Machine} {r : Reply × Machine} (hstep : m.step = .quiet m')
      (h : Answered m' r) : Answered m r
  | action {m m' : Machine} {a : Action} (hstep : m.step = .action a m') :
      Answered m (.action a, m')
  | ended {m m' : Machine} (hstep : m.step = .ended m') : Answered m (.ended, m')
  | stuck {m m' : Machine} (hstep : m.step = .stuck m') : Answered m (.stuck, m')

theorem Answered.next_eq (h : m.Answered r) : m.next = some r := by
  induction h with
  | quiet hstep _ ih => rw [next_of_quiet hstep, ih]
  | action hstep => exact next_of_action hstep
  | ended hstep => exact next_of_ended hstep
  | stuck hstep => exact next_of_stuck hstep

/-- **A request has a result if and only if it is answered.** -/
theorem next_eq_some_iff : m.next = some r ↔ m.Answered r := by
  refine ⟨next.partial_correctness Answered (fun next ih m r h ↦ ?_) m r, Answered.next_eq⟩
  rcases hstep : m.step with m' | ⟨a, m'⟩ | m' | m' <;> rw [hstep] at h
  · exact .quiet hstep (ih m' r h)
  · obtain rfl := Option.some.inj h
    exact .action hstep
  · obtain rfl := Option.some.inj h
    exact .ended hstep
  · obtain rfl := Option.some.inj h
    exact .stuck hstep

/-! ### The loop behind a request -/

/-- At most `k` iterations of a request: what the first one that is not quiet came to, or the
machine behind the last one. -/
def loop (m : Machine) : Nat → Outcome
  | 0 => .quiet m
  | k + 1 =>
    match m.step with
    | .quiet m' => m'.loop k
    | outcome => outcome

/-- How many frames `k` iterations of a request try to enter. -/
def attempts (m : Machine) : Nat → Nat
  | 0 => 0
  | k + 1 =>
    m.demand.entries +
      match m.step with
      | .quiet m' => m'.attempts k
      | _ => 0

theorem loop_succ_of_quiet (h : m.step = .quiet m') (k : Nat) : m.loop (k + 1) = m'.loop k := by
  rw [loop, h]

/-- **A request is answered by the last one of finitely many iterations.** -/
theorem answered_iff_exists_loop : m.Answered r ↔ ∃ k, (m.loop k).answer? = some r := by
  constructor
  · intro h
    induction h with
    | quiet hstep _ ih =>
      obtain ⟨k, hk⟩ := ih
      exact ⟨k + 1, by rw [loop_succ_of_quiet hstep, hk]⟩
    | action hstep => exact ⟨1, by simp [loop, hstep, Outcome.answer?]⟩
    | ended hstep => exact ⟨1, by simp [loop, hstep, Outcome.answer?]⟩
    | stuck hstep => exact ⟨1, by simp [loop, hstep, Outcome.answer?]⟩
  · rintro ⟨k, hk⟩
    induction k generalizing m with
    | zero => simp [loop, Outcome.answer?] at hk
    | succ k ih =>
      rcases hstep : m.step with m' | ⟨a, m'⟩ | m' | m'
      · rw [loop_succ_of_quiet hstep] at hk
        exact .quiet hstep (ih hk)
      all_goals
        simp only [loop, hstep, Outcome.answer?] at hk
        obtain rfl := Option.some.inj hk
      · exact .action hstep
      · exact .ended hstep
      · exact .stuck hstep

theorem next_eq_some_iff_exists_loop : m.next = some r ↔ ∃ k, (m.loop k).answer? = some r :=
  next_eq_some_iff.trans answered_iff_exists_loop

/-- A request has no result if and only if all its iterations are quiet. -/
theorem next_eq_none_iff : m.next = none ↔ ∀ k, ∃ m', m.loop k = .quiet m' := by
  simp only [Option.eq_none_iff_forall_ne_some, ne_eq, next_eq_some_iff_exists_loop]
  constructor
  · intro h k
    rcases hloop : m.loop k with m' | ⟨a, m'⟩ | m' | m'
    · exact ⟨m', rfl⟩
    all_goals exact absurd ⟨k, by rw [hloop]; rfl⟩ (h _)
  · rintro h r ⟨k, hk⟩
    obtain ⟨m', hloop⟩ := h k
    simp [hloop, Outcome.answer?] at hk

/-! ### Below the largest limit -/

/-- Elements left on a stack, one added for every frame. -/
def work (stack : Stack (Frame Env)) : Nat :=
  stack.items.foldr (fun f below => f.rest.length + 1 + below) 0

/-- Frames that may still be entered for the next action. -/
def room (m : Machine) : Nat := (m.limits.silent - m.silent).toBitVec.toNat

/-- What is left to do for the next action at most: frames to enter, and elements to pass. -/
def pending (m : Machine) : Nat × Nat := (m.room, work m.stack)

/-- The order in which `pending` goes down. -/
def Sooner (m n : Machine) : Prop := Prod.Lex (· < ·) (· < ·) m.pending n.pending

@[simp]
theorem room_moved (m : Machine) : m.moved.room = m.room := by
  rw [room, moved_limits, moved_silent, room]

/-- Below the largest limit the counter is at the limit, or there is room for another frame. -/
theorem silent_ne_of_le (hlimit : m.limits.silent < Int64.maxValue)
    (h : m.silent + 1 ≤ m.limits.silent) : m.silent ≠ m.limits.silent := by
  intro heq
  rw [heq, Int64.le_iff_toInt_le, toInt_add_one (Int64.ne_of_lt hlimit)] at h
  omega

/-- Entering a frame uses up one of the frames that may be entered. -/
theorem room_entered (hlimit : m.limits.silent < Int64.maxValue)
    (h : m.silent + 1 ≤ m.limits.silent) (f : Frame Env) : (m.entered f).room + 1 = m.room := by
  have hne : m.silent.toBitVec ≠ m.limits.silent.toBitVec := fun heq ↦
    silent_ne_of_le hlimit h (Int64.toBitVec_inj.1 heq)
  have hone : (1 : Int64).toBitVec = 1#64 := rfl
  rw [room, room, entered, Int64.toBitVec_sub, Int64.toBitVec_sub, Int64.toBitVec_add, hone]
  bv_omega

/-- Below the largest limit, a quiet step leaves less to do. -/
theorem progress_of_quiet (hlimit : m.limits.silent < Int64.maxValue) (h : m.step = .quiet m') :
    Sooner m' m := by
  rcases hitems : m.stack.items with - | ⟨f, below⟩
  · rcases quiet_cases h with ⟨hd, -⟩ | ⟨hd, -⟩ | ⟨g, hd, -⟩ <;> simp [demand_of_nil hitems] at hd
  have hwork : work m.moved.stack < work m.stack := by
    rcases hrest : f.rest with - | ⟨x, rest⟩
    · simp [work, hitems, items_moved_of_exhausted hitems hrest]
    · simp [work, hitems, hrest, items_moved_of_cons hitems hrest]
  rcases quiet_cases h with ⟨-, rfl⟩ | ⟨-, rfl⟩ | ⟨g, -, hsilent, -, rfl⟩
  · rw [Sooner, pending, room_moved]
    exact Prod.Lex.right _ hwork
  · rw [Sooner, pending, room_moved]
    exact Prod.Lex.right _ hwork
  · have hroom := room_entered (m := m.moved) (by simpa using hlimit) (by simpa using hsilent) g
    rw [room_moved] at hroom
    exact Prod.Lex.left _ _ (by omega)

/-- A quiet step changes no limits. -/
theorem limits_of_quiet (h : m.step = .quiet m') : m'.limits = m.limits := by
  rcases quiet_cases h with ⟨-, rfl⟩ | ⟨-, rfl⟩ | ⟨f, -, -, -, rfl⟩ <;> exact moved_limits m

/-- Below the largest limit, quiet steps cannot go on for ever. -/
theorem wellFounded_quiet : WellFounded fun m' m : Machine ↦
    m.limits.silent < Int64.maxValue ∧ m.step = .quiet m' := by
  have hlex : WellFounded Sooner :=
    InvImage.wf pending (Prod.lex Nat.lt_wfRel Nat.lt_wfRel).wf
  exact Subrelation.wf (fun h ↦ progress_of_quiet h.1 h.2) hlex

/-- **Below the largest limit every request is answered.** -/
theorem exists_answered (hlimit : m.limits.silent < Int64.maxValue) : ∃ r, m.Answered r := by
  induction m using wellFounded_quiet.induction with
  | _ m ih =>
    rcases hstep : m.step with m' | ⟨a, m'⟩ | m' | m'
    · obtain ⟨r, hr⟩ := ih m' ⟨hlimit, hstep⟩ (by rwa [limits_of_quiet hstep])
      exact ⟨r, .quiet hstep hr⟩
    · exact ⟨_, .action hstep⟩
    · exact ⟨_, .ended hstep⟩
    · exact ⟨_, .stuck hstep⟩

theorem next_ne_none (hlimit : m.limits.silent < Int64.maxValue) : m.next ≠ none := by
  obtain ⟨r, hr⟩ := exists_answered hlimit
  simp [hr.next_eq]

/-- A request goes unanswered under the largest limit only. -/
theorem silent_of_next_eq_none (h : m.next = none) : m.limits.silent = Int64.maxValue := by
  rcases Int64.lt_or_eq_of_le (Int64.le_maxValue m.limits.silent) with hlimit | hlargest
  · exact absurd h (next_ne_none hlimit)
  · exact hlargest

/-- Every attempt but the last uses up one of the frames that may be entered. -/
theorem attempts_le (hlimit : m.limits.silent < Int64.maxValue) (k : Nat) :
    m.attempts k ≤ m.room + 1 := by
  induction k generalizing m with
  | zero => simp [attempts]
  | succ k ih =>
    rw [attempts]
    rcases hstep : m.step with m' | ⟨a, m'⟩ | m' | m'
    · have hm' := ih (m := m') (by rwa [limits_of_quiet hstep])
      rcases quiet_cases hstep with ⟨hd, rfl⟩ | ⟨hd, rfl⟩ | ⟨f, hd, hs, -, rfl⟩
      · simpa [hd, Demand.entries] using hm'
      · simpa [hd, Demand.entries] using hm'
      · have hroom := room_entered (m := m.moved) (by simpa using hlimit) (by simpa using hs) f
        rw [room_moved] at hroom
        simp only [hd, Demand.entries]
        omega
    -- any other step ends the request, and is one attempt at most
    all_goals
      simp only [Nat.add_zero]
      rcases m.demand with - | - | - | a | f | failure | - <;> simp [Demand.entries]

end Machine

end RobotGolf
