import RobotGolf.Proofs.Modes
/-!
# The pace of a running session

A session that is set running executes its first action with the first update and from then on at
most one in every frame, whenever it is updated and whatever the times are, which may go backwards
(`Session.updates_keep_pace`).

A frame begins when the session is started, and again with each update that finds the present frame
to be over. So the beginning of the frame is one of the times of these updates, and it moves forward
by more than a frame each time. The first action is the exception: it is executed in any case, and
the frame goes on if it is not over (`Session.attempts_bound_of_due`). From then on, **every attempt
begins a new frame**, and the bound follows by induction on the updates (`Session.attempts_bound`).
-/

namespace RobotGolf.Session

variable {s : Session} {answer : Bool × Session} {now : ℤ}

/-! ### Attempts -/

/-- Whether an update attempts to execute an action: one is due, or the present frame is over. -/
def attempts (s : Session) (now : ℤ) : Bool :=
  s.running && (s.due || decide (s.frame.toInt < now - s.began))

/-- The session behind updates at some times. -/
def updated (s : Session) (times : List ℤ) : Session :=
  times.foldl (fun s now ↦ (s.update now).2) s

/-- Whether the attempt of an update is never answered. -/
def waits (s : Session) (now : ℤ) : Bool :=
  s.attempts now && { s with due := false }.move.isNone

/-- How many updates attempt to execute an action. If an attempt is never answered, the update is
the last one. -/
def attemptCount (s : Session) : List ℤ → ℕ
  | [] => 0
  | now :: later => (s.attempts now).toNat +
      if s.waits now then 0 else (s.update now).2.attemptCount later

theorem Moves.clock (h : s.Moves answer) :
    answer.2.due = s.due ∧ answer.2.frame = s.frame ∧ answer.2.began = s.began := by
  cases h <;> exact ⟨rfl, rfl, rfl⟩

theorem attempts_eq_true_iff : s.attempts now = true ↔
    s.running = true ∧ (s.due = true ∨ s.frame.toInt < now - s.began) := by
  simp [attempts]

/-- Without an attempt nothing changes. -/
theorem Updates.eq_of_not_attempts (h : s.Updates now answer) (hs : s.attempts now = false) :
    answer = (false, s) := by
  cases h with
  | stopped => rfl
  | early => rfl
  | waits => rfl
  | moves hrunning hdue =>
    exact absurd (attempts_eq_true_iff.2 ⟨hrunning, hdue⟩) (by simp [hs])

/-- An attempt that is answered is a move, and begins a new frame if the present one is over. -/
theorem Updates.of_attempts (h : s.Updates now answer) (hs : s.attempts now = true)
    (hwaits : s.waits now = false) : ∃ moved, Moves { s with due := false } moved ∧
      answer = (moved.1, { moved.2 with
        began := if s.frame.toInt < now - s.began then now else moved.2.began }) := by
  obtain ⟨hrunning, hdue⟩ := attempts_eq_true_iff.1 hs
  cases h with
  | stopped hstopped => exact absurd hrunning (by simp [hstopped])
  | early _ hundue hearly => exact absurd hdue (by simp [hundue, hearly])
  | waits _ _ hmove => exact absurd hwaits (by simp [Session.waits, hs, hmove])
  | moves _ _ hmoves => exact ⟨_, hmoves, rfl⟩

/-- What an attempt does to the clock. -/
theorem Updates.clock_of_attempts (h : s.Updates now answer) (hs : s.attempts now = true)
    (hwaits : s.waits now = false) : answer.2.due = false ∧ answer.2.frame = s.frame ∧
      answer.2.began = if s.frame.toInt < now - s.began then now else s.began := by
  obtain ⟨moved, hmoves, rfl⟩ := h.of_attempts hs hwaits
  obtain ⟨hdue, hframe, hbegan⟩ := hmoves.clock
  refine ⟨hdue, hframe, ?_⟩
  dsimp only
  rw [hbegan]

/-- **What an attempt does**, if it is answered: one action more is executed, or there was none
left. The session is not finished in front of it, since it is running. -/
theorem Coherent.attempt (h : s.Coherent) (hupdates : s.Updates now answer)
    (hs : s.attempts now = true) (hwaits : s.waits now = false) : answer.1 = true ∧
      (answer.2.steps = s.steps + 1 ∧ answer.2.finished = false ∨
        answer.2.steps = s.steps ∧ answer.2.finished = true) := by
  obtain ⟨hrunning, -⟩ := attempts_eq_true_iff.1 hs
  obtain ⟨moved, hmoves, rfl⟩ := hupdates.of_attempts hs hwaits
  exact hmoves.changed (h.unfinished hrunning)

/-- A session answers whether it has made an attempt. -/
theorem Coherent.answer_eq (h : s.Coherent) (hupdates : s.Updates now answer)
    (hwaits : s.waits now = false) : answer.1 = s.attempts now := by
  rcases hattempts : s.attempts now with - | -
  · rw [hupdates.eq_of_not_attempts hattempts]
  · exact (h.attempt hupdates hattempts hwaits).1

theorem Moves.steps_le (h : s.Moves answer) :
    s.steps ≤ answer.2.steps ∧ answer.2.steps ≤ s.steps + 1 := by
  cases h with
  | rest => exact ⟨le_rfl, Nat.le_succ _⟩
  | action => exact ⟨Nat.le_succ _, le_rfl⟩
  | ended => exact ⟨le_rfl, Nat.le_succ _⟩

theorem Updates.steps_le (h : s.Updates now answer) :
    s.steps ≤ answer.2.steps ∧ answer.2.steps ≤ s.steps + 1 := by
  cases h with
  | stopped => exact ⟨le_rfl, Nat.le_succ _⟩
  | early => exact ⟨le_rfl, Nat.le_succ _⟩
  | waits => exact ⟨le_rfl, Nat.le_succ _⟩
  | moves _ _ hmoves => exact hmoves.steps_le

/-! ### The bound -/

theorem waits_of_not_attempts (h : s.attempts now = false) : s.waits now = false := by
  rw [waits, h, Bool.false_and]

/-- **Every attempt takes more than a frame**, once the first one has been made. -/
theorem attempts_bound (hdue : s.due = false) (times : List ℤ) : s.attemptCount times = 0 ∨
    ∃ t ∈ times, s.attemptCount times * s.frame.toInt < t - s.began := by
  induction times generalizing s with
  | nil => exact Or.inl rfl
  | cons now later ih =>
    have hupdates := s.updates_update now
    rw [attemptCount]
    rcases hattempts : s.attempts now with - | -
    · rw [waits_of_not_attempts hattempts, hupdates.eq_of_not_attempts hattempts, Bool.toNat_false,
        Nat.zero_add]
      refine (ih hdue).imp_right fun ⟨t, ht, hbound⟩ ↦ ⟨t, List.mem_cons_of_mem _ ht, hbound⟩
    · -- the frame is over, and the next one begins with this attempt
      obtain ⟨-, hover⟩ := attempts_eq_true_iff.1 hattempts
      rw [hdue, Bool.false_eq_true, false_or] at hover
      have hlast : (1 : ℕ) * s.frame.toInt < now - s.began := by omega
      rcases hwaits : s.waits now with - | -
      · obtain ⟨hdue', hframe, hbegan⟩ := hupdates.clock_of_attempts hattempts hwaits
        rw [if_pos hover] at hbegan
        rw [Bool.toNat_true, if_neg Bool.false_ne_true]
        refine Or.inr ?_
        rcases ih hdue' with hnone | ⟨t, ht, hbound⟩
        · exact ⟨now, List.mem_cons_self .., by rwa [hnone]⟩
        · refine ⟨t, List.mem_cons_of_mem _ ht, ?_⟩
          rw [hframe, hbegan] at hbound
          rw [Nat.cast_add, Nat.cast_one, Int.add_mul, Int.one_mul]
          omega
      · exact Or.inr ⟨now, List.mem_cons_self .., hlast⟩

theorem attempts_of_due (hrunning : s.running = true) (hdue : s.due = true) (now : ℤ) :
    s.attempts now = true := attempts_eq_true_iff.2 ⟨hrunning, Or.inl hdue⟩

/-- A session that has just been started makes its first attempt at once, and all others in time. -/
theorem attempts_bound_of_due (hrunning : s.running = true) (hdue : s.due = true)
    (hframe : 0 ≤ s.frame.toInt) (times : List ℤ) : s.attemptCount times ≤ 1 ∨
    ∃ t ∈ times, (s.attemptCount times - 1) * s.frame.toInt < t - s.began := by
  rcases times with - | ⟨now, later⟩
  · exact Or.inl (Nat.zero_le 1)
  have hfirst := attempts_of_due hrunning hdue now
  rw [attemptCount, hfirst, Bool.toNat_true]
  rcases hwaits : s.waits now with - | -
  · obtain ⟨hdue', hframe', hbegan⟩ := (s.updates_update now).clock_of_attempts hfirst hwaits
    -- the first attempt may leave the frame as it is, but does not take it back
    have hforward : s.began ≤ (s.update now).2.began := by
      rw [hbegan]
      split <;> omega
    rw [if_neg Bool.false_ne_true]
    rcases attempts_bound hdue' later with hnone | ⟨t, ht, hbound⟩
    · exact Or.inl (by rw [hnone])
    · rw [hframe'] at hbound
      refine Or.inr ⟨t, List.mem_cons_of_mem _ ht, ?_⟩
      rw [Nat.cast_add, Nat.cast_one, add_sub_cancel_left]
      omega
  · exact Or.inl le_rfl

/-! ### The duration of a frame -/

theorem toInt_frameOf (fps : Int64) : (frameOf fps).toInt = 1000000000 / max fps.toInt 1 := by
  rw [frameOf]
  split
  · rename_i hlow
    have hlow : fps.toInt < 1 := Int64.lt_iff_toInt_lt.1 hlow
    rw [max_eq_right hlow.le]
    rfl
  · rename_i hhigh
    have hhigh : 1 ≤ fps.toInt := Int64.le_iff_toInt_le.1 (Int64.not_lt.1 hhigh)
    have hnonneg : 0 ≤ 1000000000 / fps.toInt := Int.ediv_nonneg (by decide) (by omega)
    have hle : 1000000000 / fps.toInt ≤ 1000000000 := Int.ediv_le_self _ (by decide)
    have hsecond : (1000000000 : Int64).toInt = 1000000000 := rfl
    rw [max_eq_left hhigh, Int64.toInt_div, hsecond, Int.tdiv_eq_ediv_of_nonneg (by decide),
      Int.bmod_eq_of_le (by omega) (by omega)]

/-! ### What no event changes -/

/-- The session plays `solution`, under its limits, in frames of some duration. -/
structure Steady (solution : Solution) (frame : Int64) (s : Session) : Prop where
  solution_eq : s.solution = solution
  frame_eq : s.frame = frame
  limits_eq : ∀ m, s.machine = some m → m.limits = solution.limits

namespace Steady

variable {solution : Solution} {frame : Int64}

theorem new (l : Level) (solution : Solution) (fps : Int64) :
    Steady solution (frameOf fps) (Session.new l solution fps) where
  solution_eq := rfl
  frame_eq := rfl
  limits_eq m h := by
    obtain rfl := Option.some.inj h
    rfl

theorem moves (h : Steady solution frame s) (hmoves : s.Moves answer) :
    Steady solution frame answer.2 := by
  cases hmoves with
  | rest => exact h
  | action _ hmachine hnext =>
    refine ⟨h.solution_eq, h.frame_eq, fun m hm ↦ ?_⟩
    obtain rfl := Option.some.inj hm
    exact (Machine.limits_of_next hnext).trans (h.limits_eq _ hmachine)
  | ended => exact ⟨h.solution_eq, h.frame_eq, fun m hm ↦ by simp at hm⟩

theorem proceed (h : Steady solution frame s) : Steady solution frame s.proceed.2 := by
  rcases s.proceed_cases with ⟨-, hsame⟩ | hmoves
  · rw [hsame]
    exact h
  · exact h.moves hmoves

theorem updates (h : Steady solution frame s) (hupdates : s.Updates now answer) :
    Steady solution frame answer.2 := by
  cases hupdates with
  | stopped => exact h
  | early => exact h
  | waits => exact h
  | moves _ _ hmoves =>
    have hdue : Steady solution frame { s with due := false } :=
      ⟨h.solution_eq, h.frame_eq, h.limits_eq⟩
    have hmoved := hdue.moves hmoves
    exact ⟨hmoved.solution_eq, hmoved.frame_eq, hmoved.limits_eq⟩

/-- The step lemma. -/
theorem handle (h : Steady solution frame s) (event : Event) :
    Steady solution frame (s.handle event) := by
  cases event with
  | operation op =>
    cases op with
    | step =>
      show Steady solution frame s.step.2
      rw [Session.step]
      split
      · exact h
      · exact h.proceed
    | run n => exact runSteps_keeps (fun _ hs ↦ hs.proceed) h n.toNat
    | start now =>
      show Steady solution frame (s.start now)
      rw [Session.start]
      split
      · exact h
      · exact ⟨h.solution_eq, h.frame_eq, h.limits_eq⟩
    | update now => exact h.updates (s.updates_update now)
    | stop =>
      show Steady solution frame s.stop
      rw [Session.stop]
      split
      · exact ⟨h.solution_eq, h.frame_eq, h.limits_eq⟩
      · exact h
    | reset =>
      refine ⟨h.solution_eq, h.frame_eq, fun m hm ↦ ?_⟩
      obtain rfl := Option.some.inj hm
      exact congrArg Solution.limits h.solution_eq
  | useRecords table => exact ⟨h.solution_eq, h.frame_eq, h.limits_eq⟩

/-- The run lemma. -/
theorem after (h : Steady solution frame s) (events : List Event) :
    Steady solution frame (s.after events) := by
  induction events generalizing s with
  | nil => exact h
  | cons event events ih => exact ih (h.handle event)

theorem updated (h : Steady solution frame s) (times : List ℤ) :
    Steady solution frame (s.updated times) := by
  induction times generalizing s with
  | nil => exact h
  | cons now later ih => exact ih (h.updates (s.updates_update now))

/-- An attempt goes unanswered under the largest limit only. -/
theorem of_waits (h : Steady solution frame s) (hwaits : s.waits now = true) :
    solution.limits.silent = Int64.maxValue := by
  rw [waits, Bool.and_eq_true, Option.isNone_iff_eq_none, move_eq_none_iff] at hwaits
  obtain ⟨-, m, hmachine, hnext⟩ := hwaits
  rw [← h.limits_eq m hmachine]
  exact Machine.silent_of_next_eq_none hnext

end Steady

theorem Coherent.updated (h : s.Coherent) (times : List ℤ) : (s.updated times).Coherent := by
  induction times generalizing s with
  | nil => exact h
  | cons now later ih => exact ih (h.updates (s.updates_update now))

/-- **Running by the clock never exceeds the frame rate.** Let a session with any history, neither
running nor finished, be started and then be updated at any times, in any order. An update executes
at most one action, and changes nothing unless it makes an attempt, which its answer tells. An
attempt executes one action more, or it finishes the session; it is never answered only if the limit
on frames for one action is the largest one. The first update makes an attempt. If there are more,
then a frame for each of them but the first one fits into the time between the start and some
update, and so the latest one. -/
theorem updates_keep_pace (l : Level) (solution : Solution) (fps : Int64) (events : List Event)
    (s : Session) (hs : s = (Session.new l solution fps).after events)
    (hstopped : s.running = false) (hunfinished : s.finished = false) (began : ℤ)
    (times : List ℤ) :
    (∀ now, (s.start began).attempts now = true) ∧
    (∀ now u, u = (s.start began).updated times →
      (u.waits now = true → solution.limits.silent = Int64.maxValue) ∧
      (u.waits now = false → (u.update now).1 = u.attempts now) ∧
      (u.attempts now = false → (u.update now).2 = u) ∧
      (u.attempts now = true → u.waits now = false →
        (u.update now).2.steps = u.steps + 1 ∧ (u.update now).2.finished = false ∨
        (u.update now).2.steps = u.steps ∧ (u.update now).2.finished = true) ∧
      u.steps ≤ (u.update now).2.steps ∧ (u.update now).2.steps ≤ u.steps + 1) ∧
    ((s.start began).attemptCount times ≤ 1 ∨ ∃ t ∈ times,
      ((s.start began).attemptCount times - 1) * (1000000000 / max fps.toInt 1) < t - began) := by
  have hstart : s.start began = { s with running := true, due := true, began := began } := by
    rw [start, if_neg (by simp [hstopped, hunfinished])]
  have hcoherent : (s.start began).Coherent := by
    have h : s.Coherent := hs ▸ (coherent_new l solution fps).after events
    exact h.perform (.start began)
  have hsteady : Steady solution (frameOf fps) s := hs ▸ (Steady.new l solution fps).after events
  have hframe : s.frame.toInt = 1000000000 / max fps.toInt 1 := by
    rw [← toInt_frameOf, hsteady.frame_eq]
  refine ⟨fun now ↦ ?_, ?_, ?_⟩
  · rw [hstart]
    exact attempts_of_due rfl rfl now
  · rintro now u rfl
    have hupdates := ((s.start began).updated times).updates_update now
    have hstarted := (hsteady.handle (.operation (.start began))).updated times
    refine ⟨hstarted.of_waits, (hcoherent.updated times).answer_eq hupdates, fun hattempts ↦ ?_,
      fun hattempts hwaits ↦ ?_, hupdates.steps_le⟩
    · rw [hupdates.eq_of_not_attempts hattempts]
    · exact ((hcoherent.updated times).attempt hupdates hattempts hwaits).2
  · have hnonneg : 0 ≤ s.frame.toInt := by
      rw [hframe]
      exact Int.ediv_nonneg (by decide) (by omega)
    rw [hstart, ← hframe]
    exact attempts_bound_of_due (s := { s with running := true, due := true, began := began })
      rfl rfl hnonneg times

/-- Three frames per second, and a clock that goes back once. Of four updates two make an attempt,
the first one at once, and the other one when a third of a second has gone by. -/
theorem dash_keeps_pace : ∃ s, s = Session.new corridor dash 3 ∧ s.running = false ∧
    s.finished = false ∧ (s.start 5).attemptCount [6, 4, 333333338, 333333339] = 2 ∧
    ((s.start 5).attemptCount [6, 4, 333333338, 333333339] ≤ 1 ∨
      ∃ t ∈ [6, 4, 333333338, 333333339],
        ((s.start 5).attemptCount [6, 4, 333333338, 333333339] - 1) *
          (1000000000 / max (3 : Int64).toInt 1) < t - 5) := by
  refine ⟨_, rfl, rfl, rfl, ?_, (updates_keep_pace corridor dash 3 [] _ rfl rfl rfl 5 _).2.2⟩
  have hfirst : dash.machine.next.map Prod.fst = some (.action (.command .forward)) := by cbv
  have hsecond : (dash.machine.next.bind fun r ↦ r.2.next.map Prod.fst) =
      some (.action (.command .forward)) := by
    cbv
  have hframe : (frameOf 3).toInt = 333333333 := by decide
  obtain ⟨⟨-, m₁⟩, hnext, rfl⟩ := Option.map_eq_some_iff.1 hfirst
  simp only [hnext, Option.bind_some] at hsecond
  obtain ⟨⟨-, m₂⟩, hnext₁, rfl⟩ := Option.map_eq_some_iff.1 hsecond
  simp [attemptCount, attempts, waits, update, start, move, execute, finished, Session.new, hnext,
    hnext₁, hframe]

end RobotGolf.Session
