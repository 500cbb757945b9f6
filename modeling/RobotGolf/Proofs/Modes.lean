import RobotGolf.Proofs.Replay
/-!
# The modes of a session

A session is stopped, running or finished, but no field holds its mode. There is a flag for running,
the evaluation is gone once it has come to its end, and a failure is kept beside it. Single steps,
batches and updates all find the end of the evaluation in `Session.move`, which takes back the flag
for running and leaves the rest of the clock as it is. Behind any history these fields still fit
together (`Session.modes_cohere`):

* **No session is running and finished**, and a failure is only there at the end
  (`Session.Coherent`). This rests on the guards of `start` and on what `move` takes back.
* **Answers are true** (`Session.Truthful`). An update that executes nothing leaves the clock alone,
  and one that wants to execute something can do so, because a running session is not finished. This
  is where the first part is used.
* **A finished session rests**: no operation but starting over has an effect
  (`Session.Coherent.perform_of_finished`).
-/

namespace RobotGolf

/-- What an operation answers if it has no effect. -/
def Operation.idle : Operation → Result
  | .step | .update _ => .changed false
  | .run _ => .executed 0
  | .start _ | .stop | .reset => .none

namespace Session

variable {s : Session} {answer : Bool × Session} {op : Operation}

/-! ### What a move can do -/

/-- How the request for the next action turns out. A finished session makes none. An action leaves
the mode as it is, and the end of the evaluation is the end of running as well. -/
inductive Moves (s : Session) : Bool × Session → Prop where
  | rest (finished : s.finished = true) : Moves s (false, s)
  | action (unfinished : s.finished = false) {m m' : Machine} {a : Action}
      (machine : s.machine = some m) (next : m.next = some (.action a, m')) :
      Moves s (true, s.execute m' a)
  | ended (unfinished : s.finished = false) (failure : Option Failure) :
      Moves s (true, { s with machine := none, running := false, failure := failure })

theorem moves_of_move (h : s.move = some answer) : s.Moves answer := by
  rw [move] at h
  rcases hmachine : s.machine with - | m <;> rw [hmachine] at h
  · obtain rfl := Option.some.inj h
    exact .rest (by rw [finished, hmachine]; rfl)
  · have hunfinished : s.finished = false := by rw [finished, hmachine]; rfl
    dsimp only at h
    rcases hnext : m.next with - | ⟨a | - | -, m'⟩ <;> rw [hnext] at h
    · simp at h
    · obtain rfl := Option.some.inj h
      exact .action hunfinished hmachine hnext
    all_goals
      obtain rfl := Option.some.inj h
      exact .ended hunfinished m'.failure

/-- A move has no result if the request of its machine is never answered. -/
theorem move_eq_none_iff : s.move = none ↔ ∃ m, s.machine = some m ∧ m.next = none := by
  rw [move]
  rcases s.machine with - | m
  · simp
  · rcases hnext : m.next with - | ⟨a | - | -, m'⟩ <;> simp [hnext]

/-- The session stays as it was, or it moves. -/
theorem proceed_cases (s : Session) :
    s.move = none ∧ s.proceed = (false, s) ∨ s.Moves s.proceed := by
  rw [proceed]
  rcases hmove : s.move with - | moved
  · exact Or.inl ⟨rfl, rfl⟩
  · exact Or.inr (moves_of_move hmove)

/-- What every move keeps is kept by a batch. -/
theorem runSteps_keeps {P : Session → Prop} (hmove : ∀ s, P s → P s.proceed.2) (h : P s) (n : ℕ) :
    P (s.runSteps n) := by
  induction n generalizing s with
  | zero => exact h
  | succ n ih =>
    rw [runSteps]
    split
    · exact h
    · exact ih (hmove s h)

theorem Moves.eq_of_finished (h : s.Moves answer) (hs : s.finished = true) :
    answer = (false, s) := by
  cases h with
  | rest => rfl
  | action hunfinished => exact absurd hs (by simp [hunfinished])
  | ended hunfinished => exact absurd hs (by simp [hunfinished])

theorem proceed_of_finished (hs : s.finished = true) : s.proceed = (false, s) := by
  rcases s.proceed_cases with ⟨-, hsame⟩ | hmoves
  · exact hsame
  · exact hmoves.eq_of_finished hs

/-- What it does to a session that is not finished: either one more action is counted, or there is
none left. -/
theorem Moves.changed (h : s.Moves answer) (hs : s.finished = false) : answer.1 = true ∧
    (answer.2.steps = s.steps + 1 ∧ answer.2.finished = false ∨
      answer.2.steps = s.steps ∧ answer.2.finished = true) := by
  cases h with
  | rest hfinished => exact absurd hs (by simp [hfinished])
  | action => exact ⟨rfl, Or.inl ⟨rfl, rfl⟩⟩
  | ended => exact ⟨rfl, Or.inr ⟨rfl, rfl⟩⟩

/-- How an update turns out. A session that is not running makes none, and one whose frame is not
over makes none either, unless an action is due. Otherwise a move is made, which is no longer due,
and a new frame begins if the present one is over. The request may never be answered. -/
inductive Updates (s : Session) (now : ℤ) : Bool × Session → Prop where
  | stopped (stopped : s.running = false) : Updates s now (false, s)
  | early (running : s.running = true) (undue : s.due = false)
      (early : ¬ s.frame.toInt < now - s.began) : Updates s now (false, s)
  | waits (running : s.running = true) (due : s.due = true ∨ s.frame.toInt < now - s.began)
      (waits : { s with due := false }.move = none) : Updates s now (false, s)
  | moves {moved : Bool × Session} (running : s.running = true)
      (due : s.due = true ∨ s.frame.toInt < now - s.began)
      (moves : Moves { s with due := false } moved) :
      Updates s now (moved.1, { moved.2 with
        began := if s.frame.toInt < now - s.began then now else moved.2.began })

theorem updates_update (s : Session) (now : ℤ) : s.Updates now (s.update now) := by
  obtain hrunning | hrunning := Bool.eq_false_or_eq_true s.running
  · rw [update, if_neg (by simp [hrunning])]
    dsimp only
    split
    · rename_i hdue
      have hdue : s.due = true ∨ s.frame.toInt < now - s.began := by simpa using hdue
      generalize hmove : { s with due := false }.move = moved
      rcases moved with - | moved
      · exact .waits hrunning hdue hmove
      · have hmoves := Updates.moves hrunning hdue (moves_of_move hmove)
        by_cases hover : s.frame.toInt < now - s.began <;> simpa [hover] using hmoves
    · rename_i hdue
      obtain ⟨hundue, hearly⟩ : s.due = false ∧ ¬ s.frame.toInt < now - s.began := by
        simpa using hdue
      exact .early hrunning hundue hearly
  · rw [update, if_pos (by simp [hrunning])]
    exact .stopped hrunning

/-! ### Modes exclude each other -/

/-- The fields that make up the mode of a session fit together. -/
structure Coherent (s : Session) : Prop where
  unfinished : s.running = true → s.finished = false
  finished : s.failure ≠ none → s.finished = true

theorem coherent_reset (s : Session) : s.reset.Coherent where
  unfinished _ := rfl
  finished hfailure := absurd rfl hfailure

theorem coherent_new (l : Level) (solution : Solution) (fps : Int64) :
    (Session.new l solution fps).Coherent where
  unfinished _ := rfl
  finished hfailure := absurd rfl hfailure

namespace Coherent

/-- Points, clock and table have no part in it. -/
theorem of_same {s' : Session} (h : s.Coherent) (hrunning : s'.running = s.running)
    (hfinished : s'.finished = s.finished) (hfailure : s'.failure = s.failure) : s'.Coherent where
  unfinished := by
    rw [hrunning, hfinished]
    exact h.unfinished
  finished := by
    rw [hfailure, hfinished]
    exact h.finished

theorem useRecords (h : s.Coherent) (table : Option Records) : (s.useRecords table).Coherent :=
  h.of_same rfl rfl rfl

theorem moves (h : s.Coherent) (hmoves : s.Moves answer) : answer.2.Coherent := by
  cases hmoves with
  | rest => exact h
  | action hunfinished => exact h.of_same rfl hunfinished.symm rfl
  | ended _ failure => exact ⟨fun hrunning ↦ absurd hrunning Bool.false_ne_true, fun _ ↦ rfl⟩

theorem updates (h : s.Coherent) {now : ℤ} (hupdates : s.Updates now answer) :
    answer.2.Coherent := by
  cases hupdates with
  | stopped => exact h
  | early => exact h
  | waits => exact h
  | moves _ _ hmoves =>
    have hdue : Coherent { s with due := false } := h.of_same rfl rfl rfl
    exact (hdue.moves hmoves).of_same rfl rfl rfl

theorem proceed (h : s.Coherent) : s.proceed.2.Coherent := by
  rcases s.proceed_cases with ⟨-, hsame⟩ | hmoves
  · rw [hsame]
    exact h
  · exact h.moves hmoves

theorem runSteps (h : s.Coherent) (n : ℕ) : (s.runSteps n).Coherent :=
  runSteps_keeps (fun _ hs ↦ hs.proceed) h n

/-- **The step lemma**: every operation keeps the modes apart. -/
theorem perform (h : s.Coherent) (op : Operation) : (s.perform op).2.Coherent := by
  cases op with
  | step =>
    show s.step.2.Coherent
    rw [Session.step]
    split
    · exact h
    · exact h.proceed
  | run n => exact h.runSteps n.toNat
  | start now =>
    show (s.start now).Coherent
    rw [Session.start]
    split
    · exact h
    · -- only a session that is not finished is started
      rename_i hidle
      obtain ⟨-, hunfinished⟩ := not_or.1 hidle
      exact ⟨fun _ ↦ Bool.eq_false_of_not_eq_true hunfinished, h.finished⟩
  | update now =>
    show (s.update now).2.Coherent
    exact h.updates (s.updates_update now)
  | stop =>
    show s.stop.Coherent
    rw [Session.stop]
    split
    · exact ⟨fun hrunning ↦ absurd hrunning Bool.false_ne_true, h.finished⟩
    · exact h
  | reset => exact s.coherent_reset

/-- **The run lemma**: so does every sequence of events. -/
theorem after (h : s.Coherent) (events : List Event) : (s.after events).Coherent := by
  induction events generalizing s with
  | nil => exact h
  | cons event events ih =>
    cases event with
    | operation op => exact ih (h.perform op)
    | useRecords table => exact ih (h.useRecords table)

end Coherent

/-! ### Answers -/

/-- An answer tells whether the session has changed, which is that one more action was executed, or
that there was none left; it is never both. -/
structure Truthful (s : Session) (answer : Bool × Session) : Prop where
  changed_iff : answer.1 = true ↔
    answer.2.steps = s.steps + 1 ∨ s.finished = false ∧ answer.2.finished = true
  exclusive : ¬ (answer.2.steps = s.steps + 1 ∧ answer.2.finished = true)
  unchanged : answer.1 = false → answer.2 = s

theorem truthful_rest (s : Session) : s.Truthful (false, s) where
  changed_iff := by simp
  exclusive h := absurd h.1 (by simp)
  unchanged _ := rfl

theorem truthful_of_changed (hs : s.finished = false) (h : answer.1 = true ∧
    (answer.2.steps = s.steps + 1 ∧ answer.2.finished = false ∨
      answer.2.steps = s.steps ∧ answer.2.finished = true)) : s.Truthful answer := by
  obtain ⟨hanswer, ⟨hsteps, hfinished⟩ | ⟨hsteps, hfinished⟩⟩ := h
  · exact ⟨iff_of_true hanswer (Or.inl hsteps), fun h ↦ absurd h.2 (by simp [hfinished]),
      fun h ↦ absurd h (by simp [hanswer])⟩
  · exact ⟨iff_of_true hanswer (Or.inr ⟨hs, hfinished⟩), fun h ↦ absurd h.1 (by simp [hsteps]),
      fun h ↦ absurd h (by simp [hanswer])⟩

theorem Moves.truthful (h : s.Moves answer) : s.Truthful answer := by
  rcases hs : s.finished with - | -
  · exact truthful_of_changed hs (h.changed hs)
  · rw [h.eq_of_finished hs]
    exact s.truthful_rest

theorem step_of_running (h : s.running = true) : s.step = (false, s) := by
  rw [step, if_pos h]

theorem step_of_not_running (h : s.running = false) : s.step = s.proceed := by
  rw [step, if_neg (by simp [h])]

theorem update_of_not_running (h : s.running = false) (now : ℤ) :
    s.update now = (false, s) := by
  rw [update, h]
  rfl

theorem truthful_step (s : Session) : s.Truthful s.step := by
  rcases hrunning : s.running with - | -
  · rw [step_of_not_running hrunning]
    rcases s.proceed_cases with ⟨-, hsame⟩ | hmoves
    · rw [hsame]
      exact s.truthful_rest
    · exact hmoves.truthful
  · rw [step_of_running hrunning]
    exact s.truthful_rest

namespace Coherent

/-- An update that wants to execute an action is one of a session that is not finished. -/
theorem truthful (h : s.Coherent) {now : ℤ} (hupdates : s.Updates now answer) :
    s.Truthful answer := by
  cases hupdates with
  | stopped => exact s.truthful_rest
  | early => exact s.truthful_rest
  | waits => exact s.truthful_rest
  | moves hrunning _ hmoves =>
    have hs := h.unfinished hrunning
    exact truthful_of_changed hs (hmoves.changed hs)

end Coherent

/-! ### The end -/

namespace Coherent

theorem not_running (h : s.Coherent) (hs : s.finished = true) : s.running = false := by
  rcases hrunning : s.running with - | -
  · rfl
  · exact absurd hs (by simp [h.unfinished hrunning])

/-- **A finished session rests.** -/
theorem perform_of_finished (h : s.Coherent) (hs : s.finished = true) (hop : op ≠ .reset) :
    s.perform op = (op.idle, s) := by
  have hrunning := h.not_running hs
  cases op with
  | step =>
    have hstep : s.step = (false, s) := by
      rw [step_of_not_running hrunning]
      exact proceed_of_finished hs
    rw [Session.perform, hstep]
    rfl
  | run n =>
    have hrun : s.runSteps n.toNat = s := by
      cases n.toNat with
      | zero => rfl
      | succ n => rw [Session.runSteps, if_pos hs]
    rw [Session.perform, Session.run, hrun, Int.sub_self]
    rfl
  | start now =>
    rw [Session.perform, Session.start, if_pos (Or.inr hs)]
    rfl
  | update now =>
    rw [Session.perform, update_of_not_running hrunning]
    rfl
  | stop =>
    rw [Session.perform, Session.stop, if_neg (by simp [hrunning])]
    rfl
  | reset => exact absurd rfl hop

/-- It does so until it is started over: it can be given another table, and that is all. -/
theorem after_of_finished (h : s.Coherent) (hs : s.finished = true) {later : List Event}
    (hlater : Event.operation .reset ∉ later) : ∃ table, s.after later = s.useRecords table := by
  induction later generalizing s with
  | nil => exact ⟨s.records, rfl⟩
  | cons event later ih =>
    obtain ⟨hevent, hbehind⟩ := not_or.1 (mt List.mem_cons.2 hlater)
    cases event with
    | operation op =>
      have hop : op ≠ .reset := fun heq ↦ hevent (by rw [heq])
      have hhandle : s.handle (.operation op) = s :=
        congrArg Prod.snd (h.perform_of_finished hs hop)
      show ∃ table, (s.handle (.operation op)).after later = s.useRecords table
      rw [hhandle]
      exact ih h hs hbehind
    | useRecords table =>
      obtain ⟨table', hafter⟩ := ih (h.useRecords table) hs hbehind
      exact ⟨table', hafter⟩

end Coherent

/-- **The modes and answers of a session are consistent over every history.** Whatever has happened
to a session, if it is running it is not finished, and if it shows a failure it is finished. A step
and an update answer truthfully; in particular nothing at all has changed where they deny it. A step
of a running session and an update of one that is not running change nothing. Once a session is
finished, no operation changes anything or claims to have done so, until the session is started
over. -/
theorem modes_cohere (l : Level) (solution : Solution) (fps : Int64) (events : List Event)
    (s : Session) (hs : s = (Session.new l solution fps).after events) :
    (s.running = true → s.finished = false) ∧
    (s.failure ≠ none → s.finished = true) ∧
    s.Truthful s.step ∧
    (∀ now, s.Truthful (s.update now)) ∧
    (s.running = true → s.step = (false, s)) ∧
    (s.running = false → ∀ now, s.update now = (false, s)) ∧
    (s.finished = true → ∀ later, Event.operation .reset ∉ later →
      (∃ table, s.after later = s.useRecords table) ∧
      ∀ op, op ≠ .reset → (s.after later).perform op = (op.idle, s.after later)) := by
  have h : s.Coherent := hs ▸ (coherent_new l solution fps).after events
  refine ⟨h.unfinished, h.finished, s.truthful_step,
    fun now ↦ h.truthful (s.updates_update now), step_of_running,
    update_of_not_running, fun hfinished later hlater ↦ ?_⟩
  obtain ⟨table, hafter⟩ := h.after_of_finished hfinished hlater
  refine ⟨⟨table, hafter⟩, fun op hop ↦ ?_⟩
  have hstill : (s.after later).finished = true := by
    rw [hafter]
    exact hfinished
  exact (h.after later).perform_of_finished hstill hop

/-- The solution `a`, which calls a procedure that is not there. -/
def stray : Solution where
  source := Bytes.ofString "a"
  tree := ⟨[], [.call "a" [] ⟨0, 1⟩]⟩
  bytes := 1
  limits := .standard

/-- A batch fails on a session that was set running. Being stopped, updated and started again find
it finished, and do nothing. -/
theorem stray_at_rest : Solution.ofSource .standard (Bytes.ofString "a") = .ok stray ∧ ∃ s,
    s = (Session.new corridor stray 10).after [.operation (.start 0), .operation (.run 9)] ∧
    s.failure = some (.missingProcedure "a") ∧ s.finished = true ∧ s.running = false ∧
    ∀ op ∈ [Operation.stop, .update 5, .start 7, .step], s.perform op = (op.idle, s) := by
  have hreply : stray.machine.next.map (fun r ↦ (r.1, r.2.failure)) =
      some (.ended, some (.missingProcedure "a")) := by
    cbv
  obtain ⟨⟨reply, m⟩, hnext, hr⟩ := Option.map_eq_some_iff.1 hreply
  obtain ⟨rfl, hfailure⟩ := Prod.mk.inj hr
  obtain ⟨hrunning, hfinished, -, -, -, -, hrest⟩ := modes_cohere corridor stray 10
    [.operation (.start 0), .operation (.run 9)] _ rfl
  have hshown : ((Session.new corridor stray 10).after
      [.operation (.start 0), .operation (.run 9)]).failure = some (.missingProcedure "a") := by
    simpa [after, handle, perform, run, runSteps, proceed, move, start, Session.new, finished,
      hnext] using hfailure
  have hfinished := hfinished (by simp [hshown])
  refine ⟨by cbv, _, rfl, hshown, hfinished, ?_, fun op hop ↦ ?_⟩
  · exact Bool.eq_false_of_not_eq_true fun h ↦ absurd hfinished (by simp [hrunning h])
  · refine (hrest hfinished [] (by simp)).2 op fun heq ↦ ?_
    rw [heq] at hop
    exact absurd hop (by decide)

end Session

end RobotGolf
