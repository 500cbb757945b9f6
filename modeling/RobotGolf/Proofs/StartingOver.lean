import RobotGolf.Proofs.Modes
/-!
# Starting over forgets everything

A session that is started over shows what a new one shows, and goes on showing it whatever is done
to both from then on (`Session.reset_forgets_history`). What can be seen of a session is its `view`,
and what can be seen of a whole history its `transcript`, which has the answers as well.

Two runs are compared that differ in one respect only: a session that is started over keeps its
table of records. So tables are left out of the comparison.

* **No operation looks at the table**: leaving it out beforehand or afterwards is the same
  (`Session.perform_bare`), and transcripts do not show it (`Session.transcript_congr`).
* **No operation touches what starting over rests on**, which is the level, the solution and the
  frame. Behind any history, starting over leads back to the same session (`Session.reset_handle`).
-/

namespace RobotGolf

namespace Session

variable {s : Session} {answer : Bool × Session}

/-! ### What can be seen -/

/-- What a session shows, its record apart. -/
structure View where
  running : Bool
  finished : Bool
  points : Int64
  bestPoints : Int64
  steps : ℕ
  completed : Bool
  failure : Option Failure
  grid : List String
  world : World

/-- What a session shows now. -/
def view (s : Session) : View :=
  ⟨s.running, s.finished, s.points, s.bestPoints, s.steps, s.completed, s.failure, s.grid, s.world⟩

/-- The answer to an event. -/
def response (s : Session) : Event → Result
  | .operation op => (s.perform op).1
  | .useRecords _ => .none

/-- The answers to some events, and what the session shows behind each of them. -/
def transcript (s : Session) : List Event → List (Result × View)
  | [] => []
  | event :: events =>
    (s.response event, (s.handle event).view) :: (s.handle event).transcript events

/-! ### Tables -/

/-- A session without its table of records. -/
def bare (s : Session) : Session := s.useRecords none

@[simp]
theorem bare_running (s : Session) : s.bare.running = s.running := rfl

@[simp]
theorem bare_finished (s : Session) : s.bare.finished = s.finished := rfl

@[simp]
theorem bare_due (s : Session) : s.bare.due = s.due := rfl

@[simp]
theorem bare_frame (s : Session) : s.bare.frame = s.frame := rfl

@[simp]
theorem bare_began (s : Session) : s.bare.began = s.began := rfl

@[simp]
theorem bare_machine (s : Session) : s.bare.machine = s.machine := rfl

@[simp]
theorem bare_view (s : Session) : s.bare.view = s.view := rfl

theorem move_bare (s : Session) :
    s.bare.move = s.move.map fun moved ↦ (moved.1, moved.2.bare) := by
  rw [move, move, bare_machine]
  rcases s.machine with - | m
  · rfl
  · rcases hnext : m.next with - | ⟨a | - | -, m'⟩
    all_goals
      simp only [hnext]
      rfl

theorem proceed_bare (s : Session) : s.bare.proceed = (s.proceed.1, s.proceed.2.bare) := by
  rw [proceed, proceed, move_bare]
  rcases s.move with - | moved <;> rfl

theorem step_bare (s : Session) : s.bare.step = (s.step.1, s.step.2.bare) := by
  rw [step, step, bare_running]
  split
  · rfl
  · exact s.proceed_bare

theorem runSteps_bare (s : Session) (n : ℕ) : s.bare.runSteps n = (s.runSteps n).bare := by
  induction n generalizing s with
  | zero => rfl
  | succ n ih =>
    rw [runSteps, runSteps, bare_finished]
    split
    · rfl
    · rw [proceed_bare]
      exact ih s.proceed.2

theorem update_bare (s : Session) (now : ℤ) :
    s.bare.update now = ((s.update now).1, (s.update now).2.bare) := by
  have hmove : { s.bare with due := false }.move = _ := move_bare { s with due := false }
  rw [update, update, hmove, bare_running, bare_due, bare_frame, bare_began]
  -- from here on it does not matter what the move was
  generalize { s with due := false }.move = moved
  split
  · rfl
  · rcases moved with - | ⟨changed, s'⟩ <;> dsimp only [Option.map]
    · split <;> rfl
    · split
      · split <;> rfl
      · rfl

/-- **No operation looks at the table.** -/
theorem perform_bare (s : Session) (op : Operation) :
    s.bare.perform op = ((s.perform op).1, (s.perform op).2.bare) := by
  cases op with
  | step => rw [perform, perform, step_bare]
  | run n =>
    rw [perform, perform, run, run, runSteps_bare]
    rfl
  | start now =>
    rw [perform, perform, start, start, bare_running, bare_finished]
    split <;> rfl
  | update now => rw [perform, perform, update_bare]
  | stop =>
    rw [perform, perform, stop, stop, bare_running]
    split <;> rfl
  | reset => rfl

theorem bare_handle (s : Session) (event : Event) :
    (s.bare.handle event).bare = (s.handle event).bare := by
  cases event with
  | operation op =>
    show (s.bare.perform op).2.bare = (s.perform op).2.bare
    rw [perform_bare]
    rfl
  | useRecords table => rfl

theorem response_bare (s : Session) (event : Event) : s.bare.response event = s.response event := by
  cases event with
  | operation op =>
    show (s.bare.perform op).1 = (s.perform op).1
    rw [perform_bare]
  | useRecords table => rfl

theorem view_congr {s' : Session} (h : s.bare = s'.bare) : s.view = s'.view := by
  rw [← bare_view, h, bare_view]

/-- Nor can it be told from a transcript. -/
theorem transcript_congr {s' : Session} (h : s.bare = s'.bare) (events : List Event) :
    s.transcript events = s'.transcript events := by
  induction events generalizing s s' with
  | nil => rfl
  | cons event events ih =>
    have hhandle : (s.handle event).bare = (s'.handle event).bare := by
      rw [← bare_handle, h, bare_handle]
    have hresponse : s.response event = s'.response event := by
      rw [← response_bare, h, response_bare]
    rw [transcript, transcript, ih hhandle, hresponse, view_congr hhandle]

/-! ### Starting over -/

theorem Moves.reset_bare (h : s.Moves answer) : answer.2.reset.bare = s.reset.bare := by
  cases h with
  | rest => rfl
  | action => rfl
  | ended => rfl

theorem Updates.reset_bare {now : ℤ} (h : s.Updates now answer) :
    answer.2.reset.bare = s.reset.bare := by
  cases h with
  | stopped => rfl
  | early => rfl
  | waits => rfl
  | moves _ _ hmoves => exact hmoves.reset_bare

theorem reset_proceed (s : Session) : s.proceed.2.reset.bare = s.reset.bare := by
  rcases s.proceed_cases with ⟨-, hsame⟩ | hmoves
  · rw [hsame]
  · exact hmoves.reset_bare

theorem reset_runSteps (s : Session) (n : ℕ) : (s.runSteps n).reset.bare = s.reset.bare :=
  runSteps_keeps (P := fun s' ↦ s'.reset.bare = s.reset.bare)
    (fun s' h ↦ s'.reset_proceed.trans h) rfl n

/-- **The step lemma**: no event touches what starting over rests on. -/
theorem reset_handle (s : Session) (event : Event) :
    (s.handle event).reset.bare = s.reset.bare := by
  cases event with
  | useRecords table => rfl
  | operation op =>
    cases op with
    | step =>
      show s.step.2.reset.bare = s.reset.bare
      rw [step]
      split
      · rfl
      · exact s.reset_proceed
    | run n => exact s.reset_runSteps n.toNat
    | start now =>
      show (s.start now).reset.bare = s.reset.bare
      rw [start]
      split <;> rfl
    | update now => exact (s.updates_update now).reset_bare
    | stop =>
      show s.stop.reset.bare = s.reset.bare
      rw [stop]
      split <;> rfl
    | reset => rfl

/-- **The run lemma**: neither does a history. -/
theorem reset_after (s : Session) (events : List Event) :
    (s.after events).reset.bare = s.reset.bare := by
  induction events generalizing s with
  | nil => rfl
  | cons event events ih => exact (ih (s.handle event)).trans (s.reset_handle event)

/-- **Starting over forgets everything.** Whatever has been done to a session, and whether or not it
was given a table of records: once it is started over it shows what a new session for the same
level, solution and pace shows. Whatever is done to both from then on, they give the same answers,
and show the same behind each of them. -/
theorem reset_forgets_history (l : Level) (solution : Solution) (fps : Int64)
    (earlier later : List Event) :
    ((Session.new l solution fps).after (earlier ++ [.operation .reset])).view =
        (Session.new l solution fps).view ∧
      ((Session.new l solution fps).after (earlier ++ [.operation .reset])).transcript later =
        (Session.new l solution fps).transcript later := by
  have hsame : ((Session.new l solution fps).after (earlier ++ [.operation .reset])).bare =
      (Session.new l solution fps).bare := by
    rw [after, List.foldl_append]
    exact reset_after (Session.new l solution fps) earlier
  exact ⟨view_congr hsame, transcript_congr hsame later⟩

end Session

end RobotGolf
