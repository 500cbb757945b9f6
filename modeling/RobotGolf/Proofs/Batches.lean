import RobotGolf.Proofs.Modes
import RobotGolf.Proofs.SharedRecords
/-!
# Batches compose

Two batches, one behind the other, do what a single one of both sizes does, and what a batch does to
a session that is not running can be done in single steps as well (`Arcade.batches_compose`). This
is said of sessions in an arcade, where every action goes through a table that others may share.

* **A batch is a number of moves** (`Session.runSteps_eq_iterate`). It stops early at the end of the
  evaluation, but from there on moves have no effect. All that is said about batches follows from
  what is known of iterated functions and of one move.
* **What is done on one seat is done to one session** (`Arcade.perform?_put`). Between two
  operations the session is put back, and its records go back to their table. It is found with the
  same records again.

A session on a seat has a copy of the records from when an operation was last carried out there.
Nobody sees that copy, since the table is fetched anew each time. So arcades are compared when all
sessions have their tables at hand (`Arcade.shown`), and no event can tell them apart then
(`Arcade.shown_after_congr`).
-/

namespace RobotGolf

namespace Session

variable {s : Session} {answer : Bool × Session}

/-! ### A batch is a number of moves -/

/-- **A batch is a number of moves.** -/
theorem runSteps_eq_iterate (s : Session) (n : ℕ) : s.runSteps n = (fun s ↦ s.proceed.2)^[n] s := by
  induction n generalizing s with
  | zero => rfl
  | succ n ih =>
    rw [runSteps, Function.iterate_succ_apply]
    split
    · rename_i hfinished
      have hrest : s.proceed.2 = s := by rw [proceed_of_finished hfinished]
      rw [hrest]
      exact (Function.iterate_fixed hrest n).symm
    · exact ih s.proceed.2

theorem runSteps_add (s : Session) (m n : ℕ) :
    s.runSteps (m + n) = (s.runSteps m).runSteps n := by
  rw [runSteps_eq_iterate, runSteps_eq_iterate, runSteps_eq_iterate, Nat.add_comm,
    Function.iterate_add_apply]

/-- The last move of a batch. -/
theorem runSteps_succ (s : Session) (n : ℕ) : s.runSteps (n + 1) = (s.runSteps n).proceed.2 := by
  rw [runSteps_eq_iterate, runSteps_eq_iterate, Function.iterate_succ_apply']

theorem Moves.not_running (h : s.Moves answer) (hs : s.running = false) :
    answer.2.running = false := by
  cases h with
  | rest => exact hs
  | action => exact hs
  | ended => rfl

theorem proceed_not_running (h : s.running = false) : s.proceed.2.running = false := by
  rcases s.proceed_cases with ⟨-, hsame⟩ | hmoves
  · rw [hsame]
    exact h
  · exact hmoves.not_running h

/-- **Steps make up a batch**, unless the session is running. -/
theorem iterate_step (h : s.running = false) (n : ℕ) :
    (fun s ↦ (Session.perform s .step).2)^[n] s = s.runSteps n := by
  induction n generalizing s with
  | zero => rfl
  | succ n ih =>
    have hstep : (s.perform .step).2 = s.proceed.2 := congrArg Prod.snd (step_of_not_running h)
    rw [Function.iterate_succ_apply, hstep, ih (proceed_not_running h),
      runSteps_eq_iterate, runSteps_eq_iterate, Function.iterate_succ_apply]

/-- A batch counts at most its size, and all of it unless the evaluation has come to its end or a
request is never answered. -/
theorem steps_runSteps (s : Session) (n : ℕ) :
    s.steps ≤ (s.runSteps n).steps ∧ (s.runSteps n).steps ≤ s.steps + n ∧
      ((s.runSteps n).finished = false → (s.runSteps n).move ≠ none →
        (s.runSteps n).steps = s.steps + n) := by
  induction n with
  | zero => exact ⟨le_rfl, le_rfl, fun _ _ ↦ rfl⟩
  | succ n ih =>
    obtain ⟨hle, hbound, hall⟩ := ih
    rw [runSteps_succ]
    obtain hfinished | hunfinished := Bool.eq_false_or_eq_true (s.runSteps n).finished
    · rw [proceed_of_finished hfinished]
      exact ⟨hle, hbound.trans (Nat.le_succ _), fun h ↦ absurd h (by simp [hfinished])⟩
    rcases (s.runSteps n).proceed_cases with ⟨hmove, hsame⟩ | hmoves
    · rw [hsame]
      exact ⟨hle, hbound.trans (Nat.le_succ _), fun _ h ↦ absurd hmove h⟩
    · -- a session that moves has not waited for an answer before
      have hanswered : (s.runSteps n).move ≠ none := by
        intro hmove
        have hsame : (s.runSteps n).proceed = (false, s.runSteps n) := by rw [proceed, hmove]; rfl
        have hchanged := (hmoves.changed hunfinished).1
        rw [hsame] at hchanged
        exact Bool.false_ne_true hchanged
      have hsteps := hall hunfinished hanswered
      rcases (hmoves.changed hunfinished).2 with ⟨hmore, -⟩ | ⟨hsame, hend⟩
      · exact ⟨by omega, by omega, fun _ _ ↦ by omega⟩
      · exact ⟨by omega, by omega, fun h ↦ absurd h (by simp [hend])⟩

/-! ### Tables stay attached -/

theorem Moves.isSome_records (h : s.Moves answer) : answer.2.records.isSome = s.records.isSome := by
  cases h with
  | rest => rfl
  | action => exact Option.isSome_map
  | ended => rfl

theorem isSome_records_proceed (s : Session) :
    s.proceed.2.records.isSome = s.records.isSome := by
  rcases s.proceed_cases with ⟨-, hsame⟩ | hmoves
  · rw [hsame]
  · exact hmoves.isSome_records

theorem isSome_records_runSteps (s : Session) (n : ℕ) :
    (s.runSteps n).records.isSome = s.records.isSome :=
  runSteps_keeps (P := fun s' ↦ s'.records.isSome = s.records.isSome)
    (fun s' h ↦ s'.isSome_records_proceed.trans h) rfl n

theorem isSome_records_step (s : Session) :
    (s.perform .step).2.records.isSome = s.records.isSome := by
  show s.step.2.records.isSome = _
  rw [step]
  split
  · rfl
  · exact s.isSome_records_proceed

end Session

namespace Arcade

variable {a b : Arcade} {k : ℕ} {s s' : Seat} {y z : Session} {op : Operation}

/-! ### What is done on one seat -/

theorem setIfInBounds_eq_self {α : Type} {xs : Array α} {i : ℕ} {x : α} (h : xs[i]? = some x) :
    xs.setIfInBounds i x = xs := by
  obtain ⟨hlt, rfl⟩ := Array.getElem?_eq_some_iff.1 h
  rw [Array.setIfInBounds, dif_pos hlt, Array.set_getElem_self]

/-- The session on a seat, with its table at hand. -/
def atHand (a : Arcade) (s : Seat) : Session := s.session.useRecords (s.table.bind (a.tables[·]?))

/-- The arcade behind a session being put back on a seat, and its records into their table. -/
def put (a : Arcade) (k : ℕ) (s : Seat) : Arcade :=
  ⟨a.seats.setIfInBounds k s,
    (s.table.bind fun t ↦ s.session.records.map (a.tables.setIfInBounds t ·)).getD a.tables⟩

/-- A session has records at hand if, and only if, it is attached to a table. -/
def Attached (a : Arcade) (s : Seat) : Prop :=
  s.session.records.isSome = (s.table.bind (a.tables[·]?)).isSome

theorem sessionAt?_eq (hs : a.seats[k]? = some s) : a.sessionAt? k = some (a.atHand s) := by
  rw [sessionAt?, hs]
  rfl

/-- An operation takes a session from its seat and puts it back. -/
theorem perform?_eq (hs : a.seats[k]? = some s) (op : Operation) :
    a.perform? k op = some (((a.atHand s).perform op).1,
      a.put k ⟨((a.atHand s).perform op).2, s.table⟩) := by
  obtain ⟨session, table⟩ := s
  rw [perform?, hs, sessionAt?_eq hs]
  dsimp only
  generalize (a.atHand ⟨session, table⟩).perform op = done
  rcases table with - | t
  · rfl
  · rcases hrecords : done.2.records with - | r <;> simp [put, hrecords]

theorem seats_put (hs : a.seats[k]? = some s) : (a.put k s').seats[k]? = some s' := by
  obtain ⟨hlt, -⟩ := Array.getElem?_eq_some_iff.1 hs
  exact Array.getElem?_setIfInBounds_self_of_lt hlt

/-- What was put back is found again, records and all. -/
theorem Attached.atHand_put (h : a.Attached s) (k : ℕ) : (a.put k s).atHand s = s.session := by
  obtain ⟨session, table⟩ := s
  have hrecords : table.bind ((a.put k ⟨session, table⟩).tables[·]?) = session.records := by
    rcases table with - | t
    · exact (Option.isNone_iff_eq_none.1 (by simpa [Attached] using h)).symm
    · have htable : a.tables[t]?.isSome = session.records.isSome := h.symm
      rcases hsession : session.records with - | r <;> rw [hsession] at htable
      · have hnone : a.tables[t]? = none := Option.not_isSome_iff_eq_none.1 (by simp [htable])
        simpa [put, hsession] using hnone
      · obtain ⟨r', hr'⟩ := Option.isSome_iff_exists.1 htable
        obtain ⟨hlt, -⟩ := Array.getElem?_eq_some_iff.1 hr'
        simp [put, hsession, hlt]
  rw [atHand, hrecords]
  rfl

/-- Only the last time that a session is put back counts. -/
theorem put_put (h : z.records.isSome = y.records.isSome) (a : Arcade) (k : ℕ)
    (table : Option ℕ) : (a.put k ⟨y, table⟩).put k ⟨z, table⟩ = a.put k ⟨z, table⟩ := by
  rcases table with - | t
  · simp [put]
  · rcases hz : z.records with - | r <;> rcases hy : y.records with - | r' <;>
      simp_all [put]

/-- **Operations on one seat are operations on one session.** -/
theorem perform?_put (hs : a.seats[k]? = some s) (hy : a.Attached ⟨y, s.table⟩)
    (hop : (y.perform op).2.records.isSome = y.records.isSome) :
    (a.put k ⟨y, s.table⟩).perform? k op =
      some ((y.perform op).1, a.put k ⟨(y.perform op).2, s.table⟩) := by
  rw [perform?_eq (seats_put hs), hy.atHand_put, put_put hop]

theorem handle_put (hs : a.seats[k]? = some s) (hy : a.Attached ⟨y, s.table⟩)
    (hop : (y.perform op).2.records.isSome = y.records.isSome) :
    (a.put k ⟨y, s.table⟩).handle (.operation k op) = a.put k ⟨(y.perform op).2, s.table⟩ := by
  rw [handle, perform?_put hs hy hop]
  rfl

/-- An operation on one seat, time and again. -/
theorem after_replicate (hs : a.seats[k]? = some s) (hy : a.Attached ⟨y, s.table⟩)
    (hop : ∀ y : Session, (y.perform op).2.records.isSome = y.records.isSome) (n : ℕ) :
    (a.put k ⟨y, s.table⟩).after (List.replicate n (.operation k op)) =
      a.put k ⟨(fun y ↦ (Session.perform y op).2)^[n] y, s.table⟩ := by
  induction n generalizing y with
  | zero => rfl
  | succ n ih =>
    rw [List.replicate_succ, after, List.foldl_cons, handle_put hs hy (hop y)]
    exact ih ((hop y).trans hy)

/-! ### Arcades that look the same -/

/-- The arcade with the tables of all sessions at hand. -/
def shown (a : Arcade) : Arcade := ⟨a.seats.map fun s ↦ ⟨a.atHand s, s.table⟩, a.tables⟩

theorem seats_shown (a : Arcade) (k : ℕ) :
    a.shown.seats[k]? = a.seats[k]?.map fun s ↦ ⟨a.atHand s, s.table⟩ :=
  Array.getElem?_map

theorem shown_shown (a : Arcade) : a.shown.shown = a.shown := by
  simp [shown, atHand, Session.useRecords, Function.comp_def]

/-- It does not matter what the other seats have had at hand. -/
theorem shown_put (a : Arcade) (k : ℕ) (s : Seat) :
    (a.shown.put k s).shown = (a.put k s).shown := by
  simp [shown, put, atHand, Session.useRecords, Array.map_setIfInBounds, Function.comp_def]

theorem shown_moved (a : Arcade) (k : ℕ) (s : Seat) (table : Option ℕ) :
    shown ⟨a.shown.seats.setIfInBounds k ⟨a.atHand s, table⟩, a.shown.tables⟩ =
      shown ⟨a.seats.setIfInBounds k ⟨s.session, table⟩, a.tables⟩ := by
  simp [shown, atHand, Session.useRecords, Array.map_setIfInBounds, Function.comp_def]

/-- **Nothing depends on what is not shown**: the step lemma. -/
theorem shown_handle (a : Arcade) (event : Event) :
    (a.shown.handle event).shown = (a.handle event).shown := by
  cases event with
  | operation k op =>
    rcases hs : a.seats[k]? with - | s
    · have hshown : a.shown.seats[k]? = none := by rw [seats_shown, hs]; rfl
      rw [handle_operation_none hs, handle_operation_none hshown, shown_shown]
    · have hshown : a.shown.seats[k]? = some ⟨a.atHand s, s.table⟩ := by rw [seats_shown, hs]; rfl
      rw [handle, handle, perform?_eq hs, perform?_eq hshown]
      exact shown_put a k _
  | attach k table =>
    rcases hs : a.seats[k]? with - | s
    · have hshown : a.shown.seats[k]? = none := by rw [seats_shown, hs]; rfl
      simp only [handle, attach?, hs, hshown]
      exact shown_shown a
    · have hshown : a.shown.seats[k]? = some ⟨a.atHand s, s.table⟩ := by rw [seats_shown, hs]; rfl
      rcases table with - | t
      · simp only [handle, attach?, hs, hshown, Option.getD_some]
        exact shown_moved a k s none
      · have hsize : a.shown.tables.size = a.tables.size := rfl
        simp only [handle, attach?, hs, hshown, hsize]
        split
        · exact shown_moved a k s (some t)
        · exact shown_shown a

/-- Taking a session from its seat and putting it back changes nothing to be seen. -/
theorem shown_put_atHand (hs : a.seats[k]? = some s) :
    (a.put k ⟨a.atHand s, s.table⟩).shown = a.shown := by
  have hput : a.put k ⟨a.atHand s, s.table⟩ =
      ⟨a.seats.setIfInBounds k ⟨a.atHand s, s.table⟩, a.tables⟩ := by
    obtain ⟨session, table⟩ := s
    rcases table with - | t
    · rfl
    · rcases hr : a.tables[t]? with - | r
      · simp [put, atHand, Session.useRecords, hr]
      · simp [put, atHand, Session.useRecords, hr, setIfInBounds_eq_self hr]
  have hseats : a.shown.seats[k]? = some ⟨a.atHand s, s.table⟩ := by rw [seats_shown, hs]; rfl
  rw [hput, shown, Array.map_setIfInBounds]
  exact congrArg (Arcade.mk · a.tables) (setIfInBounds_eq_self hseats)

/-- The run lemma: no event can tell two arcades apart that look the same. -/
theorem shown_after_congr (h : a.shown = b.shown) (events : List Event) :
    (a.after events).shown = (b.after events).shown := by
  induction events generalizing a b with
  | nil => exact h
  | cons event events ih =>
    refine ih ?_
    rw [← shown_handle, h, shown_handle]

/-! ### Batches -/

theorem attached_atHand (a : Arcade) (s : Seat) : a.Attached ⟨a.atHand s, s.table⟩ := rfl

/-- What a batch does on a seat. -/
theorem perform?_run (hs : a.seats[k]? = some s) (n : ℕ) :
    a.perform? k (.run n) = some
      (.executed (((a.atHand s).runSteps n).steps - (a.atHand s).steps : ℤ),
        a.put k ⟨(a.atHand s).runSteps n, s.table⟩) := by
  rw [perform?_eq hs]
  rfl

/-- **Batches compose, and agree with single steps.** For every session in an arcade: a batch and
another one leave the arcade that one batch of both sizes leaves, all sessions and tables included,
and the numbers they return add up. A batch on a session that is not running leaves what as many
single steps leave, and nothing that happens later shows a difference. A batch returns how many
actions it has counted. This is at most its size, and less only if the session is finished then, or
else waits for an answer without end. -/
theorem batches_compose (a : Arcade) (k : ℕ) (s : Session) (hs : a.sessionAt? k = some s)
    (m n : ℕ) :
    (∃ i j b c, a.perform? k (.run m) = some (.executed i, b) ∧
      b.perform? k (.run n) = some (.executed j, c) ∧
      a.perform? k (.run (m + n)) = some (.executed (i + j), c)) ∧
    (s.running = false → ∀ later : List Event,
      ((a.handle (.operation k (.run n))).after later).shown =
        ((a.after (List.replicate n (.operation k .step))).after later).shown) ∧
    ∃ i b s', a.perform? k (.run n) = some (.executed i, b) ∧ b.sessionAt? k = some s' ∧
      i = (s'.steps : ℤ) - s.steps ∧ 0 ≤ i ∧ i ≤ n ∧ (i < n → s'.finished = true ∨
        ∃ m, s'.machine = some m ∧ m.next = none ∧ m.limits.silent = Int64.maxValue) := by
  obtain ⟨seat, hseat, hatHand⟩ := Option.map_eq_some_iff.1 hs
  obtain rfl : a.atHand seat = s := hatHand
  have hattached : ∀ n, a.Attached ⟨(a.atHand seat).runSteps n, seat.table⟩ := fun n ↦
    (Session.isSome_records_runSteps _ n).trans (a.attached_atHand seat)
  refine ⟨?_, fun hstopped later ↦ ?_, ?_⟩
  · refine ⟨_, _, _, _, perform?_run hseat m,
      perform?_put hseat (hattached m) (Session.isSome_records_runSteps _ n), ?_⟩
    rw [← Nat.cast_add, perform?_run hseat, Session.runSteps_add]
    have hsum : ∀ i j l : ℤ, l - i = j - i + (l - j) := by omega
    rw [hsum]
    rfl
  · refine shown_after_congr ?_ later
    have hbatch : a.handle (.operation k (.run n)) =
        a.put k ⟨(a.atHand seat).runSteps n, seat.table⟩ := by
      rw [handle, perform?_run hseat]
      rfl
    have hsteps := after_replicate hseat (a.attached_atHand seat) Session.isSome_records_step n
    rw [hbatch, ← Session.iterate_step hstopped, ← hsteps]
    exact shown_after_congr (shown_put_atHand hseat) _
  · obtain ⟨hle, hbound, hall⟩ := (a.atHand seat).steps_runSteps n
    have hfound : (a.put k ⟨(a.atHand seat).runSteps n, seat.table⟩).sessionAt? k =
        some ((a.atHand seat).runSteps n) := by
      rw [sessionAt?_eq (seats_put hseat), (hattached n).atHand_put]
    refine ⟨_, _, _, perform?_run hseat n, hfound, rfl, by omega, by omega, fun hless ↦ ?_⟩
    by_contra hcontra
    obtain ⟨hunfinished, hanswered⟩ := not_or.1 hcontra
    have hmove : ((a.atHand seat).runSteps n).move ≠ none := fun hmove ↦ by
      obtain ⟨m, hm, hnext⟩ := Session.move_eq_none_iff.1 hmove
      exact hanswered ⟨m, hm, hnext, Machine.silent_of_next_eq_none hnext⟩
    have hsteps := hall (Bool.eq_false_of_not_eq_true hunfinished) hmove
    omega

/-- A session that plays for a table. -/
def stand : Arcade := booth.handle (.attach 0 (some 0))

/-- The solution has two actions. A batch of one and another one of five count one each, a batch of
six counts both, and in six steps the session comes to the same end. -/
theorem stand_batches : ∃ s, stand.sessionAt? 0 = some s ∧ s.running = false ∧
    (stand.perform? 0 (.run 1)).map Prod.fst = some (.executed 1) ∧
    (stand.perform? 0 (.run 6)).map Prod.fst = some (.executed 2) ∧
    (∃ i j b c, stand.perform? 0 (.run 1) = some (.executed i, b) ∧
      b.perform? 0 (.run 5) = some (.executed j, c) ∧
      stand.perform? 0 (.run 6) = some (.executed (i + j), c)) ∧
    (stand.handle (.operation 0 (.run 5))).shown =
      (stand.after (List.replicate 5 (.operation 0 .step))).shown := by
  have hs : stand.sessionAt? 0 = some
      ((Session.new Session.corridor Session.dash 4).useRecords (some Records.empty)) := rfl
  obtain ⟨hcompose, hsteps, -⟩ := batches_compose stand 0 _ hs 1 5
  have hcounts : (stand.perform? 0 (.run 1)).map Prod.fst = some (.executed 1) ∧
      (stand.perform? 0 (.run 6)).map Prod.fst = some (.executed 2) := by
    cbv
    exact ⟨rfl, rfl⟩
  exact ⟨_, hs, rfl, hcounts.1, hcounts.2, hcompose, hsteps rfl []⟩

end Arcade

end RobotGolf
