import RobotGolf.Level.Load
import RobotGolf.Proofs.Refinement
import RobotGolf.Proofs.Runs
import RobotGolf.Session.Arcade
/-!
# A session shows the replay of its solution

Four operations execute actions of one evaluation: single steps, batches, updates by the clock, and
starting over in between. Whatever is done to a session, in any order and with any arguments, it
shows what a fresh evaluation of its solution gives if its first actions are applied to a fresh
world, as many of them as the session has counted (`Session.shows_replay`).

`Session.Replays` is the invariant. It ties the session to the actions of a fresh evaluation and to
the machine behind these, which is the machine that the session holds as long as it is not finished.
All four operations execute actions by `Session.move`, so the step lemma `Replays.move` is about
that, and the run lemma is `exists_replays_after`. Starting, stopping and being attached to a table
change nothing that the invariant looks at (`Replays.of_same`).
-/

namespace RobotGolf

theorem Solution.wellFormed_of_ofSource {limits : Limits} {source : Bytes} {solution : Solution}
    (h : ofSource limits source = .ok solution) : solution.tree.WellFormed := by
  rw [ofSource] at h
  rcases hparse : Program.parse source with e | tree <;> rw [hparse] at h
  · simp at h
  · obtain rfl : ⟨source, tree, tree.cost, limits⟩ = solution := by simpa using h
    exact Grammar.wellFormed_of_parse hparse

/-- What can happen to a session: an operation, or being attached to a table of records, in
whatever state other sessions have left that. -/
inductive Session.Event where
  | operation (op : Operation)
  | useRecords (table : Option Records)

namespace Session

/-- The session behind an event. -/
def handle (s : Session) : Event → Session
  | .operation op => (s.perform op).2
  | .useRecords table => s.useRecords table

/-- The session behind some events. -/
def after (s : Session) (events : List Event) : Session := events.foldl handle s

/-- Zero, and the scores after the first action, after the first two, and so on. -/
def scores (l : Level) (bytes : Int64) (actions : List Action) : Set Int64 :=
  {x | x = 0 ∨ ∃ i, 1 ≤ i ∧ i ≤ actions.length ∧
    x = ((World.start l).run (actions.take i)).score bytes}

theorem run_concat (w : World) (actions : List Action) (a : Action) :
    w.run (actions ++ [a]) = (w.run actions).step a := by
  rw [World.run, World.run, List.foldl_append, List.foldl_cons, List.foldl_nil]

theorem scores_nil (l : Level) (bytes : Int64) : scores l bytes [] = {0} := by
  ext x
  simp only [scores, Set.mem_ofPred_eq, Set.mem_singleton_iff, List.length_nil]
  refine ⟨?_, Or.inl⟩
  rintro (hx | ⟨i, hpos, hle, -⟩)
  · exact hx
  · omega

/-- One more action adds the score behind it. -/
theorem scores_concat (l : Level) (bytes : Int64) (actions : List Action) (a : Action) :
    scores l bytes (actions ++ [a]) =
      insert (((World.start l).run (actions ++ [a])).score bytes) (scores l bytes actions) := by
  ext x
  simp only [scores, Set.mem_insert_iff, Set.mem_ofPred_eq, List.length_append,
    List.length_singleton]
  constructor
  · rintro (hx | ⟨i, hpos, hle, hx⟩)
    · exact Or.inr (Or.inl hx)
    · rcases Nat.lt_or_ge actions.length i with hlast | hbefore
      · obtain rfl : i = actions.length + 1 := by omega
        rw [List.take_of_length_le (by simp)] at hx
        exact Or.inl hx
      · rw [List.take_append_of_le_length hbefore] at hx
        exact Or.inr (Or.inr ⟨i, hpos, hbefore, hx⟩)
  · rintro (hx | hx | ⟨i, hpos, hle, hx⟩)
    · refine Or.inr ⟨actions.length + 1, by omega, le_rfl, ?_⟩
      rw [List.take_of_length_le (by simp)]
      exact hx
    · exact Or.inl hx
    · refine Or.inr ⟨i, hpos, by omega, ?_⟩
      rw [List.take_append_of_le_length hle]
      exact hx

/-- Keeping the larger one of the best points and the new ones keeps the greatest. -/
theorem isGreatest_insert {xs : Set Int64} {best : Int64} (h : IsGreatest xs best)
    (points : Int64) : IsGreatest (insert points xs) (if best < points then points else best) := by
  by_cases hlt : best < points
  · rw [if_pos hlt]
    refine ⟨Set.mem_insert _ _, ?_⟩
    rintro x (rfl | hx)
    · exact Int64.le_refl x
    · exact Int64.le_trans (h.2 hx) (Int64.le_of_lt hlt)
  · rw [if_neg hlt]
    refine ⟨Set.mem_insert_of_mem _ h.1, ?_⟩
    rintro x (rfl | hx)
    · exact Int64.not_lt.1 hlt
    · exact h.2 hx

/-! ### The invariant -/

/-- The session has executed some actions, which are the first ones of a fresh evaluation and leave
the machine `m`, and shows what they come to. -/
structure Replays (l : Level) (solution : Solution) (actions : List Action) (m : Machine)
    (s : Session) : Prop where
  level_eq : s.level = l
  solution_eq : s.solution = solution
  taken : solution.machine.take actions.length = (some actions, m)
  tidy : m.Tidy
  steps : s.steps = actions.length
  world : s.world = (World.start l).run actions
  points : s.points =
    if actions.length = 0 then 0 else s.world.score (Int64.ofNat solution.bytes)
  best : IsGreatest (scores l (Int64.ofNat solution.bytes) actions) s.bestPoints
  /-- The evaluation is at `m`, or was there when it came to its end. -/
  evaluation : (s.machine = some m ∧ s.failure = none) ∨
    (s.machine = none ∧ ∃ m', m.next = some (.ended, m') ∧ s.failure = m'.failure)

variable {l : Level} {solution : Solution} {actions : List Action} {m : Machine} {s s' : Session}

/-- The clock and the table of records have no part in it. -/
theorem Replays.of_same (h : s.Replays l solution actions m)
    (hsame : s' = { s with
      records := s'.records
      running := s'.running
      due := s'.due
      began := s'.began }) : s'.Replays l solution actions m := by
  rw [hsame]
  exact ⟨h.level_eq, h.solution_eq, h.taken, h.tidy, h.steps, h.world, h.points, h.best,
    h.evaluation⟩

/-- A session that starts over has executed nothing. -/
theorem replays_reset (hsolution : solution.tree.WellFormed) (hlevel : s.level = l)
    (hs : s.solution = solution) : s.reset.Replays l solution [] solution.machine where
  level_eq := hlevel
  solution_eq := hs
  taken := rfl
  tidy := Machine.tidy_start hsolution solution.limits
  steps := rfl
  world := by
    show World.start s.level = World.start l
    rw [hlevel]
  points := rfl
  best := by
    rw [scores_nil]
    refine ⟨rfl, ?_⟩
    rintro x rfl
    exact Int64.le_refl 0
  evaluation := Or.inl ⟨by rw [← hs]; rfl, rfl⟩

/-- So has a new one. -/
theorem replays_new (hsolution : solution.tree.WellFormed) (l : Level) (fps : Int64) :
    (Session.new l solution fps).Replays l solution [] solution.machine :=
  (replays_reset (s := Session.new l solution fps) hsolution rfl rfl).of_same rfl

/-- **The step lemma**: executing the next action replays one action more, and none at the end of
the evaluation. -/
theorem Replays.move (h : s.Replays l solution actions m) {moved : Bool × Session}
    (hmove : s.move = some moved) : ∃ actions' m', moved.2.Replays l solution actions' m' := by
  rw [Session.move] at hmove
  rcases h.evaluation with ⟨hmachine, hfailure⟩ | ⟨hmachine, -⟩ <;> rw [hmachine] at hmove
  · dsimp only at hmove
    rcases hnext : m.next with - | ⟨a | - | -, m'⟩ <;> rw [hnext] at hmove
    · simp at hmove
    · -- an action is applied first and scored then
      obtain rfl := Option.some.inj hmove
      have hworld : s.world.step a = (World.start l).run (actions ++ [a]) := by
        rw [run_concat, h.world]
      have htaken :
          solution.machine.take (actions ++ [a]).length = (some (actions ++ [a]), m') := by
        rw [List.length_append, List.length_singleton, Machine.take_add_of_full h.taken]
        simp [Machine.takeOnto, hnext]
      have hbytes : s.solution.bytes = solution.bytes := by rw [h.solution_eq]
      refine ⟨actions ++ [a], m', h.level_eq, h.solution_eq, htaken, ?_, ?_, hworld, ?_, ?_,
        Or.inl ⟨rfl, hfailure⟩⟩
      · cases Machine.next_follows h.tidy hnext with
        | action tidy _ _ => exact tidy
      · show s.steps + 1 = (actions ++ [a]).length
        rw [h.steps, List.length_append, List.length_singleton]
      · show (s.world.step a).score (Int64.ofNat s.solution.bytes) = _
        rw [hbytes, if_neg (by simp)]
        rfl
      · rw [scores_concat, ← hworld, ← hbytes]
        exact isGreatest_insert (hbytes ▸ h.best) _
    · obtain rfl := Option.some.inj hmove
      exact ⟨actions, m, h.level_eq, h.solution_eq, h.taken, h.tidy, h.steps, h.world, h.points,
        h.best, Or.inr ⟨rfl, m', hnext, rfl⟩⟩
    · cases Machine.next_follows h.tidy hnext
  · obtain rfl := Option.some.inj hmove
    exact ⟨actions, m, h⟩

theorem Replays.proceed (h : s.Replays l solution actions m) :
    ∃ actions' m', s.proceed.2.Replays l solution actions' m' := by
  rw [Session.proceed]
  rcases hmove : s.move with - | moved
  · exact ⟨actions, m, h⟩
  · exact h.move hmove

theorem Replays.runSteps (h : s.Replays l solution actions m) (n : ℕ) :
    ∃ actions' m', (s.runSteps n).Replays l solution actions' m' := by
  induction n generalizing s actions m with
  | zero => exact ⟨actions, m, h⟩
  | succ n ih =>
    rw [Session.runSteps]
    split
    · exact ⟨actions, m, h⟩
    · obtain ⟨actions', m', h'⟩ := h.proceed
      exact ih h'

/-- What an update can do: nothing, or a move that is no longer due, with a new frame if the present
one is over. -/
theorem update_cases (s : Session) (now : ℤ) : s.update now = (false, s) ∨
    ∃ moved, { s with due := false }.move = some moved ∧
      s.update now = (moved.1, { moved.2 with
        began := if s.frame.toInt < now - s.began then now else moved.2.began }) := by
  rw [update]
  split
  · exact Or.inl rfl
  dsimp only
  split
  · generalize hmove : { s with due := false }.move = moved
    rcases moved with - | ⟨changed, s'⟩
    · exact Or.inl rfl
    · refine Or.inr ⟨_, rfl, ?_⟩
      by_cases hover : s.frame.toInt < now - s.began <;> simp [hover]
  · exact Or.inl rfl

/-- Every operation keeps the invariant. -/
theorem Replays.perform (hsolution : solution.tree.WellFormed)
    (h : s.Replays l solution actions m) (op : Operation) :
    ∃ actions' m', (s.perform op).2.Replays l solution actions' m' := by
  cases op with
  | step =>
    show ∃ actions' m', s.step.2.Replays l solution actions' m'
    unfold Session.step
    split
    · exact ⟨actions, m, h⟩
    · exact h.proceed
  | run n => exact h.runSteps n.toNat
  | start now =>
    show ∃ actions' m', (s.start now).Replays l solution actions' m'
    unfold Session.start
    split
    · exact ⟨actions, m, h⟩
    · have hstarted : Replays l solution actions m
          { s with running := true, due := true, began := now } := h.of_same rfl
      exact ⟨actions, m, hstarted⟩
  | update now =>
    show ∃ actions' m', (s.update now).2.Replays l solution actions' m'
    rcases s.update_cases now with hsame | ⟨moved, hmove, hupdate⟩
    · rw [hsame]
      exact ⟨actions, m, h⟩
    · -- what has moved is shown whether or not a new frame begins
      have hnotDue : Replays l solution actions m { s with due := false } := h.of_same rfl
      obtain ⟨actions', m', h'⟩ := hnotDue.move hmove
      rw [hupdate]
      exact ⟨actions', m', h'.of_same rfl⟩
  | stop =>
    show ∃ actions' m', s.stop.Replays l solution actions' m'
    unfold Session.stop
    split
    · exact ⟨actions, m, h.of_same rfl⟩
    · exact ⟨actions, m, h⟩
  | reset => exact ⟨[], solution.machine, replays_reset hsolution h.level_eq h.solution_eq⟩

/-- **The run lemma**: so does every sequence of events. -/
theorem Replays.exists_replays_after (hsolution : solution.tree.WellFormed)
    (h : s.Replays l solution actions m) (events : List Event) :
    ∃ actions' m', (s.after events).Replays l solution actions' m' := by
  induction events generalizing s actions m with
  | nil => exact ⟨actions, m, h⟩
  | cons event events ih =>
    obtain ⟨actions', m', h'⟩ : ∃ actions' m', (s.handle event).Replays l solution actions' m' := by
      cases event with
      | operation op => exact h.perform hsolution op
      | useRecords table => exact ⟨actions, m, h.of_same rfl⟩
    exact ih h'

/-- At the end of the evaluation there are no more actions, however many are requested. -/
theorem Replays.take_of_finished (h : s.Replays l solution actions m)
    (hfinished : s.finished = true) {n : ℕ} (hn : actions.length < n) :
    ∃ m', solution.machine.take n = (some actions, m') ∧ m'.failure = s.failure := by
  rcases h.evaluation with ⟨hmachine, -⟩ | ⟨-, m', hnext, hfailure⟩
  · simp [Session.finished, hmachine] at hfinished
  · refine ⟨m', ?_, hfailure.symm⟩
    obtain ⟨k, rfl⟩ : ∃ k, n = actions.length + (k + 1) :=
      ⟨n - actions.length - 1, by omega⟩
    rw [Machine.take_add_of_full h.taken, Machine.takeOnto, hnext, List.reverse_reverse]

/-- **A session always shows the faithful replay of its solution.** Behind any events, a fresh
evaluation of the solution delivers at least as many actions as the session has counted. The world
of the session is a fresh one in which these have been applied; its points are the score of that
world, or zero if there were no actions; and its best points are the greatest of zero and of the
scores behind the first action, the first two, and so on up to all of them. If the session is
finished, the evaluation has no further actions, and ends with the failure that the session
shows. -/
theorem shows_replay {limits : Limits} {source : Bytes} {solution : Solution}
    (hsolution : Solution.ofSource limits source = .ok solution) (l : Level) (fps : Int64)
    (events : List Event) (s : Session) (hs : s = (Session.new l solution fps).after events) :
    ∃ actions m, actions.length = s.steps ∧
      solution.machine.take s.steps = (some actions, m) ∧
      s.world = (World.start l).run actions ∧
      s.points = (if s.steps = 0 then 0 else s.world.score (Int64.ofNat solution.bytes)) ∧
      IsGreatest {x | x = 0 ∨ ∃ i, 1 ≤ i ∧ i ≤ s.steps ∧ x = ((World.start l).run
        (actions.take i)).score (Int64.ofNat solution.bytes)} s.bestPoints ∧
      (s.finished = true → ∀ n, s.steps < n →
        ∃ m', solution.machine.take n = (some actions, m') ∧ m'.failure = s.failure) := by
  have hwf := Solution.wellFormed_of_ofSource hsolution
  obtain ⟨actions, m, h⟩ := (replays_new hwf l fps).exists_replays_after hwf events
  rw [← hs] at h
  have hsteps := h.steps
  refine ⟨actions, m, hsteps.symm, ?_, h.world, ?_, ?_, ?_⟩
  · rw [hsteps]
    exact h.taken
  · rw [hsteps]
    exact h.points
  · rw [hsteps]
    exact h.best
  · intro hfinished n hn
    exact h.take_of_finished hfinished (hsteps ▸ hn)

/-- Three cells, the robot in the first and a button in the last one. -/
def corridor : Level :=
  Level.ofGrid "corridor" 1 3 100 10 ⟨Position.ofIndex 0 0, .right⟩ [[.empty, .empty, .white]]

/-- The solution `ss`. -/
def dash : Solution where
  source := Bytes.ofString "ss"
  tree := ⟨[], [.command .forward ⟨0, 1⟩, .command .forward ⟨1, 2⟩]⟩
  bytes := 2
  limits := .standard

/-- Behind a step, a pause, an action by the clock and a batch, with a table of records given in
between, both steps have been counted and the session is finished. The corridor is where a replay of
the solution leaves it. -/
theorem corridor_replayed :
    Level.parse ⟨1, 3, "corridor"⟩ (Bytes.ofString "r.w\n100\n10") = .ok corridor ∧
    Solution.ofSource .standard (Bytes.ofString "ss") = .ok dash ∧
    ∃ s, s = (Session.new corridor dash 10).after [.operation .step, .operation (.start 0),
        .operation .stop, .operation (.start 5), .operation (.update 7),
        .useRecords (some Records.empty), .operation (.run 9)] ∧
      s.steps = 2 ∧ s.finished = true ∧
      ∃ actions m, dash.machine.take 2 = (some actions, m) ∧
        s.world = (World.start corridor).run actions ∧
        ∀ n, 2 < n → ∃ m', dash.machine.take n = (some actions, m') ∧ m'.failure = s.failure := by
  have hsolution : Solution.ofSource .standard (Bytes.ofString "ss") = .ok dash := by cbv
  have hfirst : dash.machine.next.map Prod.fst = some (.action (.command .forward)) := by cbv
  have hsecond : (dash.machine.next.bind fun r ↦ r.2.next.map Prod.fst) =
      some (.action (.command .forward)) := by
    cbv
  have hthird : (dash.machine.next.bind fun r ↦ r.2.next.bind fun r ↦ r.2.next.map Prod.fst) =
      some .ended := by
    cbv
  obtain ⟨⟨-, m₁⟩, hnext, rfl⟩ := Option.map_eq_some_iff.1 hfirst
  simp only [hnext, Option.bind_some] at hsecond hthird
  obtain ⟨⟨-, m₂⟩, hnext₁, rfl⟩ := Option.map_eq_some_iff.1 hsecond
  simp only [hnext₁, Option.bind_some] at hthird
  obtain ⟨⟨-, m₃⟩, hnext₂, rfl⟩ := Option.map_eq_some_iff.1 hthird
  obtain ⟨s, hs⟩ : ∃ s, s = (Session.new corridor dash 10).after [.operation .step,
    .operation (.start 0), .operation .stop, .operation (.start 5), .operation (.update 7),
    .useRecords (some Records.empty), .operation (.run 9)] := ⟨_, rfl⟩
  have hframe : (frameOf 10).toInt = 100000000 := by decide
  have hseen : s.steps = 2 ∧ s.finished = true := by
    rw [hs]
    simp [after, handle, Session.perform, Session.step, Session.start, Session.stop, Session.update,
      Session.move, Session.proceed, Session.run, Session.runSteps, Session.execute, Session.new,
      Session.finished, Session.useRecords, hnext, hnext₁, hnext₂, hframe]
  obtain ⟨actions, m, -, htake, hworld, -, -, hfinished⟩ := shows_replay hsolution corridor 10
    _ s hs
  rw [hseen.1] at htake hfinished
  exact ⟨by cbv, hsolution, s, hs, hseen.1, hseen.2, actions, m, htake, hworld, hfinished hseen.2⟩

end Session

end RobotGolf
