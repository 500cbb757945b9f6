import Mathlib.Data.Set.Card
import RobotGolf.Proofs.Replay
import RobotGolf.Session.Records
/-!
# Tables keep the best of what sessions enter

A table of records is filled by entering points for fingerprints, one after the other. Whatever has
been entered, the record for a fingerprint is the greatest of zero and of the points that were
entered for it, and the table has an entry for each fingerprint with positive points and for no
other one. `Records.Keeps` states this of a table and a list of what was entered. Entering points
keeps it (`Keeps.submit`), and what it says of the number of entries is `Keeps.size`.

A session enters the score of every action that it executes. Which actions these are is told without
looking at the table: a session counts its actions, so two states of it tell which ones came in
between, and the score of the n-th action is the one of a fresh world behind the first `n` actions
of a fresh evaluation (`Session.scoreAt`). `Session.Enters` says that the scores in between are what
has been entered into the table at hand, and holds of every operation
(`Session.Replays.enters_perform`).
-/

namespace RobotGolf

/-! ### Tables -/

namespace Records

variable {r : Records} {f : String} {x : Int64} {scores : List (String × Int64)}

theorem lookup_filter_ne {g : String} (entries : List (String × Int64)) (h : g ≠ f) :
    (entries.filter (·.1 != f)).lookup g = entries.lookup g := by
  induction entries with
  | nil => rfl
  | cons e entries ih =>
    by_cases he : e.1 = f
    · have hother : (g == e.1) = false := by simpa [he] using h
      rw [List.filter_cons_of_neg (by simp [he]), List.lookup_cons, hother, ih]
    · rw [List.filter_cons_of_pos (by simpa using he), List.lookup_cons, List.lookup_cons, ih]

/-- What entering points does to a record. -/
theorem best_submit (r : Records) (f : String) (x : Int64) (g : String) :
    (r.submit f x).best g = if g = f ∧ r.best f < x then x else r.best g := by
  rw [submit]
  split
  · rename_i hle
    rw [if_neg fun h ↦ Int64.not_lt.2 hle h.2]
  · rename_i hlt
    rw [best, List.lookup_cons]
    by_cases hg : g = f
    · rw [if_pos ⟨hg, Int64.not_le.1 hlt⟩, hg, beq_self_eq_true]
      rfl
    · rw [if_neg fun h ↦ hg h.1, beq_false_of_ne hg]
      dsimp only
      rw [lookup_filter_ne r.entries hg, best]

/-- The table of some scores that were entered, each for a fingerprint. -/
structure Keeps (r : Records) (scores : List (String × Int64)) : Prop where
  nodup : (r.entries.map Prod.fst).Nodup
  pos : ∀ e ∈ r.entries, 0 < e.2
  isGreatest : ∀ f, IsGreatest {x | x = 0 ∨ (f, x) ∈ scores} (r.best f)

theorem keeps_empty : empty.Keeps [] where
  nodup := List.nodup_nil
  pos := by simp [empty]
  isGreatest f := by
    refine ⟨Or.inl rfl, ?_⟩
    rintro x (rfl | hx)
    · exact Int64.le_refl 0
    · simp at hx

namespace Keeps

theorem best_nonneg (h : r.Keeps scores) (f : String) : 0 ≤ r.best f :=
  (h.isGreatest f).2 (Or.inl rfl)

/-- **The step lemma**: entering points for a fingerprint. -/
theorem submit (h : r.Keeps scores) (f : String) (x : Int64) :
    (r.submit f x).Keeps (scores ++ [(f, x)]) where
  nodup := by
    rw [Records.submit]
    split
    · exact h.nodup
    · refine List.nodup_cons.2 ⟨?_, h.nodup.sublist (List.filter_sublist.map Prod.fst)⟩
      simp
  pos := by
    rw [Records.submit]
    split
    · exact h.pos
    · rename_i hlt
      refine List.forall_mem_cons.2 ⟨?_, fun e he ↦ h.pos e (List.mem_filter.1 he).1⟩
      exact Int64.lt_of_le_of_lt (h.best_nonneg f) (Int64.not_le.1 hlt)
  isGreatest g := by
    rw [best_submit]
    by_cases hg : g = f
    · have hset : {y | y = 0 ∨ (g, y) ∈ scores ++ [(f, x)]} =
          insert x {y | y = 0 ∨ (g, y) ∈ scores} := by
        ext y
        simp only [hg, List.mem_append, List.mem_singleton, Prod.mk.injEq, true_and,
          Set.mem_ofPred_eq, Set.mem_insert_iff]
        tauto
      rw [hset]
      simpa [hg] using Session.isGreatest_insert (h.isGreatest g) x
    · have hset : {y | y = 0 ∨ (g, y) ∈ scores ++ [(f, x)]} = {y | y = 0 ∨ (g, y) ∈ scores} := by
        ext y
        simp [hg]
      rw [hset, if_neg fun hgf ↦ hg hgf.1]
      exact h.isGreatest g

/-- Several points, one after the other. -/
theorem submits (h : r.Keeps scores) (f : String) (points : List Int64) :
    (points.foldl (·.submit f ·) r).Keeps (scores ++ points.map (f, ·)) := by
  induction points generalizing r scores with
  | nil => simpa using h
  | cons x points ih =>
    rw [List.foldl_cons, List.map_cons, List.append_cons]
    exact ih (h.submit f x)

theorem mem_keys_iff (h : r.Keeps scores) : f ∈ r.entries.map Prod.fst ↔ 0 < r.best f := by
  rw [best]
  rcases hlookup : r.entries.lookup f with - | x
  · rw [List.lookup_eq_none_iff] at hlookup
    refine iff_of_false ?_ (Int64.lt_irrefl)
    intro hf
    obtain ⟨e, he, rfl⟩ := List.mem_map.1 hf
    simpa using hlookup e he
  · obtain ⟨front, back, hentries, -⟩ := List.lookup_eq_some_iff.1 hlookup
    have hmem : (f, x) ∈ r.entries := by simp [hentries]
    exact iff_of_true (List.mem_map.2 ⟨_, hmem, rfl⟩) (h.pos _ hmem)

/-- **The entries are counted by the fingerprints with positive points.** -/
theorem size (h : r.Keeps scores) : r.size = {f | ∃ x, (f, x) ∈ scores ∧ 0 < x}.ncard := by
  have hkeys : {f | ∃ x, (f, x) ∈ scores ∧ 0 < x} = (r.entries.map Prod.fst).toFinset := by
    ext f
    rw [List.coe_toFinset, Set.mem_ofPred_eq, Set.mem_ofPred_eq, h.mem_keys_iff]
    obtain ⟨hmem, hbound⟩ := h.isGreatest f
    constructor
    · rintro ⟨x, hx, hpos⟩
      exact Int64.lt_of_lt_of_le hpos (hbound (Or.inr hx))
    · intro hpos
      rcases hmem with hzero | hmem
      · rw [hzero] at hpos
        exact absurd hpos Int64.lt_irrefl
      · exact ⟨_, hmem, hpos⟩
  rw [hkeys, Set.ncard_coe_finset, List.toFinset_card_of_nodup h.nodup, List.length_map,
    Records.size]

end Keeps

end Records

/-! ### What a session enters -/

namespace Session

/-- The score of a solution in a level behind its first `n` actions. -/
def scoreAt (l : Level) (solution : Solution) (n : ℕ) : Int64 :=
  ((World.start l).run ((solution.machine.take n).1.getD [])).score (Int64.ofNat solution.bytes)

/-- The scores of the actions that were executed between two states of a session, which are those
that it has counted. If it was started over, there are none. -/
def scoresUntil (s s' : Session) : List Int64 :=
  (List.range' (s.steps + 1) (s'.steps - s.steps)).map (scoreAt s.level s.solution)

/-- A session that was just created, for any level and any program. -/
def Fresh (s : Session) : Prop :=
  ∃ l limits source solution fps, Solution.ofSource limits source = .ok solution ∧
    s = Session.new l solution fps

/-- A session in which a program is played. -/
structure Playing (s : Session) : Prop where
  wellFormed : s.solution.tree.WellFormed
  fingerprint_eq : s.fingerprint = s.level.fingerprint
  replays : ∃ actions m, s.Replays s.level s.solution actions m

/-- All that an operation has executed is entered into the table. -/
structure Enters (s s' : Session) : Prop where
  level_eq : s'.level = s.level
  solution_eq : s'.solution = s.solution
  fingerprint_eq : s'.fingerprint = s.fingerprint
  records_eq : s'.records =
    s.records.map fun r ↦ (s.scoresUntil s').foldl (·.submit s.fingerprint ·) r

/-- Moreover, the session was not started over. -/
structure Advances (s s' : Session) : Prop extends Enters s s' where
  steps_le : s.steps ≤ s'.steps

variable {l : Level} {solution : Solution} {actions : List Action} {m : Machine}
  {s s' s'' : Session}

theorem scoresUntil_eq_nil (h : s'.steps ≤ s.steps) : s.scoresUntil s' = [] := by
  rw [scoresUntil, Nat.sub_eq_zero_of_le h]
  rfl

/-- Scores in between add up. -/
theorem Advances.scoresUntil_append (h : s.Advances s') (h' : s'.Advances s'') :
    s.scoresUntil s'' = s.scoresUntil s' ++ s'.scoresUntil s'' := by
  have hle := h.steps_le
  have hle' := h'.steps_le
  obtain ⟨j, hj⟩ := Nat.exists_eq_add_of_le hle
  obtain ⟨k, hk⟩ := Nat.exists_eq_add_of_le hle'
  have hlength : s''.steps - s.steps = j + k := by omega
  have hfront : s'.steps - s.steps = j := by omega
  have hback : s''.steps - s'.steps = k := by omega
  rw [scoresUntil, scoresUntil, scoresUntil, h.level_eq, h.solution_eq, ← List.map_append, hlength,
    hfront, hback, hj, ← List.range'_append_1, Nat.add_right_comm]

theorem Advances.trans (h : s.Advances s') (h' : s'.Advances s'') : s.Advances s'' where
  level_eq := h'.level_eq.trans h.level_eq
  solution_eq := h'.solution_eq.trans h.solution_eq
  fingerprint_eq := h'.fingerprint_eq.trans h.fingerprint_eq
  steps_le := h.steps_le.trans h'.steps_le
  records_eq := by
    rw [h'.records_eq, h.records_eq, h.scoresUntil_append h', h.fingerprint_eq, Option.map_map]
    simp only [List.foldl_append, Function.comp_def]

/-- Without an action, only clock and evaluation can have changed. -/
theorem Advances.of_same (hsame : s' = { s with
      machine := s'.machine
      running := s'.running
      due := s'.due
      began := s'.began
      failure := s'.failure }) : s.Advances s' := by
  have hsteps : s'.steps = s.steps := by rw [hsame]
  refine ⟨⟨by rw [hsame], by rw [hsame], by rw [hsame], ?_⟩, hsteps.ge⟩
  rw [scoresUntil_eq_nil hsteps.le, hsame]
  exact (Option.map_id' ..).symm

/-- The present score is the one of the last action that was counted. -/
theorem Replays.scoreAt_steps (h : s.Replays l solution actions m) :
    scoreAt l solution s.steps = s.world.score (Int64.ofNat solution.bytes) := by
  rw [scoreAt, h.steps, h.taken, h.world]
  rfl

theorem Replays.advances_move (h : s.Replays l solution actions m) {moved : Bool × Session}
    (hmove : s.move = some moved) : s.Advances moved.2 := by
  obtain ⟨actions', m', h'⟩ := h.move hmove
  rw [Session.move] at hmove
  rcases hmachine : s.machine with - | m₁ <;> rw [hmachine] at hmove
  · obtain rfl := Option.some.inj hmove
    exact .of_same rfl
  dsimp only at hmove
  rcases hnext : m₁.next with - | ⟨a | - | -, m₂⟩ <;> rw [hnext] at hmove
  · simp at hmove
  · obtain rfl := Option.some.inj hmove
    -- the next action is counted, and its score is the one of the world that it leaves
    have hscore : scoreAt s.level s.solution (s.steps + 1) =
        (s.world.step a).score (Int64.ofNat s.solution.bytes) := by
      rw [h.level_eq, h.solution_eq]
      exact h'.scoreAt_steps
    have hscores : s.scoresUntil (s.execute m₂ a) =
        [(s.world.step a).score (Int64.ofNat s.solution.bytes)] := by
      have hone : (s.execute m₂ a).steps - s.steps = 1 := Nat.add_sub_cancel_left ..
      rw [scoresUntil, hone, List.range'_one, List.map_singleton, hscore]
    refine ⟨⟨rfl, rfl, rfl, ?_⟩, Nat.le_succ _⟩
    rw [hscores]
    rfl
  · obtain rfl := Option.some.inj hmove
    exact .of_same rfl
  · obtain rfl := Option.some.inj hmove
    exact .of_same rfl

theorem Replays.advances_proceed (h : s.Replays l solution actions m) :
    s.Advances s.proceed.2 := by
  rw [Session.proceed]
  rcases hmove : s.move with - | moved
  · exact .of_same rfl
  · exact h.advances_move hmove

theorem Replays.advances_runSteps (h : s.Replays l solution actions m) (n : ℕ) :
    s.Advances (s.runSteps n) := by
  induction n generalizing s actions m with
  | zero => exact .of_same rfl
  | succ n ih =>
    rw [Session.runSteps]
    split
    · exact .of_same rfl
    · obtain ⟨actions', m', h'⟩ := h.proceed
      exact h.advances_proceed.trans (ih h')

theorem Replays.advances_update (h : s.Replays l solution actions m) (now : Int) :
    s.Advances (s.update now).2 := by
  rcases s.update_cases now with hsame | ⟨moved, hmove, hupdate⟩
  · rw [hsame]
    exact .of_same rfl
  · have hdue : Replays l solution actions m { s with due := false } := h.of_same rfl
    have hstill : s.Advances { s with due := false } := .of_same rfl
    rw [hupdate]
    exact (hstill.trans (hdue.advances_move hmove)).trans (.of_same rfl)

theorem enters_reset (s : Session) : s.Enters s.reset where
  level_eq := rfl
  solution_eq := rfl
  fingerprint_eq := rfl
  records_eq := by
    rw [scoresUntil_eq_nil (Nat.zero_le s.steps)]
    exact (Option.map_id' ..).symm

/-- **Whatever an operation executes is entered.** -/
theorem Replays.enters_perform (h : s.Replays l solution actions m) (op : Operation) :
    s.Enters (s.perform op).2 := by
  cases op with
  | step =>
    show s.Enters s.step.2
    unfold Session.step
    split
    · exact (Advances.of_same rfl).toEnters
    · exact h.advances_proceed.toEnters
  | run n => exact (h.advances_runSteps n.toNat).toEnters
  | start now =>
    show s.Enters (s.start now)
    unfold Session.start
    split <;> exact (Advances.of_same rfl).toEnters
  | update now => exact (h.advances_update now).toEnters
  | stop =>
    show s.Enters s.stop
    unfold Session.stop
    split <;> exact (Advances.of_same rfl).toEnters
  | reset => exact s.enters_reset

theorem Replays.playing (h : s.Replays l solution actions m) (hwf : solution.tree.WellFormed)
    (hfingerprint : s.fingerprint = l.fingerprint) : s.Playing := by
  obtain rfl := h.level_eq
  obtain rfl := h.solution_eq
  exact ⟨hwf, hfingerprint, actions, m, h⟩

namespace Playing

theorem of_fresh (h : s.Fresh) : s.Playing := by
  obtain ⟨l, limits, source, solution, fps, hsolution, rfl⟩ := h
  have hwf := Solution.wellFormed_of_ofSource hsolution
  exact (replays_new hwf l fps).playing hwf rfl

theorem useRecords (h : s.Playing) (table : Option Records) : (s.useRecords table).Playing := by
  obtain ⟨actions, m, hreplays⟩ := h.replays
  have hsame : (s.useRecords table).Replays s.level s.solution actions m := hreplays.of_same rfl
  exact hsame.playing h.wellFormed h.fingerprint_eq

theorem enters_perform (h : s.Playing) (op : Operation) : s.Enters (s.perform op).2 := by
  obtain ⟨actions, m, hreplays⟩ := h.replays
  exact hreplays.enters_perform op

theorem perform (h : s.Playing) (op : Operation) : (s.perform op).2.Playing := by
  obtain ⟨actions, m, hreplays⟩ := h.replays
  obtain ⟨actions', m', hreplays'⟩ := hreplays.perform h.wellFormed op
  exact hreplays'.playing h.wellFormed ((h.enters_perform op).fingerprint_eq.trans h.fingerprint_eq)

/-- The best points are zero or the score of an action that was counted. -/
theorem bestPoints_cases (h : s.Playing) : s.bestPoints = 0 ∨
    ∃ n, 1 ≤ n ∧ n ≤ s.steps ∧ s.bestPoints = scoreAt s.level s.solution n := by
  obtain ⟨actions, m, hreplays⟩ := h.replays
  rcases hreplays.best.1 with hzero | ⟨n, hpos, hle, hbest⟩
  · exact Or.inl hzero
  · refine Or.inr ⟨n, hpos, hreplays.steps ▸ hle, ?_⟩
    rw [hbest, scoreAt, Machine.take_fst_of_full hreplays.taken hle]
    rfl

end Playing

end Session

end RobotGolf
