import RobotGolf.Proofs.BestScores
/-!
# Shared records lose no result

Any number of sessions play in an arcade, are attached to tables of records, share them and change
them. A table then knows the best result of every level, among all actions that were executed in
sessions while these were attached to it (`Arcade.records_keep_best`).

The history of an arcade is a list of deeds, one for every action that was executed
(`Arcade.history`). It is read off the states of the sessions and not off the tables.
`handle_operation` and `handle_attach` say what an event does, and two invariants follow from that:

* `Arcade.Keeps`: every table keeps what has been entered into it, and that is what the deeds say;
* `Arcade.Logged`: what a session has counted is in its history, at least from the point on where it
  was new or started over. So its best points can be compared with its record.

Both have a step lemma (`handle`) and a run lemma (`after`).
-/

namespace RobotGolf

namespace Arcade

/-- What can happen in an arcade: an operation on the session on a seat, or that session being
attached to a table or to none. -/
inductive Event where
  | operation (seat : ℕ) (op : Operation)
  | attach (seat : ℕ) (table : Option ℕ)

/-- The arcade behind an event. One that names no seat or no table changes nothing. -/
def handle (a : Arcade) : Event → Arcade
  | .operation seat op => ((a.perform? seat op).map Prod.snd).getD a
  | .attach seat table => (a.attach? seat table).getD a

/-- The arcade behind some events. -/
def after (a : Arcade) (events : List Event) : Arcade := events.foldl handle a

/-- An action that was executed: on which seat, which table the session was attached to at that
moment, its level, and the score. -/
structure Deed where
  seat : ℕ
  table : Option ℕ
  level : Level
  points : Int64

/-- The actions that are executed by an event. -/
def deeds (a : Arcade) : Event → List Deed
  | .operation seat op =>
    match a.seats[seat]?, (a.handle (.operation seat op)).seats[seat]? with
    | some s, some s' =>
      (s.session.scoresUntil s'.session).map (⟨seat, s.table, s.session.level, ·⟩)
    | _, _ => []
  | .attach _ _ => []

/-- The actions that are executed by some events. -/
def history (a : Arcade) : List Event → List Deed
  | [] => []
  | event :: events => a.deeds event ++ (a.handle event).history events

/-- The scores that were computed in sessions attached to a table, with the fingerprints of their
levels. -/
def entered (t : ℕ) (deeds : List Deed) : List (String × Int64) :=
  (deeds.filter (·.table == some t)).map fun d ↦ (d.level.fingerprint, d.points)

variable {a : Arcade}

theorem after_append (a : Arcade) (events more : List Event) :
    a.after (events ++ more) = (a.after events).after more := List.foldl_append

theorem history_append (a : Arcade) (events more : List Event) :
    a.history (events ++ more) = a.history events ++ (a.after events).history more := by
  induction events generalizing a with
  | nil => rfl
  | cons event events ih =>
    rw [List.cons_append, history, history, ih, List.append_assoc]
    rfl

theorem mem_entered {t : ℕ} {f : String} {x : Int64} {deeds : List Deed} :
    (f, x) ∈ entered t deeds ↔
      ∃ d ∈ deeds, d.table = some t ∧ d.level.fingerprint = f ∧ d.points = x := by
  simp only [entered, List.mem_map, List.mem_filter, beq_iff_eq, Prod.mk.injEq, and_assoc]

theorem entered_append (t : ℕ) (deeds deeds' : List Deed) :
    entered t (deeds ++ deeds') = entered t deeds ++ entered t deeds' := by
  rw [entered, List.filter_append, List.map_append]
  rfl

theorem entered_map (t seat : ℕ) (table : Option ℕ) (l : Level) (scores : List Int64) :
    entered t (scores.map (⟨seat, table, l, ·⟩)) =
      if table = some t then scores.map (l.fingerprint, ·) else [] := by
  rw [entered, List.filter_map, List.map_map]
  split <;> simp [Function.comp_def, *]

/-! ### What an event does -/

/-- The session on a seat behind an operation. -/
def played (a : Arcade) (s : Seat) (op : Operation) : Session :=
  ((s.session.useRecords (s.table.bind (a.tables[·]?))).perform op).2

theorem enters_played {s : Seat} (h : s.session.Playing) (a : Arcade) (op : Operation) :
    (s.session.useRecords (s.table.bind (a.tables[·]?))).Enters (a.played s op) :=
  (h.useRecords _).enters_perform op

/-- An operation changes the session on its seat and the table that this is attached to. -/
theorem handle_operation {seat : ℕ} {s : Seat} (hs : a.seats[seat]? = some s) (op : Operation) :
    (a.handle (.operation seat op)).seats =
        a.seats.setIfInBounds seat ⟨a.played s op, s.table⟩ ∧
      (a.handle (.operation seat op)).tables =
        match s.table, (a.played s op).records with
        | some t, some records => a.tables.setIfInBounds t records
        | _, _ => a.tables := by
  have hsession : a.sessionAt? seat =
      some (s.session.useRecords (s.table.bind (a.tables[·]?))) := by
    rw [sessionAt?, hs]
    rfl
  rw [handle, perform?, hs, hsession]
  exact ⟨rfl, rfl⟩

theorem handle_operation_none {seat : ℕ} (hs : a.seats[seat]? = none) (op : Operation) :
    a.handle (.operation seat op) = a := by
  rw [handle, perform?, hs]
  rfl

/-- Being attached changes neither session nor table. -/
theorem handle_attach (a : Arcade) (seat : ℕ) (table : Option ℕ) :
    a.handle (.attach seat table) = a ∨ ∃ s t, a.seats[seat]? = some s ∧
      a.handle (.attach seat table) =
        { a with seats := a.seats.setIfInBounds seat { s with table := t } } := by
  rcases hs : a.seats[seat]? with - | s
  · exact Or.inl (by simp [handle, attach?, hs])
  rcases table with - | t
  · exact Or.inr ⟨s, none, rfl, by simp [handle, attach?, hs]⟩
  by_cases ht : t < a.tables.size
  · exact Or.inr ⟨s, some t, rfl, by simp [handle, attach?, hs, ht]⟩
  · exact Or.inl (by simp [handle, attach?, hs, ht])

/-- Seats behind one that has changed. -/
theorem seats_setIfInBounds {seat k : ℕ} {s s' : Seat} (hs : a.seats[seat]? = some s) :
    (a.seats.setIfInBounds seat s')[k]? = if seat = k then some s' else a.seats[k]? := by
  obtain ⟨hlt, -⟩ := Array.getElem?_eq_some_iff.1 hs
  rw [Array.getElem?_setIfInBounds]
  simp only [hlt, if_true]

/-! ### The invariant -/

/-- Programs are played on all seats, and every table keeps what was entered into it. -/
structure Keeps (a : Arcade) (deeds : List Deed) : Prop where
  playing : ∀ (k : ℕ) (s : Seat), a.seats[k]? = some s → s.session.Playing
  keeps : ∀ (t : ℕ) (r : Records), a.tables[t]? = some r → r.Keeps (entered t deeds)

/-- What an operation on a seat executes. -/
theorem deeds_operation {seat : ℕ} {s : Seat} (hs : a.seats[seat]? = some s) (op : Operation) :
    a.deeds (.operation seat op) = (s.session.scoresUntil (a.played s op)).map
      (⟨seat, s.table, s.session.level, ·⟩) := by
  have hs' : (a.handle (.operation seat op)).seats[seat]? = some ⟨a.played s op, s.table⟩ := by
    rw [(handle_operation hs op).1, seats_setIfInBounds hs, if_pos rfl]
  rw [deeds, hs, hs']

/-- Behind an operation a table has what was executed, if the session is attached to it. -/
theorem tables_operation {seat : ℕ} {s : Seat} (hs : a.seats[seat]? = some s)
    (hplaying : s.session.Playing) (op : Operation) (t : ℕ) :
    (a.handle (.operation seat op)).tables[t]? =
      if s.table = some t then a.tables[t]?.map fun r ↦
        (s.session.scoresUntil (a.played s op)).foldl (·.submit s.session.level.fingerprint ·) r
      else a.tables[t]? := by
  have hrecords := (enters_played hplaying a op).records_eq
  have hfingerprint : (s.session.useRecords (s.table.bind (a.tables[·]?))).fingerprint =
      s.session.level.fingerprint := hplaying.fingerprint_eq
  rw [hfingerprint] at hrecords
  rw [(handle_operation hs op).2]
  rcases htable : s.table with - | t'
  · rfl
  have hplayed : (a.played s op).records = a.tables[t']?.map fun r ↦
      (s.session.scoresUntil (a.played s op)).foldl (·.submit s.session.level.fingerprint ·) r := by
    rw [hrecords, htable]
    rfl
  rw [hplayed]
  by_cases ht : t' = t
  · subst ht
    rw [if_pos rfl]
    rcases hr : a.tables[t']? with - | r
    · exact hr
    · obtain ⟨hlt, -⟩ := Array.getElem?_eq_some_iff.1 hr
      exact Array.getElem?_setIfInBounds_self_of_lt hlt
  · rw [if_neg fun heq ↦ ht (Option.some.inj heq)]
    rcases a.tables[t']? with - | r
    · rfl
    · exact Array.getElem?_setIfInBounds_ne ht

/-- **The step lemma**: what an event executes is entered, each into its table. -/
theorem Keeps.handle {deeds : List Deed} (h : a.Keeps deeds) (event : Event) :
    (a.handle event).Keeps (deeds ++ a.deeds event) := by
  cases event with
  | operation seat op =>
    rcases hs : a.seats[seat]? with - | s
    · have hdeeds : a.deeds (.operation seat op) = [] := by rw [Arcade.deeds, hs]
      rw [handle_operation_none hs, hdeeds, List.append_nil]
      exact h
    have hplaying := h.playing seat s hs
    refine ⟨fun k s' hs' ↦ ?_, fun t r hr ↦ ?_⟩
    · rw [(handle_operation hs op).1, seats_setIfInBounds hs] at hs'
      split at hs'
      · obtain rfl := Option.some.inj hs'
        exact (hplaying.useRecords _).perform op
      · exact h.playing k s' hs'
    · rw [tables_operation hs hplaying] at hr
      rw [deeds_operation hs, entered_append, entered_map]
      split at hr
      · rename_i htable
        obtain ⟨r', hr', rfl⟩ := Option.map_eq_some_iff.1 hr
        rw [if_pos htable]
        exact (h.keeps t r' hr').submits _ _
      · rename_i htable
        rw [if_neg htable, List.append_nil]
        exact h.keeps t r hr
  | attach seat table =>
    rw [Arcade.deeds, List.append_nil]
    rcases handle_attach a seat table with hsame | ⟨s, t, hs, hattached⟩
    · rw [hsame]
      exact h
    · rw [hattached]
      refine ⟨fun k s' hs' ↦ ?_, h.keeps⟩
      rw [seats_setIfInBounds hs] at hs'
      split at hs'
      · obtain rfl := Option.some.inj hs'
        exact h.playing seat s hs
      · exact h.playing k s' hs'

/-- **The run lemma.** -/
theorem Keeps.after {deeds : List Deed} (h : a.Keeps deeds) (events : List Event) :
    (a.after events).Keeps (deeds ++ a.history events) := by
  induction events generalizing a deeds with
  | nil =>
    rw [history, List.append_nil]
    exact h
  | cons event events ih =>
    rw [history, ← List.append_assoc]
    exact ih (h.handle event)

theorem mem_of_seats_new {sessions : List Session} {tables k : ℕ} {s : Seat}
    (hs : (new sessions tables).seats[k]? = some s) : s.session ∈ sessions := by
  have hmem : s ∈ sessions.map fun session ↦ (⟨session, none⟩ : Seat) :=
    List.mem_of_getElem? (by simpa [new] using hs)
  obtain ⟨session, hsession, rfl⟩ := List.mem_map.1 hmem
  exact hsession

theorem keeps_new {sessions : List Session} (h : ∀ s ∈ sessions, s.Fresh) (tables : ℕ) :
    (new sessions tables).Keeps [] where
  playing k s hs := .of_fresh (h s.session (mem_of_seats_new hs))
  keeps t r hr := by
    obtain ⟨-, rfl⟩ : t < tables ∧ Records.empty = r := by
      simpa [new, Array.getElem?_replicate] using hr
    exact Records.keeps_empty

/-! ### Tables remain -/

theorem size_tables_handle (a : Arcade) (event : Event) :
    (a.handle event).tables.size = a.tables.size := by
  cases event with
  | operation seat op =>
    rcases hs : a.seats[seat]? with - | s
    · rw [handle_operation_none hs]
    · rw [(handle_operation hs op).2]
      split
      · exact Array.size_setIfInBounds
      · rfl
  | attach seat table =>
    rcases handle_attach a seat table with hsame | ⟨s, t, -, hattached⟩
    · rw [hsame]
    · rw [hattached]

theorem size_tables_after (a : Arcade) (events : List Event) :
    (a.after events).tables.size = a.tables.size := by
  induction events generalizing a with
  | nil => rfl
  | cons event events ih => exact (ih (a.handle event)).trans (a.size_tables_handle event)

/-- Starting a session over touches no table. -/
theorem Keeps.tables_reset {deeds : List Deed} (h : a.Keeps deeds) (seat : ℕ) :
    (a.handle (.operation seat .reset)).tables = a.tables := by
  rcases hs : a.seats[seat]? with - | s
  · rw [handle_operation_none hs]
  · refine Array.ext_getElem? fun t ↦ ?_
    have hscores : s.session.scoresUntil (a.played s .reset) = [] :=
      Session.scoresUntil_eq_nil (Nat.zero_le s.session.steps)
    rw [tables_operation hs (h.playing seat s hs), hscores]
    simp

/-! ### Sessions and their history -/

/-- Every action that the session on a seat has counted is among some deeds. -/
def Logged (k : ℕ) (a : Arcade) (deeds : List Deed) : Prop :=
  ∀ s, a.seats[k]? = some s → ∀ n, 1 ≤ n → n ≤ s.session.steps → ∃ d ∈ deeds, d.seat = k ∧
    d.level = s.session.level ∧ d.points = Session.scoreAt s.session.level s.session.solution n

variable {k : ℕ}

/-- There is nothing to log before the first action. -/
theorem logged_nil (h : ∀ s, a.seats[k]? = some s → s.session.steps = 0) : a.Logged k [] := by
  intro s hs n hpos hle
  have hzero := h s hs
  omega

/-- The step lemma. -/
theorem Logged.handle {deeds past : List Deed} (h : a.Logged k deeds) (hkeeps : a.Keeps past)
    (event : Event) : (a.handle event).Logged k (deeds ++ a.deeds event) := by
  -- what was logged remains so, for a session with the same level and the same solution
  have hold : ∀ s session : Session, ∀ table, a.seats[k]? = some ⟨session, table⟩ →
      s.level = session.level → s.solution = session.solution → ∀ n, 1 ≤ n → n ≤ session.steps →
      ∃ d ∈ deeds ++ a.deeds event, d.seat = k ∧ d.level = s.level ∧
        d.points = Session.scoreAt s.level s.solution n := by
    intro s session table hs hlevel hsolution n hpos hle
    obtain ⟨d, hd, hlogged⟩ := h _ hs n hpos hle
    rw [hlevel, hsolution]
    exact ⟨d, List.mem_append_left _ hd, hlogged⟩
  intro s' hs' n hpos hle
  cases event with
  | operation seat op =>
    rcases hs : a.seats[seat]? with - | s
    · rw [handle_operation_none hs] at hs'
      exact hold _ _ _ hs' rfl rfl n hpos hle
    rw [(handle_operation hs op).1, seats_setIfInBounds hs] at hs'
    split at hs'
    · rename_i hseat
      subst hseat
      obtain rfl := Option.some.inj hs'
      have henters := enters_played (hkeeps.playing seat s hs) a op
      have hlevel : (a.played s op).level = s.session.level := henters.level_eq
      have hsolution : (a.played s op).solution = s.session.solution := henters.solution_eq
      rcases Nat.lt_or_ge s.session.steps n with hnew | hbefore
      · -- the action was counted by this operation
        refine ⟨⟨seat, s.table, s.session.level, Session.scoreAt s.session.level
          s.session.solution n⟩, List.mem_append_right _ ?_, rfl, hlevel.symm, ?_⟩
        · rw [deeds_operation hs]
          refine List.mem_map.2 ⟨_, List.mem_map.2 ⟨n, ?_, rfl⟩, rfl⟩
          rw [List.mem_range'_1]
          dsimp only at hle
          omega
        · dsimp only
          rw [hlevel, hsolution]
      · exact hold _ _ _ hs hlevel hsolution n hpos hbefore
    · exact hold _ _ _ hs' rfl rfl n hpos hle
  | attach seat table =>
    rcases handle_attach a seat table with hsame | ⟨s, t, hs, hattached⟩
    · rw [hsame] at hs'
      exact hold _ _ _ hs' rfl rfl n hpos hle
    · rw [hattached, seats_setIfInBounds hs] at hs'
      split at hs'
      · rename_i hseat
        subst hseat
        obtain rfl := Option.some.inj hs'
        exact hold _ _ _ hs rfl rfl n hpos hle
      · exact hold _ _ _ hs' rfl rfl n hpos hle

/-- The run lemma. -/
theorem Logged.after {deeds past : List Deed} (h : a.Logged k deeds) (hkeeps : a.Keeps past)
    (events : List Event) : (a.after events).Logged k (deeds ++ a.history events) := by
  induction events generalizing a deeds past with
  | nil =>
    rw [history, List.append_nil]
    exact h
  | cons event events ih =>
    rw [history, ← List.append_assoc]
    exact ih (h.handle hkeeps event) (hkeeps.handle event)

/-- If all that a session has counted was entered into the table that it is attached to, its best
points are no more than the record. -/
theorem Keeps.bestPoints_le_record {deeds since : List Deed} {s : Seat} (h : a.Keeps deeds)
    (hs : a.seats[k]? = some s) (hlogged : a.Logged k since) (hsubset : since ⊆ deeds)
    (htable : ∀ d ∈ since, d.seat = k → d.table = s.table) :
    ∃ session, a.sessionAt? k = some session ∧ session.bestPoints ≤ session.record := by
  refine ⟨s.session.useRecords (s.table.bind (a.tables[·]?)), by rw [sessionAt?, hs]; rfl, ?_⟩
  have hplaying := h.playing k s hs
  show s.session.bestPoints ≤ _
  rw [Session.record, Session.useRecords]
  dsimp only
  split
  · exact Int64.le_refl _
  rename_i r hr
  obtain ⟨t, ht, hr⟩ := Option.bind_eq_some_iff.1 hr
  have hkeeps := h.keeps t r hr
  rcases hplaying.bestPoints_cases with hzero | ⟨n, hpos, hle, hbest⟩
  · rw [hzero]
    exact hkeeps.best_nonneg _
  · obtain ⟨d, hd, hseat, hlevel, hpoints⟩ := hlogged s hs n hpos hle
    have hmem : (s.session.fingerprint, s.session.bestPoints) ∈ entered t deeds := by
      refine mem_entered.2 ⟨d, hsubset hd, (htable d hd hseat).trans ht, ?_, ?_⟩
      · rw [hlevel, hplaying.fingerprint_eq]
      · rw [hpoints, hbest]
    exact (hkeeps.isGreatest _).2 (Or.inr hmem)

/-- A new session has counted nothing. -/
theorem steps_new {sessions : List Session} (h : ∀ s ∈ sessions, s.Fresh) {tables : ℕ} {s : Seat}
    (hs : (new sessions tables).seats[k]? = some s) : s.session.steps = 0 := by
  obtain ⟨l, _, _, solution, fps, -, hfresh⟩ := h s.session (mem_of_seats_new hs)
  rw [hfresh]
  rfl

/-- A session that was started over has counted nothing. -/
theorem steps_reset {s : Seat} (hs : (a.handle (.operation k .reset)).seats[k]? = some s) :
    s.session.steps = 0 := by
  rcases hs' : a.seats[k]? with - | s'
  · rw [handle_operation_none hs', hs'] at hs
    cases hs
  · rw [(handle_operation hs' .reset).1, seats_setIfInBounds hs', if_pos rfl] at hs
    obtain rfl := Option.some.inj hs
    rfl

/-! ### Records -/

theorem Keeps.isGreatest_bestOf {deeds : List Deed} {t : ℕ} {r : Records} (h : a.Keeps deeds)
    (hr : a.tables[t]? = some r) (l : Level) :
    IsGreatest {x | x = 0 ∨ ∃ d ∈ deeds, d.table = some t ∧
      d.level.fingerprint = l.fingerprint ∧ d.points = x} (r.bestOf l) := by
  have hbest := (h.keeps t r hr).isGreatest l.fingerprint
  simp only [mem_entered] at hbest
  exact hbest

theorem Keeps.size_eq {deeds : List Deed} {t : ℕ} {r : Records} (h : a.Keeps deeds)
    (hr : a.tables[t]? = some r) : r.size = {f | ∃ d ∈ deeds, d.table = some t ∧
      d.level.fingerprint = f ∧ 0 < d.points}.ncard := by
  rw [(h.keeps t r hr).size]
  congr 1
  ext f
  simp only [mem_entered, Set.mem_ofPred_eq]
  constructor
  · rintro ⟨x, ⟨d, hd, htable, hf, rfl⟩, hpos⟩
    exact ⟨d, hd, htable, hf, hpos⟩
  · rintro ⟨d, hd, htable, hf, hpos⟩
    exact ⟨d.points, ⟨d, hd, htable, hf, rfl⟩, hpos⟩

/-- **Shared records lose no result.** In an arcade with any number of new sessions, for any levels
and programs, and any number of tables, let any events happen. For each table, the record for a
level is then the greatest of zero and of all scores of actions that were executed in sessions which
were attached to the table at that moment and have a level with the same fingerprint. So a record
never decreases, whatever comes, and starting a session over does not change the table; and the
number of its entries is the number of fingerprints with a positive such score. A session whose
present table is the one that it has been attached to during every action since it was created or
started over has at most as many best points as its record. -/
theorem records_keep_best (sessions : List Session) (hsessions : ∀ s ∈ sessions, s.Fresh)
    (tables : ℕ) (events : List Event) (a b : Arcade) (ha : a = new sessions tables)
    (hb : b = a.after events) :
    (∀ t < tables, ∃ r, b.tables[t]? = some r ∧
      (∀ l : Level, IsGreatest {x | x = 0 ∨ ∃ d ∈ a.history events, d.table = some t ∧
        d.level.fingerprint = l.fingerprint ∧ d.points = x} (r.bestOf l)) ∧
      (∀ more, ∃ r', (b.after more).tables[t]? = some r' ∧
        ∀ l : Level, r.bestOf l ≤ r'.bestOf l) ∧
      (∀ seat, (b.handle (.operation seat .reset)).tables[t]? = some r) ∧
      r.size = {f | ∃ d ∈ a.history events, d.table = some t ∧ d.level.fingerprint = f ∧
        0 < d.points}.ncard) ∧
    (∀ early since k s, events = early ++ since →
      (early = [] ∨ ∃ earlier, early = earlier ++ [.operation k .reset]) →
      b.seats[k]? = some s →
      (∀ d ∈ (a.after early).history since, d.seat = k → d.table = s.table) →
      ∃ session, b.sessionAt? k = some session ∧ session.bestPoints ≤ session.record) := by
  have hnew : a.Keeps [] := ha ▸ keeps_new hsessions tables
  have hkeeps : ∀ events, (a.after events).Keeps (a.history events) := hnew.after
  have hexists : ∀ events, ∀ t < tables, ∃ r, (a.after events).tables[t]? = some r := by
    intro events t ht
    have hsize : (a.after events).tables.size = tables := by
      rw [size_tables_after, ha]
      exact Array.size_replicate
    exact ⟨_, Array.getElem?_eq_getElem (hsize ▸ ht)⟩
  subst hb
  refine ⟨fun t ht ↦ ?_, fun early since k s hevents hearly hs htable ↦ ?_⟩
  · obtain ⟨r, hr⟩ := hexists events t ht
    refine ⟨r, hr, (hkeeps events).isGreatest_bestOf hr, fun more ↦ ?_, fun seat ↦ ?_,
      (hkeeps events).size_eq hr⟩
    · obtain ⟨r', hr'⟩ := hexists (events ++ more) t ht
      refine ⟨r', after_append a events more ▸ hr', fun l ↦ ?_⟩
      -- more events make for more deeds, among them the best so far
      refine ((hkeeps (events ++ more)).isGreatest_bestOf hr' l).2 ?_
      rcases ((hkeeps events).isGreatest_bestOf hr l).1 with hzero | ⟨d, hd, hbest⟩
      · exact Or.inl hzero
      · rw [history_append]
        exact Or.inr ⟨d, List.mem_append_left _ hd, hbest⟩
    · rw [(hkeeps events).tables_reset seat]
      exact hr
  · subst hevents
    have hstart : (a.after early).Logged k [] := by
      refine logged_nil fun s hs ↦ ?_
      rcases hearly with rfl | ⟨earlier, rfl⟩
      · exact steps_new hsessions (ha ▸ hs)
      · rw [after_append] at hs
        exact steps_reset hs
    have hlogged := hstart.after (hkeeps early) since
    rw [List.nil_append, ← after_append] at hlogged
    refine (hkeeps (early ++ since)).bestPoints_le_record hs hlogged ?_ htable
    rw [history_append]
    exact List.subset_append_right _ _

/-- One session, and two tables. -/
def booth : Arcade := new [Session.new Session.corridor Session.dash 4] 2

/-- A session that plays for one table, is started over and goes on. -/
def encore : List Event :=
  [.attach 0 (some 0), .operation 0 (.run 5), .operation 0 .reset, .operation 0 .step]

/-- The table has the record from before the session was started over, and this is more than what
has been reached since. -/
theorem booth_encore : (∀ s ∈ [Session.new Session.corridor Session.dash 4], s.Fresh) ∧
    (∃ r, (booth.after encore).tables[0]? = some r ∧ r.bestOf Session.corridor = 500 ∧
      IsGreatest {x | x = 0 ∨ ∃ d ∈ booth.history encore, d.table = some 0 ∧
        d.level.fingerprint = Session.corridor.fingerprint ∧ d.points = x} 500) ∧
    ∃ session, (booth.after encore).sessionAt? 0 = some session ∧
      session.bestPoints ≤ session.record := by
  have hfresh : ∀ s ∈ [Session.new Session.corridor Session.dash 4], s.Fresh := by
    have hdash : Solution.ofSource .standard (Bytes.ofString "ss") = .ok Session.dash := by cbv
    exact List.forall_mem_singleton.2 ⟨_, _, _, _, _, hdash, rfl⟩
  obtain ⟨hrecord, hseat, hstep⟩ :
      (booth.after encore).tables[0]?.map (·.bestOf Session.corridor) = some 500 ∧
      (booth.after encore).seats[0]?.map Seat.table = some (some 0) ∧
      ((booth.after (encore.take 3)).history [.operation 0 .step]).map Deed.table = [some 0] := by
    cbv
    exact ⟨rfl, trivial⟩
  obtain ⟨htables, hsessions⟩ := records_keep_best _ hfresh 2 encore booth _ rfl rfl
  refine ⟨hfresh, ?_, ?_⟩
  · obtain ⟨r, hr, hbest, -⟩ := htables 0 (by decide)
    rw [hr, Option.map_some, Option.some.injEq] at hrecord
    exact ⟨r, hr, hrecord, hrecord ▸ hbest Session.corridor⟩
  · obtain ⟨s, hs, htable⟩ := Option.map_eq_some_iff.1 hseat
    refine hsessions (encore.take 3) [.operation 0 .step] 0 s rfl
      (Or.inr ⟨encore.take 2, rfl⟩) hs fun d hd _ ↦ ?_
    have hmem := List.mem_map_of_mem hd (f := Deed.table)
    rw [hstep, List.mem_singleton] at hmem
    rw [hmem, htable]

/-- A session that plays for one table and is attached to the other one then. -/
def transfer : List Event := [.attach 0 (some 0), .operation 0 (.run 2), .attach 0 (some 1)]

/-- It matters that the table is the present one. Here the session was attached to the first table
during all of its actions, and yet its best points are more than its record, which is the one of
the second table. -/
theorem booth_transfer :
    (∀ d ∈ booth.history transfer, d.seat = 0 → d.table = some 0) ∧
    ∃ session, (booth.after transfer).sessionAt? 0 = some session ∧
      session.record < session.bestPoints := by
  obtain ⟨htables, hpoints⟩ :
      (booth.history transfer).map Deed.table = [some 0, some 0] ∧
      ((booth.after transfer).sessionAt? 0).map
        (fun session ↦ decide (session.record < session.bestPoints)) = some true := by cbv
  refine ⟨fun d hd _ ↦ ?_, ?_⟩
  · have hmem := List.mem_map_of_mem hd (f := Deed.table)
    rw [htables] at hmem
    simpa using hmem
  · obtain ⟨session, hsession, hlt⟩ := Option.map_eq_some_iff.1 hpoints
    exact ⟨session, hsession, of_decide_eq_true hlt⟩

end Arcade

end RobotGolf
