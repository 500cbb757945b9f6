import Mathlib.Data.List.Chain
import RobotGolf.Proofs.Buttons
import RobotGolf.Proofs.Walls
import RobotGolf.Proofs.Words
/-!
# The trail is a path of open cells

The robot starts on an open cell of the grid and enters nothing but open cells, each next to the one
that it comes from. So the start and the trail, one after the other, are a path, and the path ends
where the robot stands (`World.OnPath`).

Three parts of a level meet in this. That the start is open comes from the survey of the grid. That
a cell is open which is entered is checked against the bounds and against the set of inaccessible
positions, and these agree with the grid (`Level.isOpen_iff`). That it is next to the robot comes
from the headings, of which there are four (`Level.adjacent_ahead`), and from the bounds once more:
within them a coordinate does not wrap around.
-/

namespace RobotGolf

/-! ### Directions -/

/-- Two positions differ by one in one coordinate, and not in the other. -/
def Position.Adjacent (p q : Position) : Prop :=
  (p.row = q.row ∧ (q.col.toInt - p.col.toInt).natAbs = 1) ∨
    (p.col = q.col ∧ (q.row.toInt - p.row.toInt).natAbs = 1)

instance (p q : Position) : Decidable (p.Adjacent q) :=
  inferInstanceAs (Decidable (_ ∨ _))

/-- The headings of a robot. -/
def Heading.all : List Heading := [up, right, down, left]

theorem Heading.turn_mem_all : ∀ h ∈ all, h.turnLeft ∈ all ∧ h.turnRight ∈ all := by decide

/-- A step goes along a row or along a column, by one. -/
theorem Heading.delta_cases : ∀ h ∈ all,
    (h.delta.1 = 0 ∧ h.delta.2.toInt.natAbs = 1) ∨
      (h.delta.2 = 0 ∧ h.delta.1.toInt.natAbs = 1) := by
  decide

namespace Level

/-- A cell that is no wall. -/
def IsOpen (l : Level) (p : Position) : Prop := ∃ c, l.cell? p = some c ∧ c ≠ .wall

variable {l : Level} {p : Position}

/-- **Open cells are those within the bounds that are accessible.** -/
theorem isOpen_iff (hcharted : l.Charted) (h : l.Surveyed) :
    l.IsOpen p ↔ l.inBounds p = true ∧ l.isInaccessible p = false := by
  rw [hcharted.inBounds_iff, ← Bool.not_eq_true, h.isInaccessible_iff hcharted]
  constructor
  · rintro ⟨c, hcell, hne⟩
    refine ⟨⟨c, hcell⟩, fun hwall ↦ hne ?_⟩
    exact Option.some.inj (hcell.symm.trans hwall)
  · rintro ⟨⟨c, hcell⟩, hwall⟩
    exact ⟨c, hcell, fun hc ↦ hwall (hc ▸ hcell)⟩

/-- The robot starts from an open cell. -/
theorem isOpen_robot (hcharted : l.Charted) (h : l.Surveyed) : l.IsOpen l.robot.position := by
  obtain ⟨q, hitem, hposition⟩ := h.robot
  refine ⟨.empty, hcharted.mem_positions_iff.1 ?_, by decide⟩
  exact Charted.mem_positions.2 ⟨q, hitem, hposition.symm⟩

/-- **The position ahead of a robot on a cell of the grid is next to it.** -/
theorem adjacent_ahead (hcharted : l.Charted) {pose : Pose}
    (hinside : l.inBounds pose.position = true) (hheading : pose.heading ∈ Heading.all) :
    pose.position.Adjacent pose.ahead := by
  have hrows := hcharted.rows_lt
  have hcols := hcharted.cols_lt
  simp only [inBounds, Bool.and_eq_true, decide_eq_true_eq, Int64.le_iff_toInt_le,
    Int64.toInt_zero] at hinside
  obtain ⟨⟨⟨hrow, hrow'⟩, hcol⟩, hcol'⟩ := hinside
  rcases Heading.delta_cases _ hheading with ⟨hzero, hone⟩ | ⟨hzero, hone⟩
  · refine Or.inl ⟨?_, ?_⟩
    · show pose.position.row = pose.position.row + pose.heading.delta.1
      rw [hzero, Int64.add_zero]
    · show ((pose.position.col + pose.heading.delta.2).toInt - _).natAbs = 1
      rw [toInt_add_of_step hcol (by omega) hone]
      omega
  · refine Or.inr ⟨?_, ?_⟩
    · show pose.position.col = pose.position.col + pose.heading.delta.2
      rw [hzero, Int64.add_zero]
    · show ((pose.position.row + pose.heading.delta.1).toInt - _).natAbs = 1
      rw [toInt_add_of_step hrow (by omega) hone]
      omega

end Level

namespace World

/-! ### One step -/

/-- **What an action does.** Anything but a step forward turns the robot at most; a step forward
does nothing, or it enters the cell ahead, which is free. -/
theorem step_effects (w : World) (a : Action) :
    (a ≠ .command .forward ∧ ∃ h ∈ [w.robot.heading, w.robot.heading.turnLeft,
      w.robot.heading.turnRight], w.step a = w.face h) ∨
    (a = .command .forward ∧ w.step a = w) ∨
    (a = .command .forward ∧ w.isFree w.robot.ahead = true ∧
      w.step a = w.enter w.robot.ahead) := by
  have hsame : w = w.face w.robot.heading := rfl
  cases a with
  | number n => exact Or.inl ⟨by simp, _, by simp, hsame⟩
  | command c =>
    show (_ ∧ ∃ h ∈ _, w.obey c = w.face h) ∨ (_ ∧ w.obey c = w) ∨
      (_ ∧ _ ∧ w.obey c = w.enter w.robot.ahead)
    by_cases hforward : c = .forward
    · subst hforward
      have hobey : w.obey .forward = w.forward := rfl
      rw [hobey, forward]
      dsimp only
      split
      · rename_i hfree
        exact Or.inr (Or.inr ⟨rfl, hfree, rfl⟩)
      · exact Or.inr (Or.inl ⟨rfl, rfl⟩)
    · refine Or.inl ⟨by simpa using hforward, ?_⟩
      unfold obey
      split
      · exact ⟨_, by simp, rfl⟩
      split
      · exact ⟨_, by simp, rfl⟩
      · exact ⟨_, by simp, hsame⟩

/-- Buttons apart, entering a cell moves the robot there and extends the trail. -/
theorem enter_eq (w : World) (q : Position) : (w.enter q).level = w.level ∧
    (w.enter q).robot = ⟨q, w.robot.heading⟩ ∧ (w.enter q).trail = w.trail.push q := by
  rcases w.enter_cases q with ⟨-, he⟩ | ⟨-, -, -, he⟩ | ⟨-, -, he⟩ <;> rw [he] <;>
    exact ⟨rfl, rfl, rfl⟩

/-- The trail grows by steps forward only. -/
theorem size_trail_step (w : World) (a : Action) :
    (w.step a).trail.size ≤ w.trail.size + [a].count (.command .forward) := by
  rcases w.step_effects a with ⟨-, h, -, hstep⟩ | ⟨-, hstep⟩ | ⟨rfl, -, hstep⟩
  · rw [hstep]
    exact Nat.le_add_right ..
  · rw [hstep]
    exact Nat.le_add_right ..
  · rw [hstep, (w.enter_eq _).2.2, Array.size_push, List.count_singleton_self]

theorem size_trail_run (w : World) (actions : List Action) :
    (w.run actions).trail.size ≤ w.trail.size + actions.count (.command .forward) := by
  induction actions generalizing w with
  | nil => exact Nat.le_refl _
  | cons a actions ih =>
    have hstep := w.size_trail_step a
    have hrun := ih (w.step a)
    have hcount : (a :: actions).count (.command .forward) =
        [a].count (.command .forward) + actions.count (.command .forward) := by
      rw [← List.singleton_append, List.count_append]
    show ((w.step a).run actions).trail.size ≤ _
    omega

/-- **Without a cell that is entered, nothing changes but the heading.** -/
theorem step_of_size_le {w : World} {a : Action}
    (h : a = .command .forward → (w.step a).trail.size ≤ w.trail.size) :
    w.step a = { w with robot := ⟨w.robot.position, (w.step a).robot.heading⟩ } := by
  rcases w.step_effects a with ⟨-, k, -, hstep⟩ | ⟨-, hstep⟩ | ⟨hforward, -, hstep⟩
  · rw [hstep]
    rfl
  · rw [hstep]
  · have hsize := h hforward
    rw [hstep, (w.enter_eq _).2.2, Array.size_push] at hsize
    omega

/-! ### The path -/

/-- The start and the trail are a path of open cells that ends where the robot stands, and the robot
has one of the four headings. -/
structure OnPath (l : Level) (w : World) : Prop where
  level_eq : w.level = l
  heading : w.robot.heading ∈ Heading.all
  isOpen : ∀ p ∈ l.robot.position :: w.trail.toList, l.IsOpen p
  isChain : (l.robot.position :: w.trail.toList).IsChain Position.Adjacent
  getLast? : (l.robot.position :: w.trail.toList).getLast? = some w.robot.position

variable {l : Level} {w : World}

theorem onPath_start (hcharted : l.Charted) (h : l.Surveyed) : (start l).OnPath l where
  level_eq := rfl
  heading := h.heading
  isOpen := by
    intro p hp
    obtain rfl : p = l.robot.position := by simpa [start] using hp
    exact Level.isOpen_robot hcharted h
  isChain := .singleton _
  getLast? := rfl

namespace OnPath

theorem face (h : w.OnPath l) {k : Heading} (hk : k ∈ Heading.all) : (w.face k).OnPath l :=
  ⟨h.level_eq, hk, h.isOpen, h.isChain, h.getLast?⟩

/-- **The path goes on** to an open cell next to the robot. -/
theorem enter (h : w.OnPath l) {q : Position} (hopen : l.IsOpen q)
    (hadjacent : w.robot.position.Adjacent q) : (w.enter q).OnPath l := by
  obtain ⟨hlevel, hrobot, htrail⟩ := w.enter_eq q
  have hpath : l.robot.position :: (w.enter q).trail.toList =
      (l.robot.position :: w.trail.toList) ++ [q] := by
    rw [htrail, Array.toList_push, List.cons_append]
  refine ⟨hlevel.trans h.level_eq, ?_, ?_, ?_, ?_⟩
  · rw [hrobot]
    exact h.heading
  · rw [hpath]
    exact List.forall_mem_append.2 ⟨h.isOpen, by simpa using hopen⟩
  · rw [hpath, List.isChain_append]
    refine ⟨h.isChain, .singleton q, fun p hp q' hq' ↦ ?_⟩
    rw [h.getLast?] at hp
    obtain rfl : w.robot.position = p := by simpa using hp
    obtain rfl : q = q' := by simpa using hq'
    exact hadjacent
  · rw [hpath, List.getLast?_concat, hrobot]

/-- **The step lemma.** -/
theorem step (hcharted : l.Charted) (hsurveyed : l.Surveyed) (h : w.OnPath l) (a : Action) :
    (w.step a).OnPath l := by
  rcases w.step_effects a with ⟨-, k, hk, hstep⟩ | ⟨-, hstep⟩ | ⟨-, hfree, hstep⟩
  · have hturns := Heading.turn_mem_all _ h.heading
    rw [hstep]
    refine h.face ?_
    simp only [List.mem_cons, List.not_mem_nil, or_false] at hk
    rcases hk with rfl | rfl | rfl
    · exact h.heading
    · exact hturns.1
    · exact hturns.2
  · rw [hstep]
    exact h
  · have hstands : l.IsOpen w.robot.position :=
      h.isOpen _ (List.mem_of_getLast? h.getLast?)
    have hinside := ((Level.isOpen_iff hcharted hsurveyed).1 hstands).1
    have hahead : l.IsOpen w.robot.ahead := by
      rw [isFree, h.level_eq, Bool.and_eq_true, Bool.not_eq_true'] at hfree
      exact (Level.isOpen_iff hcharted hsurveyed).2 hfree
    rw [hstep]
    exact h.enter hahead (Level.adjacent_ahead hcharted hinside h.heading)

/-- **The run lemma.** -/
theorem run (hcharted : l.Charted) (hsurveyed : l.Surveyed) (h : w.OnPath l)
    (actions : List Action) : (w.run actions).OnPath l := by
  induction actions generalizing w with
  | nil => exact h
  | cons a actions ih => exact ih (h.step hcharted hsurveyed a)

end OnPath

/-- **The trail is a path of open cells.** Behind any actions in a level that was loaded, the robot
has one of the four headings. The start and the positions of the trail are within the bounds and
accessible, and their cells are no walls. From one of them to the next there is one step, and the
last of them is where the robot stands. The trail has no more positions than there were steps
forward. A step forward that does not extend the trail, and any other action, changes nothing but
the heading: not the position, nor the trail, nor the buttons. -/
theorem trail_is_open_path {o : Level.Options} {feed : Feed} {l : Level}
    (hl : Level.load o feed = .ok l) (actions : List Action) (w : World)
    (hw : w = (start l).run actions) :
    w.robot.heading ∈ [Heading.up, .right, .down, .left] ∧
      (∀ p ∈ l.robot.position :: w.trail.toList, l.inBounds p = true ∧
        l.isInaccessible p = false ∧ ∃ c, l.cell? p = some c ∧ c ≠ .wall) ∧
      (l.robot.position :: w.trail.toList).IsChain Position.Adjacent ∧
      (l.robot.position :: w.trail.toList).getLast? = some w.robot.position ∧
      w.trail.size ≤ actions.count (.command .forward) ∧
      ∀ a, (a = .command .forward → (w.step a).trail.size ≤ w.trail.size) →
        w.step a = { w with robot := ⟨w.robot.position, (w.step a).robot.heading⟩ } := by
  have hcharted := Level.charted_of_load hl
  have hsurveyed := Level.surveyed_of_load hl
  have h : w.OnPath l := hw ▸ (onPath_start hcharted hsurveyed).run hcharted hsurveyed actions
  have hsize := (start l).size_trail_run actions
  rw [← hw, show (start l).trail.size = 0 from rfl, Nat.zero_add] at hsize
  refine ⟨h.heading, fun p hp ↦ ?_, h.isChain, h.getLast?, hsize, fun a ↦ step_of_size_le⟩
  obtain ⟨hinside, haccessible⟩ := (Level.isOpen_iff hcharted hsurveyed).1 (h.isOpen p hp)
  exact ⟨hinside, haccessible, h.isOpen p hp⟩

/-- A nook with a wall to its right. -/
def nook : Level :=
  Level.ofGrid "nook" 2 3 5 10 ⟨Position.ofIndex 0 0, .right⟩
    [[.empty, .empty, .wall], [.empty, .empty, .wall]]

/-- Of four steps forward one is stopped by the wall and one by the edge of the grid. -/
theorem nook_explored :
    Level.load ⟨2, 3, "nook"⟩ (.ofBytes (Bytes.ofString "r.*\n..*\n5\n10")) = .ok nook ∧
    ∃ w, w = (start nook).run [.command .forward, .command .forward, .command .turnLeft,
        .command .forward, .number 3, .command ⟨120⟩, .command .turnRight, .command .turnRight,
        .command .forward] ∧
      w.trail.toList = [Position.ofIndex 0 1, Position.ofIndex 1 1] ∧
      w.robot.heading ∈ [Heading.up, .right, .down, .left] ∧
      (nook.robot.position :: w.trail.toList).IsChain Position.Adjacent ∧ w.trail.size ≤ 4 ∧
      w.step (.command .forward) =
        { w with robot := ⟨w.robot.position, (w.step (.command .forward)).robot.heading⟩ } := by
  have hl : Level.load ⟨2, 3, "nook"⟩ (.ofBytes (Bytes.ofString "r.*\n..*\n5\n10")) =
      .ok nook :=
    Level.load_eq_ofWalls (by decide +kernel)
  obtain ⟨hheading, -, hchain, -, hsize, hstep⟩ := trail_is_open_path hl
    [.command .forward, .command .forward, .command .turnLeft, .command .forward, .number 3,
      .command ⟨120⟩, .command .turnRight, .command .turnRight, .command .forward] _ rfl
  have hwall : nook.inaccessible = .ofSorted [Position.ofIndex 0 2, Position.ofIndex 1 2] :=
    PositionSet.ofList_of_pairwise (by decide)
  have hnook : nook = { nook with
      inaccessible := .ofSorted [Position.ofIndex 0 2, Position.ofIndex 1 2] } := by
    rw [← hwall]
  refine ⟨hl, _, rfl, ?_, hheading, hchain, hsize, hstep _ fun _ ↦ Nat.le_of_eq ?_⟩
  · rw [hnook]
    decide +kernel
  · rw [hnook]
    decide +kernel

end World

end RobotGolf
