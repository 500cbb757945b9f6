import Mathlib.Data.Set.Card
import RobotGolf.Proofs.Chart
import RobotGolf.World.Basic
/-!
# The buttons are a function of the trail

A world keeps a flag for each button, how many of them are set and have been at most, and whether
the level is completed, and changes all of them as the robot enters cells. None of this is more than
the trail tells: a button is pressed if and only if it was entered after the last gray button
(`Level.LeftPressed`), the number is that of such buttons, and the two others are about the prefixes
of the trail (`World.buttons_follow_trail`). So the number, which is counted up and set back apart
from the flags, always agrees with them.

`World.FollowsTrail` is the invariant that holds all of this together. Only entering a cell has to
be looked at, and there are three ways in which that can go. They differ in what is pressed
afterwards, but not in how the number of pressed buttons enters into the maximum, which is said once
(`FollowsTrail.isGreatest_concat`).
-/

namespace RobotGolf

/-! ### Flags -/

namespace ButtonFlags

variable {flags : ButtonFlags} {p q : Position}

theorem isSet_cons (flag : Position × Bool) (flags : ButtonFlags) (p : Position) :
    isSet (flag :: flags) p = if p = flag.1 then flag.2 else isSet flags p := by
  rw [isSet, List.lookup_cons]
  by_cases h : p = flag.1
  · rw [if_pos h, beq_iff_eq.2 h]
    rfl
  · rw [if_neg h, beq_eq_false_iff_ne.2 h]
    rfl

theorem isSet_eq_false (h : ∀ flag ∈ flags, flag.2 = false) : isSet flags p = false := by
  induction flags with
  | nil => rfl
  | cons flag flags ih =>
    rw [isSet_cons, h flag List.mem_cons_self, ih fun x hx ↦ h x (List.mem_cons_of_mem _ hx),
      ite_self]

theorem isSet_set_iff : (flags.set q).isSet p = true ↔ p = q ∨ flags.isSet p = true := by
  induction flags with
  | nil =>
    rw [set, isSet_cons]
    by_cases hp : p = q <;> simp [hp]
  | cons flag flags ih =>
    unfold set
    split
    · next h =>
      rw [isSet_cons, isSet_cons, h]
      by_cases hp : p = q <;> simp [hp]
    · next h =>
      rw [isSet_cons, isSet_cons]
      split
      · next hp => simp [hp, h]
      · exact ih

/-- Setting the flag of a button leaves the buttons as they are. -/
theorem map_fst_set (h : q ∈ flags.map Prod.fst) :
    (flags.set q).map Prod.fst = flags.map Prod.fst := by
  induction flags with
  | nil => cases h
  | cons flag flags ih =>
    unfold set
    split
    · next hq => rw [List.map_cons, List.map_cons, hq]
    · next hq =>
      rw [List.map_cons, List.map_cons, ih ((List.mem_cons.1 h).resolve_left (Ne.symm hq))]

theorem map_fst_clear (flags : ButtonFlags) : flags.clear.map Prod.fst = flags.map Prod.fst := by
  rw [clear, List.map_map]
  rfl

theorem isSet_clear (flags : ButtonFlags) (p : Position) : flags.clear.isSet p = false := by
  refine isSet_eq_false fun flag hflag ↦ ?_
  obtain ⟨_, -, rfl⟩ := List.mem_map.1 hflag
  rfl

theorem map_fst_released (buttons : List Position) :
    (released buttons).map Prod.fst = buttons := by
  rw [released, List.map_map]
  exact List.map_id _

theorem isSet_released (buttons : List Position) (p : Position) :
    (released buttons).isSet p = false := by
  refine isSet_eq_false fun flag hflag ↦ ?_
  obtain ⟨_, -, rfl⟩ := List.mem_map.1 hflag
  rfl

end ButtonFlags

/-! ### What a trail leaves pressed -/

namespace Level

/-- A white button that a trail enters, and behind which it enters no gray one. -/
def LeftPressed (l : Level) (trail : List Position) (p : Position) : Prop :=
  l.cell? p = some .white ∧
    ∃ front back, trail = front ++ p :: back ∧ ∀ q ∈ back, l.cell? q ≠ some .gray

/-- The numbers of buttons that the prefixes of a trail leave pressed. -/
def counts (l : Level) (trail : List Position) : Set ℕ :=
  {n | ∃ front, front <+: trail ∧ n = {p | l.LeftPressed front p}.ncard}

variable {l : Level} {trail : List Position} {p q : Position}

theorem not_leftPressed_nil : ¬ l.LeftPressed [] p := by
  rintro ⟨-, front, back, heq, -⟩
  simp at heq

/-- One more cell is the button itself, or it is behind the button. -/
theorem leftPressed_concat : l.LeftPressed (trail ++ [q]) p ↔
    (l.LeftPressed trail p ∧ l.cell? q ≠ some .gray) ∨ (p = q ∧ l.cell? q = some .white) := by
  constructor
  · rintro ⟨hwhite, front, back, heq, hback⟩
    rcases List.eq_nil_or_concat back with rfl | ⟨back, r, rfl⟩
    · obtain rfl : q = p := by simpa using (List.append_inj' heq rfl).2
      exact Or.inr ⟨rfl, hwhite⟩
    · rw [List.concat_eq_append, ← List.cons_append, ← List.append_assoc] at heq
      obtain ⟨rfl, hlast⟩ := List.append_inj' heq rfl
      obtain rfl : q = r := by simpa using hlast
      refine Or.inl ⟨⟨hwhite, front, back, rfl, fun r hr ↦ hback r ?_⟩, hback q ?_⟩
      · simp [hr]
      · simp
  · rintro (⟨⟨hwhite, front, back, rfl, hback⟩, hq⟩ | ⟨rfl, hwhite⟩)
    · refine ⟨hwhite, front, back ++ [q], by simp, fun r hr ↦ ?_⟩
      rcases List.mem_append.1 hr with hr | hr
      · exact hback r hr
      · rwa [List.mem_singleton.1 hr]
    · exact ⟨hwhite, trail, [], rfl, by simp⟩

/-- Behind a gray button nothing is left pressed. -/
theorem not_leftPressed_concat (hq : l.cell? q = some .gray) :
    ¬ l.LeftPressed (trail ++ [q]) p := by
  simp [leftPressed_concat, hq]

/-- A white button is one more, unless it was pressed before. -/
theorem leftPressed_concat_white (hq : l.cell? q = some .white) :
    l.LeftPressed (trail ++ [q]) p ↔ p = q ∨ l.LeftPressed trail p := by
  rw [leftPressed_concat, or_comm]
  simp [hq]

/-- Any other cell leaves pressed what is, and so does a white button that was pressed before. -/
theorem leftPressed_concat_of_ne_gray (hq : l.cell? q ≠ some .gray)
    (hold : l.cell? q = some .white → l.LeftPressed trail q) :
    l.LeftPressed (trail ++ [q]) p ↔ l.LeftPressed trail p := by
  rw [leftPressed_concat, and_iff_left hq]
  refine or_iff_left_of_imp ?_
  rintro ⟨rfl, hwhite⟩
  exact hold hwhite

/-- One more cell makes for one more prefix. -/
theorem counts_concat (l : Level) (trail : List Position) (q : Position) :
    l.counts (trail ++ [q]) =
      insert {p | l.LeftPressed (trail ++ [q]) p}.ncard (l.counts trail) := by
  ext n
  simp only [counts, Set.mem_insert_iff, Set.mem_ofPred_eq, List.prefix_concat_iff]
  constructor
  · rintro ⟨front, rfl | hfront, rfl⟩
    · exact Or.inl rfl
    · exact Or.inr ⟨front, hfront, rfl⟩
  · rintro (rfl | ⟨front, hfront, rfl⟩)
    · exact ⟨_, Or.inl rfl, rfl⟩
    · exact ⟨front, Or.inr hfront, rfl⟩

/-- The white buttons are listed, each once. -/
theorem Charted.setOf_white (h : l.Charted) :
    {p | l.cell? p = some .white} = l.whiteButtons.toFinset := by
  ext p
  simp [h.whiteButtons, h.mem_positions_iff]

theorem Charted.ncard_white (h : l.Charted) :
    {p | l.cell? p = some .white}.ncard = l.whiteButtons.length := by
  rw [h.setOf_white, Set.ncard_coe_finset, h.whiteButtons,
    List.toFinset_card_of_nodup (h.nodup_positions .white)]

theorem Charted.finite_white (h : l.Charted) : {p | l.cell? p = some .white}.Finite :=
  h.setOf_white ▸ Finset.finite_toSet _

/-- Only white buttons are pressed. -/
theorem Charted.finite_leftPressed (h : l.Charted) (trail : List Position) :
    {p | l.LeftPressed trail p}.Finite := h.finite_white.subset fun _ hp ↦ hp.1

theorem Charted.ncard_leftPressed_le (h : l.Charted) (trail : List Position) :
    {p | l.LeftPressed trail p}.ncard ≤ l.whiteButtons.length := by
  rw [← h.ncard_white]
  exact Set.ncard_le_ncard (fun p hp ↦ hp.1) h.finite_white

end Level

/-! ### The invariant -/

namespace World

/-- Enters a cell. -/
def enter (w : World) (q : Position) : World :=
  { w with robot := { w.robot with position := q }, trail := w.trail.push q }.touch q

/-- Enters a cell that has no button to be touched. -/
def arrive (w : World) (q : Position) : World :=
  { w with robot := { w.robot with position := q }, trail := w.trail.push q }

/-- Releases all buttons. -/
def release (w : World) : World := { w with flags := w.flags.clear, pressed := 0 }

/-- Presses one more button. -/
def press (w : World) (q : Position) : World :=
  { w with
    flags := w.flags.set q
    pressed := w.pressed + 1
    maxPressed := max w.maxPressed (w.pressed + 1)
    completed := w.completed || w.pressed + 1 == (w.flags.set q).length }

/-- **All that entering a cell can do**: a gray button releases the others, a white one is pressed
if it was not before, and any other cell has no effect on the buttons. -/
theorem enter_cases (w : World) (q : Position) :
    (w.level.isGrayButton q = true ∧ w.enter q = (w.arrive q).release) ∨
    (¬ w.level.isGrayButton q = true ∧ w.level.isWhiteButton q = true ∧ ¬ w.isPressed q = true ∧
      w.enter q = (w.arrive q).press q) ∨
    (¬ w.level.isGrayButton q = true ∧ (w.level.isWhiteButton q = true → w.isPressed q = true) ∧
      w.enter q = w.arrive q) := by
  have henter : w.enter q = (w.arrive q).touch q := rfl
  by_cases hgray : w.level.isGrayButton q = true
  · exact Or.inl ⟨hgray, henter.trans (if_pos hgray)⟩
  have htouch := henter.trans (if_neg hgray)
  by_cases hfresh : w.level.isWhiteButton q = true ∧ ¬ w.isPressed q = true
  · exact Or.inr (Or.inl ⟨hgray, hfresh.1, hfresh.2, htouch.trans (if_pos hfresh)⟩)
  · exact Or.inr (Or.inr ⟨hgray, by simpa using hfresh, htouch.trans (if_neg hfresh)⟩)

/-- An action turns the robot, if it does anything to it, or has it enter the cell ahead. -/
theorem step_cases (w : World) (a : Action) : (∃ heading, w.step a = w.face heading) ∨
    (w.isFree w.robot.ahead = true ∧ w.step a = w.enter w.robot.ahead) := by
  have hsame : w = w.face w.robot.heading := rfl
  cases a with
  | number n => exact Or.inl ⟨_, hsame⟩
  | command c =>
    show (∃ heading, w.obey c = w.face heading) ∨
      (w.isFree w.robot.ahead = true ∧ w.obey c = w.enter w.robot.ahead)
    unfold obey
    split
    · exact Or.inl ⟨_, rfl⟩
    split
    · exact Or.inl ⟨_, rfl⟩
    split
    · unfold forward
      dsimp only
      split
      · rename_i hfree
        exact Or.inr ⟨hfree, rfl⟩
      · exact Or.inl ⟨_, hsame⟩
    · exact Or.inl ⟨_, hsame⟩

/-- The buttons of a world are what its trail says. -/
structure FollowsTrail (l : Level) (w : World) : Prop where
  level_eq : w.level = l
  buttons : w.flags.map Prod.fst = l.whiteButtons
  isPressed_iff : ∀ p, w.isPressed p = true ↔ l.LeftPressed w.trail.toList p
  pressed_eq : w.pressed = {p | l.LeftPressed w.trail.toList p}.ncard
  isGreatest : IsGreatest (l.counts w.trail.toList) w.maxPressed
  completed : w.completed = true ↔ w.maxPressed = l.whiteButtons.length

variable {l : Level} {w w' : World}

theorem isPressed_start (l : Level) (p : Position) : (start l).isPressed p = false :=
  ButtonFlags.isSet_released _ p

theorem followsTrail_start (l : Level) : (start l).FollowsTrail l := by
  have hempty : {p | l.LeftPressed [] p} = ∅ := by
    ext p
    simp [Level.not_leftPressed_nil]
  have hcounts : l.counts [] = {0} := by
    ext n
    simp [Level.counts, hempty]
  have hcompleted : l.whiteButtons.isEmpty = true ↔ 0 = l.whiteButtons.length := by
    rw [List.isEmpty_iff, eq_comm (a := 0), List.length_eq_zero_iff]
  refine ⟨rfl, ButtonFlags.map_fst_released _, fun p ↦ ?_, ?_, ?_, hcompleted⟩
  · exact iff_of_false (Bool.eq_false_iff.1 (isPressed_start l p)) Level.not_leftPressed_nil
  · show 0 = {p | l.LeftPressed [] p}.ncard
    rw [hempty, Set.ncard_empty]
  · show IsGreatest (l.counts []) 0
    rw [hcounts]
    exact isGreatest_singleton

namespace FollowsTrail

/-- The robot has no part in it. -/
theorem of_same (h : w.FollowsTrail l) (hsame : w' = { w with robot := w'.robot }) :
    w'.FollowsTrail l := by
  rw [hsame]
  exact ⟨h.level_eq, h.buttons, h.isPressed_iff, h.pressed_eq, h.isGreatest, h.completed⟩

/-- **The number of pressed buttons agrees with the flags.** -/
theorem pressed_eq_ncard (h : w.FollowsTrail l) : w.pressed = {p | w.isPressed p = true}.ncard := by
  rw [h.pressed_eq]
  congr 1
  ext p
  exact (h.isPressed_iff p).symm

/-- The whole trail is one of its prefixes. -/
theorem pressed_le (h : w.FollowsTrail l) : w.pressed ≤ w.maxPressed :=
  h.isGreatest.2 ⟨w.trail.toList, List.prefix_rfl, h.pressed_eq⟩

theorem maxPressed_le (hl : l.Charted) (h : w.FollowsTrail l) :
    w.maxPressed ≤ l.whiteButtons.length := by
  obtain ⟨front, -, hmax⟩ := h.isGreatest.1
  rw [hmax]
  exact hl.ncard_leftPressed_le front

/-- However many buttons are pressed behind one more cell, the number enters into the maximum. -/
theorem isGreatest_concat (h : w.FollowsTrail l) {q : Position} {pressed : ℕ}
    (hpressed : pressed = {p | l.LeftPressed (w.trail.toList ++ [q]) p}.ncard) :
    IsGreatest (l.counts (w.trail.toList ++ [q])) (max w.maxPressed pressed) := by
  rw [Level.counts_concat, ← hpressed, max_comm]
  exact h.isGreatest.insert _

theorem toList_trail_arrive (w : World) (q : Position) :
    (w.arrive q).trail.toList = w.trail.toList ++ [q] := Array.toList_push

/-- The maximum remains if all buttons are released. -/
theorem release (h : w.FollowsTrail l) {q : Position} (hq : l.cell? q = some .gray) :
    (w.arrive q).release.FollowsTrail l := by
  have htrail := toList_trail_arrive w q
  have hpressed : 0 = {p | l.LeftPressed (w.trail.toList ++ [q]) p}.ncard := by
    simp [Level.not_leftPressed_concat hq]
  have hmax := h.isGreatest_concat hpressed
  rw [Nat.max_zero] at hmax
  refine ⟨h.level_eq, (ButtonFlags.map_fst_clear _).trans h.buttons, fun p ↦ ?_,
    htrail ▸ hpressed, htrail ▸ hmax, h.completed⟩
  exact iff_of_false (Bool.eq_false_iff.1 (ButtonFlags.isSet_clear _ p))
    (htrail ▸ Level.not_leftPressed_concat hq)

theorem press (hl : l.Charted) (h : w.FollowsTrail l) {q : Position}
    (hq : l.cell? q = some .white) (hfresh : ¬ w.isPressed q = true) :
    ((w.arrive q).press q).FollowsTrail l := by
  have htrail := toList_trail_arrive w q
  have hpressed : w.pressed + 1 = {p | l.LeftPressed (w.trail.toList ++ [q]) p}.ncard := by
    have hinsert : {p | l.LeftPressed (w.trail.toList ++ [q]) p} =
        insert q {p | l.LeftPressed w.trail.toList p} :=
      Set.ext fun p ↦ Level.leftPressed_concat_white hq
    have hnot : q ∉ {p | l.LeftPressed w.trail.toList p} := mt (h.isPressed_iff q).2 hfresh
    rw [hinsert, Set.ncard_insert_of_notMem hnot (hl.finite_leftPressed _), h.pressed_eq]
  have hbuttons : (w.flags.set q).map Prod.fst = l.whiteButtons := by
    rw [ButtonFlags.map_fst_set, h.buttons]
    rw [h.buttons, hl.whiteButtons]
    exact hl.mem_positions_iff.2 hq
  have hlength : (w.flags.set q).length = l.whiteButtons.length := by
    rw [← hbuttons, List.length_map]
  have hmax := h.isGreatest_concat hpressed
  -- neither the old maximum nor the new number is more than there are white buttons
  have hold := h.maxPressed_le hl
  have hnew := hl.ncard_leftPressed_le (w.trail.toList ++ [q])
  rw [← hpressed] at hnew
  refine ⟨h.level_eq, hbuttons, fun p ↦ ?_, htrail ▸ hpressed, htrail ▸ hmax, ?_⟩
  · show (w.flags.set q).isSet p = true ↔ l.LeftPressed (w.arrive q).trail.toList p
    rw [htrail, Level.leftPressed_concat_white hq, ← h.isPressed_iff]
    exact ButtonFlags.isSet_set_iff
  · show (w.completed || w.pressed + 1 == (w.flags.set q).length) = true ↔
      max w.maxPressed (w.pressed + 1) = l.whiteButtons.length
    rw [Bool.or_eq_true, h.completed, beq_iff_eq, hlength]
    omega

/-- What is pressed is in the maximum already. -/
theorem arrive (h : w.FollowsTrail l) {q : Position} (hgray : l.cell? q ≠ some .gray)
    (hwhite : l.cell? q = some .white → w.isPressed q = true) : (w.arrive q).FollowsTrail l := by
  have htrail := toList_trail_arrive w q
  have hsame : ∀ p, l.LeftPressed (w.trail.toList ++ [q]) p ↔ l.LeftPressed w.trail.toList p :=
    fun p ↦ Level.leftPressed_concat_of_ne_gray hgray fun hq ↦ (h.isPressed_iff q).1 (hwhite hq)
  have hpressed : w.pressed = {p | l.LeftPressed (w.trail.toList ++ [q]) p}.ncard := by
    simp only [hsame, h.pressed_eq]
  have hmax := h.isGreatest_concat hpressed
  rw [max_eq_left h.pressed_le] at hmax
  refine ⟨h.level_eq, h.buttons, fun p ↦ ?_, htrail ▸ hpressed, htrail ▸ hmax, h.completed⟩
  rw [htrail, hsame]
  exact h.isPressed_iff p

/-- **The step lemma**: the invariant holds behind one more cell. -/
theorem enter (hl : l.Charted) (h : w.FollowsTrail l) (q : Position) :
    (w.enter q).FollowsTrail l := by
  have hwhite : w.level.isWhiteButton q = true ↔ l.cell? q = some .white := by
    rw [h.level_eq, hl.isWhiteButton_iff, hl.whiteButtons, hl.mem_positions_iff]
  have hgray : w.level.isGrayButton q = true ↔ l.cell? q = some .gray := by
    rw [h.level_eq, hl.isGrayButton_iff, hl.grayButtons, hl.mem_positions_iff]
  rcases w.enter_cases q with ⟨hq, he⟩ | ⟨-, hq, hfresh, he⟩ | ⟨hnotGray, hq, he⟩
  · exact he ▸ h.release (hgray.1 hq)
  · exact he ▸ h.press hl (hwhite.1 hq) hfresh
  · exact he ▸ h.arrive (mt hgray.2 hnotGray) fun hcell ↦ hq (hwhite.2 hcell)

theorem step (hl : l.Charted) (h : w.FollowsTrail l) (a : Action) :
    (w.step a).FollowsTrail l := by
  rcases step_cases w a with ⟨heading, hstep⟩ | ⟨-, hstep⟩
  · exact hstep ▸ h.of_same rfl
  · exact hstep ▸ h.enter hl _

/-- **The run lemma**: any actions keep the invariant. -/
theorem run (hl : l.Charted) (h : w.FollowsTrail l) (actions : List Action) :
    (w.run actions).FollowsTrail l := by
  induction actions generalizing w with
  | nil => exact h
  | cons a actions ih => exact ih (h.step hl a)

end FollowsTrail

/-! ### Completion -/

/-- A completed level remains so. -/
theorem completed_step (h : w.completed = true) (a : Action) : (w.step a).completed = true := by
  rcases step_cases w a with ⟨heading, hstep⟩ | ⟨-, hstep⟩
  · rw [hstep]
    exact h
  · rw [hstep]
    rcases w.enter_cases w.robot.ahead with ⟨-, he⟩ | ⟨-, -, -, he⟩ | ⟨-, -, he⟩
    · exact he ▸ h
    · rw [he]
      exact Bool.or_eq_true_iff.2 (Or.inl h)
    · exact he ▸ h

theorem completed_run (h : w.completed = true) (actions : List Action) :
    (w.run actions).completed = true := by
  induction actions generalizing w with
  | nil => exact h
  | cons a actions ih => exact ih (completed_step h a)

/-- **The buttons of a world are a function of its trail.** Behind any actions in a level that was
loaded, a position is pressed if and only if it is a white button that the trail enters behind its
last gray button. The number of pressed buttons is that of the flags that are set and that of such
positions, and the greatest number of pressed buttons is the greatest over all prefixes of the
trail. The level is completed if and
only if this is the number of its white buttons; so without white buttons it is completed from the
start. Once completed it remains so, whatever comes, and the numbers are in order. -/
theorem buttons_follow_trail {o : Level.Options} {feed : Feed} {l : Level}
    (hl : Level.load o feed = .ok l) (actions : List Action) (w : World)
    (hw : w = (start l).run actions) :
    (∀ p, w.isPressed p = true ↔ l.LeftPressed w.trail.toList p) ∧
      w.pressed = {p | w.isPressed p = true}.ncard ∧
      w.pressed = {p | l.LeftPressed w.trail.toList p}.ncard ∧
      IsGreatest {n | ∃ front, front <+: w.trail.toList ∧
        n = {p | l.LeftPressed front p}.ncard} w.maxPressed ∧
      (w.completed = true ↔ w.maxPressed = {p | l.cell? p = some .white}.ncard) ∧
      ((start l).completed = true ↔ ∀ p, l.cell? p ≠ some .white) ∧
      (w.completed = true → ∀ more, (w.run more).completed = true) ∧
      w.pressed ≤ w.maxPressed ∧
      w.maxPressed ≤ {p | l.cell? p = some .white}.ncard := by
  have hcharted := Level.charted_of_load hl
  have h : w.FollowsTrail l := hw ▸ (followsTrail_start l).run hcharted actions
  have hstart : (start l).completed = true ↔ ∀ p, l.cell? p ≠ some .white := by
    show l.whiteButtons.isEmpty = true ↔ _
    rw [List.isEmpty_iff, List.eq_nil_iff_forall_not_mem, hcharted.whiteButtons]
    exact forall_congr' fun p ↦ not_congr hcharted.mem_positions_iff
  rw [hcharted.ncard_white]
  exact ⟨h.isPressed_iff, h.pressed_eq_ncard, h.pressed_eq, h.isGreatest, h.completed, hstart,
    fun hcompleted more ↦ completed_run hcompleted more, h.pressed_le, h.maxPressed_le hcharted⟩

/-- A gray button between two white ones, and the robot in front of them. -/
def gate : Level :=
  Level.ofGrid "gate" 1 4 100 10 ⟨Position.ofIndex 0 0, .right⟩ [[.empty, .white, .gray, .white]]

/-- Behind three steps only the last button is pressed, and no two have been at any time. The first
one was entered in front of the gray button. -/
theorem gate_passed :
    Level.load ⟨1, 4, "gate"⟩ (.ofBytes (Bytes.ofString "rwgw\n100\n10")) = .ok gate ∧
    ∃ w, w = (start gate).run [.command .forward, .command .forward, .number 7,
        .command .forward] ∧
      w.flags = [(Position.ofIndex 0 1, false), (Position.ofIndex 0 3, true)] ∧ w.pressed = 1 ∧
      w.maxPressed = 1 ∧ w.completed = false ∧
      gate.LeftPressed w.trail.toList (Position.ofIndex 0 3) ∧
      ¬ gate.LeftPressed w.trail.toList (Position.ofIndex 0 1) ∧
      1 = {p | gate.LeftPressed w.trail.toList p}.ncard ∧
      w.maxPressed ≤ {p | gate.cell? p = some .white}.ncard := by
  have hl : Level.load ⟨1, 4, "gate"⟩ (.ofBytes (Bytes.ofString "rwgw\n100\n10")) = .ok gate :=
    Level.load_eq_ofWalls (by decide +kernel)
  obtain ⟨w, hw⟩ : ∃ w, w = (start gate).run [.command .forward, .command .forward, .number 7,
    .command .forward] := ⟨_, rfl⟩
  obtain ⟨hpressed, -, hcount, -, -, -, -, -, hmax⟩ := buttons_follow_trail hl _ w hw
  have hwhite : gate.white = .ofSorted gate.whiteButtons :=
    PositionSet.ofList_of_pairwise (by decide)
  have hgate : gate = { gate with white := .ofSorted gate.whiteButtons } := by rw [← hwhite]
  obtain ⟨hflags, hone, hgreatest, hcompleted, hlast, hfirst⟩ :
      w.flags = [(Position.ofIndex 0 1, false), (Position.ofIndex 0 3, true)] ∧ w.pressed = 1 ∧
      w.maxPressed = 1 ∧ w.completed = false ∧ w.isPressed (Position.ofIndex 0 3) = true ∧
      w.isPressed (Position.ofIndex 0 1) = false := by
    rw [hw, hgate]
    decide +kernel
  refine ⟨hl, w, hw, hflags, hone, hgreatest, hcompleted, (hpressed _).1 hlast, ?_,
    hone.symm.trans hcount, hmax⟩
  rw [← hpressed, hfirst]
  exact Bool.false_ne_true

end World

end RobotGolf
