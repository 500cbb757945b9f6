import RobotGolf.Proofs.ByteCost
import RobotGolf.Proofs.Invariant
import RobotGolf.Proofs.Runs
/-!
# Raising the limits only extends results

The limits of an evaluation are there to stop it, and must not be seen as long as they do not. Two
machines that differ in their limits only are compared step by step, the first one under the lower
limits: either the first one ends with a recursion error, or both do the same and differ in their
limits only again (`step_withLimits`). The limits are looked at in the middle of a step, when the
stack has moved on, the counter has gone up and a frame may have been dropped; but what is compared
with them does not depend on them, so a frame that is entered under the lower limits is entered
under the higher ones too.

From one step this goes over to one request and to any number of them (`next_withLimits`,
`takeOnto_withLimits`). In front of the recursion error the same actions were delivered, and what
the machine under the higher limits delivers comes behind them (`prefix_of_takeOnto`).

## Requests without a result

A request has no result if there can be no room for it, or if a sum with a blank operand is asked
for its value. Source texts hold no blanks, and nor do trees whose terms are all numbers and
parameters (`Program.Filled`), so that their requests have results (`take?_eq_none_iff`). Only where
a tree holds blanks may the machine under the higher limits get stuck where the other one was
stopped.
-/

namespace RobotGolf

/-! ### Programs without blanks -/

/-- In no sum of the program an operand is left blank. -/
def Program.Filled (p : Program) : Prop := ∀ a ∈ p.sums, a.Filled

instance (p : Program) : Decidable p.Filled :=
  inferInstanceAs (Decidable (∀ a ∈ p.sums, a.Filled))

/-- **A source text leaves no operand blank.** -/
theorem Program.filled_of_parse {source : Bytes} {p : Program} (h : Program.parse source = .ok p) :
    p.Filled := by
  obtain ⟨d, rfl, -, -⟩ := Grammar.exists_tokens_of_parse h
  intro a ha t ht
  obtain ⟨e, rfl, -⟩ := d.sumsWithin a ha
  have haddend : ∀ x : Grammar.Addend, x.operand ≠ .blank := by
    rintro (x | x) <;> simp [Grammar.Addend.operand]
  rcases List.mem_cons.1 ht with rfl | hothers
  · exact haddend _
  · obtain ⟨x, -, rfl⟩ := List.mem_map.1 hothers
    exact haddend _

/-- A number, or a sequence without blanks, whatever its scope. -/
def Value.Filled : Value Env → Prop
  | number _ => True
  | deferred body _ => ∀ a ∈ Element.sequenceSums body, a.Filled

/-- There are no blanks in what is left of a frame, nor in any sequence that can be reached through
its scope. -/
structure Frame.Filled (f : Frame Env) : Prop where
  rest : ∀ a ∈ Element.sequenceSums f.rest, a.Filled
  scope : f.scope.Hereditary Value.Filled

/-- The sums of an argument are among those of the list that it stands in. -/
theorem Argument.sums_subset {a : Argument} {args : List Argument} (h : a ∈ args) :
    a.sums ⊆ Argument.listSums args := by
  induction args with
  | nil => simp at h
  | cons b rest ih =>
    rw [Argument.listSums]
    rcases List.mem_cons.1 h with rfl | hrest
    · exact List.subset_append_left _ _
    · exact List.subset_append_of_subset_right _ (ih hrest)

namespace Frame.Filled

variable {p : Program} {f g : Frame Env} {x : Element}

/-- The element ahead, and the frame behind it. -/
theorem advance (hf : f.Filled) (h : f.advance? = some (x, g)) :
    (∀ a ∈ x.sums, a.Filled) ∧ g.Filled := by
  obtain ⟨hrest, hscope⟩ := Frame.of_advance? h
  have hsums := hf.rest
  rw [hrest, Element.sequenceSums, List.forall_mem_append] at hsums
  exact ⟨hsums.1, hsums.2, hscope ▸ hf.scope⟩

/-- **An element without blanks never gets the machine stuck**, and the frame that it may ask for
has no blanks either. -/
theorem demand (hp : p.Filled) (hg : g.Filled) (hx : ∀ a ∈ x.sums, a.Filled) :
    g.demand p x ≠ .stick ∧ ∀ h, g.demand p x = .enter h → h.Filled := by
  cases x with
  | command c span => simp [Frame.demand]
  | parameter name span =>
    rw [Frame.demand]
    rcases hlookup : g.scope.lookup name with failure | n | ⟨body, captured⟩
    · simp
    · by_cases hsole : g.sole = true <;> simp [hsole]
    · have hvalue := hg.scope.of_lookup hlookup
      refine ⟨by simp, fun h hh ↦ ?_⟩
      obtain rfl : Frame.enter name body captured = h := by simpa using hh
      exact ⟨hvalue.good, hvalue.captured body captured rfl⟩
  | call callee args span =>
    rw [Element.sums] at hx
    have hargs : ∀ a ∈ args, ∀ sum ∈ a.sums, sum.Filled :=
      fun a ha sum hsum ↦ hx sum (Argument.sums_subset ha hsum)
    rw [Frame.demand]
    rcases hfind : p.find? callee with - | d
    · simp
    by_cases hlength : args.length = d.params.length
    · simp only [hlength, ne_eq, not_true_eq_false, if_false]
      rcases hbind : Argument.bindAll g.scope (Scope.empty (.ofString d.name)) d.params args with
        (failure | -) | (- | scope)
      · simp
      · refine absurd hbind (Argument.bindAll_ne_blank (fun sum hmem ↦ ?_) _)
        exact hargs _ hmem sum (by simp [Argument.sums])
      · simp
      · refine ⟨by simp, fun h hh ↦ ?_⟩
        obtain rfl : Frame.enter d.name d.body (.mk scope) = h := by simpa using hh
        refine ⟨fun a ha ↦ hp a ?_, ?_⟩
        · exact List.mem_append_left _
            (List.mem_flatMap.2 ⟨d, List.mem_of_find?_eq_some hfind, ha⟩)
        · refine Argument.bindAll_hereditary hg.scope (fun _ _ ↦ trivial) ?_
            (Env.hereditary_empty _) hbind
          exact fun body span hquoted a ha ↦ hargs _ hquoted a (by rwa [Argument.sums])
    · simp [hlength]

/-- A program without blanks keeps its frames so. -/
theorem kept (hp : p.Filled) : Frame.Kept p Frame.Filled where
  main := ⟨fun a ha ↦ hp a (List.mem_append_right _ ha), Env.hereditary_empty _⟩
  pass _ _ _ hadvance hf := (hf.advance hadvance).2
  enter _ _ _ h hadvance hf hdemand :=
    ((hf.advance hadvance).2.demand hp (hf.advance hadvance).1).2 h hdemand

end Frame.Filled

namespace Machine

section

variable {p : Program} {limits : Limits} {m : Machine}

theorem Reachable.demand_ne_stick (hp : p.Filled) (hm : Reachable p limits m) :
    m.demand ≠ .stick := by
  intro hstick
  obtain ⟨f, hmem, x, g, hadvance, hdemand⟩ := exists_of_demand (m := m) (by simp [hstick])
    (by simp [hstick])
  rw [hm.program_eq] at hdemand
  obtain ⟨hx, hg⟩ := (hm.forall_frames (Frame.Filled.kept hp) f hmem).advance hadvance
  exact (hg.demand hp hx).1 (hdemand.symm.trans hstick)

theorem Reachable.next_ne_stuck (hp : p.Filled) (hm : Reachable p limits m) (m' : Machine) :
    m.next ≠ some (.stuck, m') := by
  intro h
  rw [next_eq_some_iff] at h
  generalize hr : (Reply.stuck, m') = r at h
  induction h with
  | quiet hstep _ ih => exact ih (hm.of_step hstep) hr
  | action => simp at hr
  | ended => simp at hr
  | stuck hstep => exact hm.demand_ne_stick hp (stuck_cases hstep)

theorem Reachable.takeOnto_ne_none (hp : p.Filled) (hlimit : limits.silent < Int64.maxValue)
    (hm : Reachable p limits m) (before : List Action) (n : Nat) :
    (m.takeOnto before n).1 ≠ none := by
  induction n generalizing m before with
  | zero => simp [Machine.takeOnto]
  | succ n ih =>
    rw [Machine.takeOnto]
    rcases hreply : m.next with - | ⟨a | - | -, m'⟩
    · exact absurd hreply (next_ne_none (by rwa [hm.limits_eq]))
    · exact ih (hm.next hreply) (a :: before)
    · simp
    · exact absurd hreply (hm.next_ne_stuck hp m')

/-- **Requests to a program without blanks have results**, if there can be room for them and the
limit on frames for one action is one. -/
theorem Reachable.of_take?_eq_none (hp : p.Filled) (hm : Reachable p limits m) {n : Int}
    (h : (m.take? n).1 = none) : capacity < n ∨ limits.silent = Int64.maxValue := by
  rcases Int64.lt_or_eq_of_le (Int64.le_maxValue limits.silent) with hlimit | hlargest
  · unfold Machine.take? at h
    split at h
    · next hn => exact Or.inl hn
    · exact absurd h (hm.takeOnto_ne_none hp hlimit [] n.toNat)
  · exact Or.inr hlargest

theorem Reachable.take?_eq_none_iff (hp : p.Filled) (hlimit : limits.silent < Int64.maxValue)
    (hm : Reachable p limits m) (n : Int) : (m.take? n).1 = none ↔ capacity < n := by
  refine ⟨fun h ↦ (hm.of_take?_eq_none hp h).resolve_right ?_, take?_of_lt m⟩
  exact Int64.ne_of_lt hlimit

end

end Machine

/-! ### One step under two limits -/

/-- The machine under other limits. -/
def Machine.withLimits (m : Machine) (limits : Limits) : Machine := { m with limits := limits }

/-- An outcome under other limits. -/
def Outcome.withLimits (limits : Limits) : Outcome → Outcome
  | quiet m => quiet (m.withLimits limits)
  | action a m => action a (m.withLimits limits)
  | ended m => ended (m.withLimits limits)
  | stuck m => stuck (m.withLimits limits)

/-- Limits that admit no more than others. -/
structure Limits.Le (l l' : Limits) : Prop where
  depth : l.depth ≤ l'.depth
  silent : l.silent ≤ l'.silent

namespace Machine

variable {m : Machine} {limits : Limits}

@[simp]
theorem demand_withLimits (m : Machine) (limits : Limits) :
    (m.withLimits limits).demand = m.demand := rfl

@[simp]
theorem moved_withLimits (m : Machine) (limits : Limits) :
    (m.withLimits limits).moved = m.moved.withLimits limits := by
  simp only [moved, withLimits]
  split
  · rfl
  · split <;> rfl

/-- Entering a frame: what is compared with the limits does not depend on them. -/
theorem enter_withLimits (hle : m.limits.Le limits) (f : Frame Env) :
    (∃ m', m.enter f = .ended m' ∧ m'.Overrun) ∨
      (m.withLimits limits).enter f = (m.enter f).withLimits limits := by
  rcases m.enter_cases f with ⟨-, he⟩ | ⟨-, -, he⟩ | ⟨hs, hd, he⟩
  · exact Or.inl ⟨_, he, _, _, rfl⟩
  · exact Or.inl ⟨_, he, _, _, rfl⟩
  · rcases (m.withLimits limits).enter_cases f with ⟨hs', -⟩ | ⟨-, hd', -⟩ | ⟨-, -, he'⟩
    · exact absurd (Int64.le_trans hs hle.silent) (Int64.not_le.2 hs')
    · have hdepth := Int64.le_iff_toInt_le.1 hle.depth
      simp only [withLimits] at hd'
      omega
    · exact Or.inr (by rw [he, he']; rfl)

/-- **A step is the same under higher limits**, unless it ends with a recursion error. -/
theorem step_withLimits (hle : m.limits.Le limits) :
    (∃ m', m.step = .ended m' ∧ m'.Overrun) ∨
      (m.withLimits limits).step = m.step.withLimits limits := by
  rw [step_eq_perform, step_eq_perform, demand_withLimits, moved_withLimits]
  rcases m.demand with - | - | - | a | f | failure | -
  case enter => exact enter_withLimits (by rwa [moved_limits]) f
  all_goals exact Or.inr rfl

/-! ### Requests under two limits -/

/-- A quiet step is quiet under higher limits too, and leaves the same machine up to its limits. -/
theorem quiet_withLimits {m' : Machine} (hle : m.limits.Le limits) (h : m.step = .quiet m') :
    m'.limits.Le limits ∧ (m.withLimits limits).step = .quiet (m'.withLimits limits) := by
  refine ⟨by rwa [limits_of_quiet h], ?_⟩
  rcases step_withLimits hle with ⟨m₁, hended, -⟩ | hsame
  · simp [h] at hended
  · rw [hsame, h]
    rfl

theorem loop_withLimits {m' : Machine} {k : Nat} (hle : m.limits.Le limits)
    (h : m.loop k = .quiet m') : (m.withLimits limits).loop k = .quiet (m'.withLimits limits) := by
  induction k generalizing m with
  | zero =>
    obtain rfl : m = m' := by simpa [loop] using h
    rfl
  | succ k ih =>
    rcases hstep : m.step with m₁ | ⟨a, m₁⟩ | m₁ | m₁
    · obtain ⟨hle', hquiet⟩ := quiet_withLimits hle hstep
      rw [loop_succ_of_quiet hstep] at h
      rw [loop_succ_of_quiet hquiet]
      exact ih hle' h
    all_goals simp [loop, hstep] at h

/-- **A request is answered in the same way under higher limits**, or goes unanswered there too,
unless it ends with a recursion error. -/
theorem next_withLimits (hle : m.limits.Le limits) :
    (∃ m', m.next = some (.ended, m') ∧ m'.Overrun) ∨
      (m.withLimits limits).next = m.next.map fun r ↦ (r.1, r.2.withLimits limits) := by
  rcases hnext : m.next with - | r
  · refine Or.inr (next_eq_none_iff.2 fun k ↦ ?_)
    obtain ⟨m', hloop⟩ := next_eq_none_iff.1 hnext k
    exact ⟨_, loop_withLimits hle hloop⟩
  rw [next_eq_some_iff] at hnext
  induction hnext with
  | quiet hstep _ ih =>
    obtain ⟨hle', hquiet⟩ := quiet_withLimits hle hstep
    rw [next_of_quiet hquiet]
    exact ih hle'
  | action hstep =>
    rcases step_withLimits hle with ⟨m', hended, -⟩ | hsame
    · simp [hstep] at hended
    · rw [hstep] at hsame
      exact Or.inr (next_of_action hsame)
  | ended hstep =>
    rcases step_withLimits hle with ⟨m', hended, hover⟩ | hsame
    · obtain rfl : _ = m' := Outcome.ended.inj (hstep.symm.trans hended)
      exact Or.inl ⟨_, rfl, hover⟩
    · rw [hstep] at hsame
      exact Or.inr (next_of_ended hsame)
  | stuck hstep =>
    rcases step_withLimits hle with ⟨m', hended, -⟩ | hsame
    · simp [hstep] at hended
    · rw [hstep] at hsame
      exact Or.inr (next_of_stuck hsame)

/-- **Requests for any number of actions under two limits.** Either the answers are the same, and so
are the machines behind them up to their limits, or the machine under the lower limits has ended
with a recursion error, and what it delivered is what is delivered under the higher ones on a
request for just as many actions. -/
theorem take_withLimits (hle : m.limits.Le limits) (n : Nat) :
    (m.withLimits limits).take n = ((m.take n).1, (m.take n).2.withLimits limits) ∨
      (m.take n).2.Overrun ∧ ∃ actions, (m.take n).1 = some actions ∧
        ((m.withLimits limits).take actions.length).1 = some actions := by
  induction n generalizing m with
  | zero => exact Or.inl rfl
  | succ n ih =>
    rcases next_withLimits hle with ⟨m', hended, hover⟩ | hsame
    · rw [take_succ_of_ended hended]
      exact Or.inr ⟨hover, [], rfl, rfl⟩
    rcases hnext : m.next with - | ⟨a | - | -, m'⟩ <;> rw [hnext] at hsame
    · rw [take_succ_of_none hnext, take_succ_of_none hsame]
      exact Or.inl rfl
    · rw [take_succ_of_action hnext, take_succ_of_action hsame]
      rcases ih (m := m') (by rwa [limits_of_next hnext]) with hlater | ⟨hover, actions, h, h'⟩
      · rw [hlater]
        exact Or.inl rfl
      · refine Or.inr ⟨hover, a :: actions, by rw [h]; rfl, ?_⟩
        rw [List.length_cons, take_succ_of_action hsame, h']
        rfl
    · rw [take_succ_of_ended hnext, take_succ_of_ended hsame]
      exact Or.inl rfl
    · rw [take_succ_of_stuck hnext, take_succ_of_stuck hsame]
      exact Or.inl rfl

/-- **Raising the limits only extends results.** Of any program, and for a request of any size:

* the actions that are delivered under lower limits are those that are delivered under higher ones
  on a request for just as many;
* if the request has a result under the higher limits it has one under the lower ones, and that
  comes first in the other one;
* unless the evaluation under the lower limits has ended with a recursion error, either both
  requests have no result or both have the same one, and the failures are the same, and whether
  anything is left to be run, and the numbers of actions delivered;
* requests to a program without blanks do have results, under the lower limits and under the higher
  ones, if there can be room for them and the higher limit on frames for one action is not the
  largest one. -/
theorem take_extends_of_le (p : Program) (limits limits' : Limits)
    (hdepth : limits.depth ≤ limits'.depth) (hsilent : limits.silent ≤ limits'.silent) (n : Int) :
    (∀ actions, ((start p limits).take? n).1 = some actions →
      ((start p limits').take? actions.length).1 = some actions) ∧
    (∀ actions', ((start p limits').take? n).1 = some actions' →
      ∃ actions, ((start p limits).take? n).1 = some actions ∧ actions <+: actions') ∧
    ((∀ depth calls, ((start p limits).take? n).2.failure ≠ some (.recursion depth calls)) →
      ((start p limits').take? n).1 = ((start p limits).take? n).1 ∧
      ((start p limits').take? n).2.failure = ((start p limits).take? n).2.failure ∧
      ((start p limits').take? n).2.done = ((start p limits).take? n).2.done ∧
      ((start p limits').take? n).2.count = ((start p limits).take? n).2.count) ∧
    (p.Filled → limits'.silent < Int64.maxValue →
      (((start p limits).take? n).1 = none ↔ capacity < n) ∧
      (((start p limits').take? n).1 = none ↔ capacity < n)) := by
  have hstart : start p limits' = (start p limits).withLimits limits' := rfl
  have hboth := take_withLimits (m := start p limits) ⟨hdepth, hsilent⟩ n.toNat
  refine ⟨fun actions h ↦ ?_, fun actions' h' ↦ ?_, fun hnot ↦ ?_, fun hp hlimit ↦ ⟨?_, ?_⟩⟩
  · have hn := le_capacity_of_take? h
    rw [take?_of_le _ hn] at h
    have hlength : (actions.length : Int) ≤ capacity := by
      have hle := (take_length h).1
      have hcapacity : (0 : Int) ≤ capacity := by decide
      omega
    rw [take?_of_le _ hlength, hstart]
    rcases hboth with hsame | ⟨-, actions', h', hshort⟩
    · rw [← congrArg Prod.fst hsame] at h
      exact (take_length h).2
    · obtain rfl : actions' = actions := Option.some.inj (h'.symm.trans h)
      exact hshort
  · have hn := le_capacity_of_take? h'
    rw [take?_of_le _ hn, hstart] at h'
    rw [take?_of_le _ hn]
    rcases hboth with hsame | ⟨-, actions, h, hshort⟩
    · rw [hsame] at h'
      exact ⟨actions', h', List.prefix_rfl⟩
    · exact ⟨actions, h, take_isPrefix (take_length h).1 hshort h'⟩
  · rcases Int.lt_or_le capacity n with hn | hn
    · rw [take?, take?, if_pos hn, if_pos hn]
      exact ⟨rfl, rfl, rfl, rfl⟩
    · rw [take?_of_le _ hn] at hnot ⊢
      rw [take?_of_le _ hn, hstart]
      rcases hboth with hsame | ⟨⟨depth, calls, hover⟩, -⟩
      · rw [hsame]
        exact ⟨rfl, rfl, rfl, rfl⟩
      · exact absurd hover (hnot depth calls)
  · exact Reachable.start.take?_eq_none_iff hp (Int64.lt_of_le_of_lt hsilent hlimit) n
  · exact Reachable.start.take?_eq_none_iff hp hlimit n

/-- The program `a(A):a(A-1)s` with the main block `sa(3)`: every call waits for the one within. -/
def descent : Program where
  definitions := [⟨"a", ["A"], [.call "a" [.arithmetic
    ⟨false, [⟨false, .parameter "A"⟩, ⟨true, .literal 1⟩], .null⟩] .null,
    .command .forward .null], .null⟩]
  main := [.command .forward .null,
    .call "a" [.arithmetic ⟨false, [⟨false, .literal 3⟩], .null⟩] .null]

/-- With room for two frames only the action in front of the calls is delivered, and it comes first
in what is delivered with room for nine. From there on more room makes no difference. -/
theorem descent_extended : descent.Filled ∧ ((start descent ⟨2, 9⟩).take? 7).2.Overrun ∧
    (∃ actions actions', ((start descent ⟨2, 9⟩).take? 7).1 = some actions ∧
      ((start descent ⟨9, 9⟩).take? 7).1 = some actions' ∧ actions <+: actions' ∧
      Action.format actions = "s" ∧ Action.format actions' = "ssss") ∧
    ((start descent .standard).take? 7).1 = ((start descent ⟨9, 9⟩).take? 7).1 := by
  have hfilled : descent.Filled := by decide
  have hlow : ((start descent ⟨2, 9⟩).take? 7).1.map Action.format = some "s" := by cbv
  have hover : ((start descent ⟨2, 9⟩).take? 7).2.failure = some (.recursion 2 3) := by cbv
  have hhigh : ((start descent ⟨9, 9⟩).take? 7).1.map Action.format = some "ssss" := by cbv
  have hended : ((start descent ⟨9, 9⟩).take? 7).2.failure = none := by cbv
  obtain ⟨actions', hactions', hs'⟩ := Option.map_eq_some_iff.1 hhigh
  obtain ⟨actions, hactions, hbegins⟩ :=
    (take_extends_of_le descent ⟨2, 9⟩ ⟨9, 9⟩ (by decide) (by decide) 7).2.1 actions' hactions'
  have hs : Action.format actions = "s" := by simpa [hactions] using hlow
  have hsame := (take_extends_of_le descent ⟨9, 9⟩ .standard (by decide) (by decide) 7).2.2.1
    (by simp [hended])
  exact ⟨hfilled, ⟨2, 3, hover⟩, ⟨actions, actions', hactions, hactions', hbegins, hs, hs'⟩,
    hsame.1⟩

/-- The program `b:a()` with the main block `sbs`, where the argument of the procedure `a(A):A` is a
sum with a blank operand. -/
def buriedBlank : Program where
  definitions := [⟨"a", ["A"], [.parameter "A" .null], .null⟩,
    ⟨"b", [], [.call "a" [.arithmetic ⟨false, [⟨false, .blank⟩], .null⟩] .null], .null⟩]
  main := [.command .forward .null, .call "b" [] .null, .command .forward .null]

/-- **Under higher limits a blank operand may be come across** that the lower ones stop in front of.
The request has a result then under the lower limits only, and that does not come first in
anything. -/
theorem buriedBlank_not_extended : ¬∀ (p : Program) (limits limits' : Limits) (n : Int),
    limits.depth ≤ limits'.depth → limits.silent ≤ limits'.silent →
    ∀ actions, ((start p limits).take? n).1 = some actions →
      ∃ actions', ((start p limits').take? n).1 = some actions' ∧ actions <+: actions' := by
  intro h
  have hlow : ((start buriedBlank ⟨1, 9⟩).take? 7).1 = some [.command .forward] := by cbv
  have hhigh : ((start buriedBlank ⟨9, 9⟩).take? 7).1 = none := by cbv
  obtain ⟨actions', h', -⟩ := h buriedBlank ⟨1, 9⟩ ⟨9, 9⟩ 7 (by decide) (by decide) _ hlow
  simp [hhigh] at h'

end Machine

end RobotGolf
