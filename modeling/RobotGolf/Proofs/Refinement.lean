import RobotGolf.Proofs.Meaning
import RobotGolf.Proofs.RaisedLimits
import RobotGolf.Proofs.RoundTrip
/-!
# The machine carries the meaning out

The machine suspends itself at every action and keeps what is left to do as a stack of half-run
frames; the meaning is a recursion. The link between the two is the **course of a stack**
(`Machine.course`): what the meanings of the frames' remaining elements give, one frame after the
other. Every step of the machine peels something off the front of the course of its stack.

## One step, one request, many requests

* `course_eq`: the course of a machine is that of what the topmost frame demands, followed by the
  course of the machine moved on. This is the only place where elements and errors are told apart.
* `course_le_of_quiet`: a quiet step leaves the course as it is, up to one level of depth. Entering
  a frame is where the level goes: the frame that is entered was one call deeper before. An
  exhausted frame that is dropped on the way has an empty course.
* `next_follows` repeats this along a request, and `take_follows` along a number of requests. A
  request that ends with a recursion error is the only one that says nothing about the course, and
  the actions before it are still a part of it.

The invariant `Machine.Tidy` enters in two places. The machine is never stuck, and the parameters of
a procedure are distinct names, without which a scope would not bind all of them.
-/

namespace RobotGolf

/-! ### Arguments -/

theorem Operand.meaning_eq_value (e : Env) (o : Operand) : o.meaning e = o.value e := by
  cases o with
  | literal n => rfl
  | parameter name =>
    rw [meaning, value, Env.lookup]
    rcases e.find? name with - | n | ⟨body, captured⟩ <;> rfl
  | blank => rfl

/-- Adding up from left to right gives the sum of all terms, and finds the same first failure. -/
theorem Term.sum_eq_meaning (e : Env) (before : ℤ) (terms : List Term) :
    Term.sum e before terms = (terms.mapM (Term.meaning e)).map fun ns ↦ before + ns.sum := by
  induction terms generalizing before with
  | nil => simp [Term.sum, Except.map, pure, Except.pure]
  | cons t terms ih =>
    rw [Term.sum, List.mapM_cons, Term.meaning, Operand.meaning_eq_value]
    rcases t.operand.value e with cause | n
    · rfl
    · simp only [ih, Except.map, bind, Except.bind]
      rcases terms.mapM (Term.meaning e) with cause | ns
      · rfl
      · simp only [pure, Except.pure, List.sum_cons, Except.ok.injEq]
        split <;> ring

theorem Argument.meaning_eq_value (e : Env) (a : Argument) : a.meaning e = a.value e := by
  cases a with
  | parameter name s =>
    simp only [meaning, value, Env.lookup]
    rcases e.find? name with - | v <;> rfl
  | quoted body s => rfl
  | arithmetic sum =>
    simp only [meaning, value, Arithmetic.meaning, Term.sum_eq_meaning, Int.zero_add]
    rcases sum.terms.mapM (Term.meaning e) with cause | ns <;> rfl

theorem Argument.meanings_cons (e : Env) (a : Argument) (rest : List Argument) :
    Argument.meanings e (a :: rest) =
      match a.value e with
      | .error cause => .error cause
      | .ok v =>
        if v.isZero then .ok none else (Argument.meanings e rest).map (Option.map (v :: ·)) := by
  rw [Argument.meanings, Argument.meaning_eq_value]
  rcases a.value e with cause | n | ⟨body, captured⟩
  · rfl
  · by_cases hn : n = 0
    · subst hn
      rfl
    · simp only [Value.isZero, beq_iff_eq, hn, if_false]
      split <;> simp_all
  · rfl

theorem Scope.bind_of_new {κ : Type} {scope : Scope κ} {name : Bytes} {v : Value κ}
    (hname : name ≠ []) (hnew : name ∉ scope.bindings.map Prod.fst) :
    scope.bind name v = ⟨scope.name, (name, v) :: scope.bindings⟩ := by
  have hkept : scope.bindings.filter (·.1 != name) = scope.bindings := by
    refine List.filter_eq_self.2 fun b hb ↦ ?_
    rw [bne_iff_ne]
    rintro rfl
    exact hnew (List.mem_map_of_mem hb)
  rw [Scope.bind, if_neg hname, hkept]

/-- Binding distinct names one by one makes the scope that binds them all. -/
theorem Argument.bindAll_eq_meanings (e : Env) (target : Scope Env) (names : List String)
    (args : List Argument) (hlength : args.length = names.length) (hdistinct : names.Nodup)
    (hempty : "" ∉ names)
    (hnew : ∀ name ∈ names, Bytes.ofString name ∉ target.bindings.map Prod.fst) :
    Argument.bindAll e target names args = (Argument.meanings e args).map (Option.map fun vs ↦
      ⟨target.name, ((names.map .ofString).zip vs).reverse ++ target.bindings⟩) := by
  induction names generalizing target args with
  | nil =>
    obtain rfl : args = [] := List.eq_nil_of_length_eq_zero hlength
    rfl
  | cons name names ih =>
    rcases args with - | ⟨a, args⟩
    · simp at hlength
    obtain ⟨hname, hdistinct⟩ := List.nodup_cons.1 hdistinct
    have hbind : ∀ v, target.bind (.ofString name) v =
        ⟨target.name, (.ofString name, v) :: target.bindings⟩ := by
      intro v
      refine Scope.bind_of_new (fun h ↦ hempty ?_) (hnew name (List.mem_cons_self ..))
      exact Bytes.ofString_eq_nil_iff.1 h ▸ List.mem_cons_self ..
    have hmore : ∀ v, Argument.bindAll e (target.bind (.ofString name) v) names args =
        (Argument.meanings e args).map (Option.map fun vs ↦ ⟨target.name,
          ((names.map .ofString).zip vs).reverse ++ (.ofString name, v) :: target.bindings⟩) := by
      intro v
      rw [hbind]
      -- the names still to come are apart from this one too, since all are distinct
      refine ih _ args (by simpa using hlength) hdistinct
        (fun h ↦ hempty (List.mem_cons_of_mem _ h)) fun other hother hmem ↦ ?_
      rcases List.mem_cons.1 hmem with heq | hmem
      · exact hname (Bytes.ofString_inj.1 heq ▸ hother)
      · exact hnew other (List.mem_cons_of_mem _ hother) hmem
    rw [Argument.bindAll, Argument.meanings_cons]
    rcases a.value e with cause | v
    · rfl
    · by_cases hzero : v.isZero = true
      · simp [hzero, Except.map]
      · simp only [hzero, Bool.false_eq_true, if_false, hmore]
        rcases Argument.meanings e args with cause | - | vs <;> simp [Except.map]

/-! ### Demands -/

/-- The course of what is demanded. Sequences have the meaning `inner`. -/
def Demand.course (inner : Env → List Element → Course) : Demand → Course
  | finish => .nothing
  | leave => .nothing
  | skip => .nothing
  | deliver a => .only a
  | enter f => inner f.scope f.rest
  | fail failure => .fail failure
  | stick => ⟨[], .undefined⟩

theorem IsParameterName.ne_empty {name : String} (h : IsParameterName name) : name ≠ "" := by
  obtain ⟨c, rfl, -⟩ := h
  intro heq
  have hlist := congrArg String.toList heq
  simp at hlist

/-- **An element demands what it means.** -/
theorem Frame.course_demand {p : Program} (hp : ∀ d ∈ p.definitions, d.WellFormed)
    (inner : Env → List Element → Course) (f : Frame Env) (x : Element) :
    (f.demand p x).course inner = x.meaning p inner f.sole f.scope := by
  cases x with
  | command c s => rfl
  | parameter name s =>
    rw [Frame.demand, Element.meaning, Env.lookup]
    rcases f.scope.find? name with - | n | ⟨body, captured⟩
    · rfl
    · by_cases hsole : f.sole = true <;> simp [hsole, Demand.course]
    · rfl
  | call callee args s =>
    rw [Frame.demand, Element.meaning]
    rcases hfind : p.find? callee with - | d
    · rfl
    · have hd : d.WellFormed := hp d (List.mem_of_find?_eq_some hfind)
      by_cases hlength : args.length = d.params.length
      · have hempty : "" ∉ d.params := fun hmem ↦ (hd.params _ hmem).ne_empty rfl
        have hbind := Argument.bindAll_eq_meanings f.scope (Scope.empty (.ofString d.name))
          d.params args hlength hd.distinct hempty (by simp [Scope.empty])
        simp only [hlength, ne_eq, not_true_eq_false, if_false, hbind]
        rcases Argument.meanings f.scope args with (failure | -) | - | values
        · rfl
        · rfl
        · rfl
        · simp [Except.map, Demand.course, Definition.scope, Frame.enter, Scope.empty]
      · simp [hlength, Demand.course]

/-! ### The course of a stack -/

/-- The course of what is left of a frame. -/
def Frame.course (p : Program) (k : ℕ) (f : Frame Env) : Course :=
  Element.meanings p (p.meaning k) f.sole f.scope f.rest

/-- The course of some frames, the topmost first. -/
def Frame.courses (p : Program) (k : ℕ) : List (Frame Env) → Course
  | [] => .nothing
  | f :: below => (f.course p k).andThen (Frame.courses p k below)

theorem Frame.course_of_exhausted {p : Program} {k : ℕ} {f : Frame Env} (h : f.rest = []) :
    f.course p k = .nothing := by
  rw [Frame.course, h, Element.meanings]

/-- A frame at its start has the meaning of its sequence, one level up. -/
theorem Frame.course_of_start {p : Program} {k : ℕ} {f : Frame Env} (h : f.passed = 0) :
    f.course p k = p.meaning (k + 1) f.scope f.rest := by
  rw [Frame.course, Program.meaning, Frame.sole, Frame.length, h, Nat.zero_add]

theorem Frame.courses_le (p : Program) (k : ℕ) (frames : List (Frame Env)) :
    (Frame.courses p k frames).Le (Frame.courses p (k + 1) frames) := by
  induction frames with
  | nil => exact Course.Le.refl _
  | cons f below ih => exact (Element.meanings_le (p.meaning_le_succ k) _ _ _).andThen ih

theorem Frame.courses_dropExhausted (p : Program) (k : ℕ) (stack : Stack (Frame Env)) :
    Frame.courses p k (Machine.dropExhausted stack).items = Frame.courses p k stack.items := by
  unfold Machine.dropExhausted
  rcases hitems : stack.items with - | ⟨f, below⟩
  · simp [Stack.top?, hitems]
  · by_cases hf : f.exhausted = true
    · have hrest : f.rest = [] := by simpa [Frame.exhausted] using hf
      simp [Stack.top?, hitems, hf, Frame.courses, Frame.course_of_exhausted hrest]
    · simp [Stack.top?, hitems, hf]

namespace Machine

/-- The course of all that is left to do. -/
def course (m : Machine) (k : ℕ) : Course := Frame.courses m.program k m.stack.items

variable {m m' : Machine}

/-- **A machine does what is demanded, and then what is left.** -/
theorem course_eq (hm : m.Tidy) (k : ℕ) :
    m.course k = (m.demand.course (m.program.meaning k)).andThen (m.moved.course k) := by
  rw [course, course, moved_program]
  rcases hitems : m.stack.items with - | ⟨f, below⟩
  · rw [demand_of_nil hitems, moved_of_nil hitems, hitems]
    rfl
  · rcases hrest : f.rest with - | ⟨x, rest⟩
    · rw [demand_of_exhausted hitems hrest, items_moved_of_exhausted hitems hrest, Frame.courses,
        Frame.course_of_exhausted hrest]
      rfl
    · rw [demand_of_cons hitems hrest, items_moved_of_cons hitems hrest,
        Frame.course_demand hm.definitions, Frame.courses, Frame.courses, ← Course.andThen_assoc]
      -- Passing an element does not change whether it is the only one of its sequence.
      have hsole : f.sole = { f with passed := f.passed + 1, rest := rest }.sole := by
        simp only [Frame.sole, Frame.length, hrest, List.length_cons]
        congr 1
        omega
      rw [Frame.course, hrest, Element.meanings, hsole]
      rfl

theorem course_entered (m : Machine) (f : Frame Env) (k : ℕ) :
    (m.entered f).course k = (f.course m.program k).andThen (m.course k) := by
  rw [course, course, ← Frame.courses_dropExhausted _ _ m.stack]
  rfl

/-- A quiet step changes nothing in the course, but may use up a level of depth. -/
theorem course_le_of_quiet (hm : m.Tidy) (h : m.step = .quiet m') (k : ℕ) :
    (m'.course k).Le (m.course (k + 1)) := by
  have hmoved : (m.moved.course k).Le (m.moved.course (k + 1)) := Frame.courses_le _ k _
  rw [course_eq hm]
  rcases quiet_cases h with ⟨hd, rfl⟩ | ⟨hd, rfl⟩ | ⟨f, hd, -, -, rfl⟩ <;> rw [hd]
  · exact hmoved
  · exact hmoved
  · rw [course_entered, Frame.course_of_start (passed_of_enter hd), moved_program]
    exact (Course.Le.refl _).andThen hmoved

theorem course_of_action (hm : m.Tidy) {a : Action} (h : m.step = .action a m') (k : ℕ) :
    m.course k = (Course.only a).andThen (m'.course k) := by
  obtain ⟨hd, rfl⟩ := action_cases h
  rw [course_eq hm, hd]
  rfl

/-! ### Requests -/

/-- What a request of the machine says about its course. -/
inductive Follows (m : Machine) : Reply × Machine → Prop where
  /-- The action is the first one, and the machine goes on with the others. -/
  | action {a : Action} {m' : Machine} (tidy : m'.Tidy) (failure : m'.failure = m.failure)
      (course : ∀ k, ∃ j, ((Course.only a).andThen (m'.course k)).Le (m.course j)) :
      Follows m (.action a, m')
  /-- The course is at its end. -/
  | finished {m' : Machine} (failure : m'.failure = m.failure)
      (course : ∃ j, Course.nothing.Le (m.course j)) : Follows m (.ended, m')
  | failed {m' : Machine} {f : Failure} (failure : m'.failure = some f)
      (course : ∃ j, (Course.fail f).Le (m.course j)) : Follows m (.ended, m')
  /-- A limit was hit, which has nothing to do with the course. -/
  | recursion {m' : Machine} {depth : ℕ} {calls : Int64}
      (failure : m'.failure = some (.recursion depth calls)) : Follows m (.ended, m')

theorem Follows.of_quiet (hm : m.Tidy) (h : m.step = .quiet m') {r : Reply × Machine}
    (hr : Follows m' r) : Follows m r := by
  have hfailure : m'.failure = m.failure := by
    rcases quiet_cases h with ⟨-, rfl⟩ | ⟨-, rfl⟩ | ⟨f, -, -, -, rfl⟩
    · exact moved_failure m
    · exact moved_failure m
    · exact moved_failure m
  have hle := course_le_of_quiet hm h
  cases hr with
  | action tidy failure course =>
    refine .action tidy (failure.trans hfailure) fun k ↦ ?_
    obtain ⟨j, hj⟩ := course k
    exact ⟨j + 1, hj.trans (hle j)⟩
  | finished failure course =>
    obtain ⟨j, hj⟩ := course
    exact .finished (failure.trans hfailure) ⟨j + 1, hj.trans (hle j)⟩
  | failed failure course =>
    obtain ⟨j, hj⟩ := course
    exact .failed failure ⟨j + 1, hj.trans (hle j)⟩
  | recursion failure => exact .recursion failure

/-- **A request follows the course**, if it is answered: by induction along its quiet steps. -/
theorem next_follows {r : Reply × Machine} (hm : m.Tidy) (h : m.next = some r) : Follows m r := by
  rw [next_eq_some_iff] at h
  induction h with
  | quiet hstep _ ih => exact (ih (hm.of_quiet hstep)).of_quiet hm hstep
  | @action m _ a hstep =>
    obtain ⟨-, rfl⟩ := action_cases hstep
    refine .action ⟨hm.moved.definitions, hm.moved.frames⟩ (moved_failure m) fun k ↦ ⟨k, ?_⟩
    rw [course_of_action hm hstep]
    exact Course.Le.refl _
  | @ended m _ hstep =>
    rcases ended_cases hstep with ⟨hd, rfl⟩ | ⟨f, hd, rfl⟩ | ⟨depth, calls, hf⟩
    · refine .finished (moved_failure m) ⟨0, ?_⟩
      rw [course, items_of_finish hd]
      exact Course.Le.refl _
    · refine .failed rfl ⟨0, ?_⟩
      rw [course_eq hm, hd]
      exact Course.Le.refl _
    · exact .recursion hf
  | stuck hstep => exact absurd (stuck_cases hstep) hm.demand.1

/-- **Requests follow the course**, one after the other, if they are answered. -/
theorem take_follows (hm : m.Tidy) (hfailure : m.failure = none) {actions : List Action} {n : ℕ}
    (h : m.take n = (some actions, m')) :
    ∃ j, actions <+: (m.course j).actions ∧
      ((∀ depth calls, m'.failure ≠ some (.recursion depth calls)) →
        (m.course j).take n = some (actions, m'.failure)) := by
  induction n generalizing m actions with
  | zero =>
    obtain ⟨rfl, rfl⟩ : [] = actions ∧ m = m' := by simpa using h
    refine ⟨0, List.nil_prefix, fun _ ↦ ?_⟩
    rw [Course.take, if_pos (Nat.zero_le _), hfailure]
    rfl
  | succ n ih =>
    rcases hnext : m.next with - | r
    · simp [take_succ_of_none hnext] at h
    have hfollows := next_follows hm hnext
    cases hfollows with
    | @action a m₁ tidy failure course =>
      rw [take_succ_of_action hnext, Prod.mk.injEq, Option.map_eq_some_iff] at h
      obtain ⟨⟨more, hmore, rfl⟩, rfl⟩ := h
      obtain ⟨j, hpre, hcourse⟩ := ih tidy (failure.trans hfailure) (Prod.ext hmore rfl)
      obtain ⟨i, hi⟩ := course j
      refine ⟨i, ?_, fun hrecursion ↦ ?_⟩
      · exact (List.cons_prefix_cons.2 ⟨rfl, hpre⟩).trans hi.actions_le
      · refine Course.take_of_le hi ?_
        rw [Course.take_only_andThen, hcourse hrecursion]
        rfl
    | @finished m₁ failure course =>
      obtain ⟨rfl, rfl⟩ : [] = actions ∧ m₁ = m' := by simpa [take_succ_of_ended hnext] using h
      obtain ⟨j, hj⟩ := course
      refine ⟨j, List.nil_prefix, fun _ ↦ Course.take_of_le hj ?_⟩
      rw [failure, hfailure]
      rfl
    | @failed m₁ f failure course =>
      obtain ⟨rfl, rfl⟩ : [] = actions ∧ m₁ = m' := by simpa [take_succ_of_ended hnext] using h
      obtain ⟨j, hj⟩ := course
      refine ⟨j, List.nil_prefix, fun _ ↦ Course.take_of_le hj ?_⟩
      rw [failure]
      rfl
    | @recursion m₁ depth calls failure =>
      obtain ⟨rfl, rfl⟩ : [] = actions ∧ m₁ = m' := by simpa [take_succ_of_ended hnext] using h
      exact ⟨0, List.nil_prefix, fun hrecursion ↦ absurd failure (hrecursion depth calls)⟩

end Machine

/-! ### Programs -/

/-- What the first `n` requests of an evaluation have to be answered with: the meaning of the main
block in the empty scope settles it, once it is looked into deep enough. -/
def Program.Answers (p : Program) (n : ℕ) (actions : List Action) (failure : Option Failure) :
    Prop :=
  ∃ enough, ∀ depth ≥ enough,
    (p.meaning depth (.mk Scope.globals) p.main).take n = some (actions, failure)

/-- **The machine implements the recursive meaning.** For a program that was read from some source,
and under any limits, a request for `n` actions is refused if there cannot be room for them, and
otherwise has a result, unless the limit on frames for one action is the largest one, which never
stops the evaluation. If there is a result that does not end with a recursion error, what is
delivered are the first `n` actions of the meaning of the main block, or all of them and the failure
that the meaning ends with. In front of a recursion error, too, only actions of the meaning are
delivered. -/
theorem Machine.take_implements_meaning {source : Bytes} {p : Program}
    (hp : Program.parse source = .ok p) (limits : Limits) (n : ℤ) :
    (capacity < n → ((start p limits).take? n).1 = none) ∧
    (((start p limits).take? n).1 = none → capacity < n ∨ limits.silent = Int64.maxValue) ∧
    ∀ actions m, (start p limits).take? n = (some actions, m) →
      ((∀ depth calls, m.failure ≠ some (.recursion depth calls)) →
        p.Answers n.toNat actions m.failure) ∧
      ∃ depth, actions <+: (p.meaning depth (.mk Scope.globals) p.main).actions := by
  have hwf := Grammar.wellFormed_of_parse hp
  have hcourse : ∀ k, (start p limits).course k =
      p.meaning (k + 1) (.mk Scope.globals) p.main := by
    intro k
    exact (Course.andThen_nothing _).trans (Frame.course_of_start rfl)
  refine ⟨take?_of_lt _, Reachable.start.of_take?_eq_none (Program.filled_of_parse hp), ?_⟩
  intro actions m h
  rw [take?_of_le _ (le_capacity_of_take? (congrArg Prod.fst h))] at h
  obtain ⟨j, hpre, hfollows⟩ := take_follows (tidy_start hwf limits) rfl h
  rw [hcourse] at hpre hfollows
  refine ⟨fun hrecursion ↦ ⟨j + 1, fun depth hdepth ↦ ?_⟩, j + 1, hpre⟩
  exact Course.take_of_le (p.meaning_le hdepth _ _) (hfollows hrecursion)

/-- A program in which a parameter is quoted anew by every call: `B` is run in one scope after the
other, each of them captured in the next. -/
def nesting : Program where
  definitions := [⟨"a", ["A", "B"],
    [.parameter "B" ⟨7, 8⟩,
      .call "a" [.arithmetic ⟨false, [⟨false, .parameter "A"⟩, ⟨true, .literal 1⟩], ⟨10, 13⟩⟩,
        .quoted [.command .forward ⟨14, 15⟩, .parameter "B" ⟨15, 16⟩] ⟨14, 16⟩] ⟨8, 17⟩], ⟨0, 17⟩⟩]
  main := [.call "a" [.arithmetic ⟨false, [⟨false, .literal 3⟩], ⟨20, 21⟩⟩,
    .quoted [.command .turnLeft ⟨22, 23⟩] ⟨22, 23⟩] ⟨18, 24⟩]

/-- Three calls, with `l`, `sl` and `ssl` for the parameter, and a fourth one that is skipped. -/
theorem nesting_delivered :
    Program.parse (Bytes.ofString "a(A,B):Ba(A-1,sB)\na(3,l)") = .ok nesting ∧
    ∃ actions m, (Machine.start nesting .standard).take? 9 = (some actions, m) ∧
      Action.format actions = "lslssl" ∧ m.failure = none ∧ nesting.Answers 9 actions none := by
  have hparse : Program.parse (Bytes.ofString "a(A,B):Ba(A-1,sB)\na(3,l)") = .ok nesting := by
    cbv
  have hformat : ((Machine.start nesting .standard).take? 9).1.map Action.format =
      some "lslssl" := by
    cbv
  have hended : ((Machine.start nesting .standard).take? 9).2.failure = none := by
    cbv
  rcases htake : (Machine.start nesting .standard).take? 9 with ⟨- | actions, m⟩
  · simp [htake] at hformat
  · rw [htake] at hformat hended
    have hfailure : m.failure = none := hended
    have hmeaning := (Machine.take_implements_meaning hparse .standard 9).2.2 actions m htake
    have hanswers := hmeaning.1 (by simp [hfailure])
    rw [hfailure] at hanswers
    exact ⟨hparse, actions, m, rfl, Option.some.inj hformat, hfailure, hanswers⟩

end RobotGolf
