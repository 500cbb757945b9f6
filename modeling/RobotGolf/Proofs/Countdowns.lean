import Mathlib.Data.Nat.Basic
import RobotGolf.Proofs.Completion
import RobotGolf.Proofs.Unplaced
/-!
# Programs that count down

A call with the number zero among its arguments is skipped, so a procedure that calls itself with
one less comes to an end by itself. Two such programs are run here, from their source text to their
last action.

* The **counted loop** `a(A,B):Ba(A-1,B)` calls itself in last position. Its frame has run out by
  then and is dropped, and so `a(n,w)` runs the word `w` as often as `n` says in two frames at most:
  one for the round and one for the word.
* The **nested calls** of `a(A):sa(A-1)s` come back to the frame that they stand in. Here `a(n)`
  needs as many frames as `n` says, and the limit on the size of the stack is met exactly: `n`
  frames are enough, and with fewer the evaluation stops when it is about to enter one too many.

A program is written down as a tree without spans. Its text is read as some tree that differs in
spans only (`Grammar.parse_render`), which therefore runs to the same end
(`Machine.exists_parse_completes`).

Both runs are followed by induction on the counter. A round of the loop starts with a single frame
on the stack and ends with a single frame on the stack (`completes_round`). A nested call leaves a
frame behind that waits for it, so the induction is for any number of waiting frames, each with one
command left to run (`completes_descent`, `stopped_descent`).
-/

namespace RobotGolf

/-! ### Counters -/

/-- The argument `A-1`. -/
def Argument.oneLess : Argument :=
  .arithmetic ⟨false, [⟨false, .parameter "A"⟩, ⟨true, .literal 1⟩], .null⟩

/-- A number as an argument. -/
def Argument.numeral (n : ℕ) : Argument := .arithmetic ⟨false, [⟨false, .literal n⟩], .null⟩

theorem isProcedureName_a : IsProcedureName "a" := ⟨'a', rfl, by decide, by decide⟩

theorem isParameterName_A : IsParameterName "A" := ⟨'A', rfl, by decide⟩

theorem isParameterName_B : IsParameterName "B" := ⟨'B', rfl, by decide⟩

theorem Value.isZero_succ (k : ℕ) : (Value.number (k + 1 : ℕ) : Value Env).isZero = false := by
  simp only [isZero, beq_eq_false_iff_ne, ne_eq, Nat.cast_eq_zero, Nat.add_one_ne_zero,
    not_false_eq_true]

namespace Argument

theorem wellFormed_oneLess : oneLess.WellFormed := by
  refine .arithmetic ⟨by simp, ?_, by simp, by simp⟩
  simpa [Operand.WellFormed] using isParameterName_A

theorem wellFormed_numeral (n : ℕ) : (numeral n).WellFormed := by
  refine .arithmetic ⟨by simp, ?_, by simp, ?_⟩
  · simp [Operand.WellFormed]
  · rintro - t name ht
    obtain rfl := List.singleton_inj.1 ht
    simp

theorem symbols_oneLess :
    oneLess.symbols = [⟨.parameter, "A"⟩, ⟨.minus, "-"⟩, ⟨.number, "1"⟩] := by
  rw [oneLess, symbols]
  rfl

theorem symbols_numeral (n : ℕ) : (numeral n).symbols = [⟨.number, toString n⟩] := by
  rw [numeral, symbols]
  rfl

variable {e : Env} {a : Argument}

theorem value_oneLess {k : ℕ} (h : e.find? "A" = some (.number (k + 1 : ℕ))) :
    oneLess.value e = .ok (.number k) := by
  simp [oneLess, value, Term.sum, Operand.value, Env.lookup, h]

theorem value_numeral (e : Env) (n : ℕ) : (numeral n).value e = .ok (.number n) := by
  simp [numeral, value, Term.sum, Operand.value]

theorem bindAll_of_zero (ha : a.value e = .ok (.number 0)) (target : Scope Env) (name : String)
    (names : List String) (args : List Argument) :
    bindAll e target (name :: names) (a :: args) = .ok none := by
  rw [bindAll, ha]
  rfl

theorem bindAll_of_not_zero {v : Value Env} (ha : a.value e = .ok v) (hv : v.isZero = false)
    (target : Scope Env) (name : String) (names : List String) (args : List Argument) :
    bindAll e target (name :: names) (a :: args) =
      bindAll e (target.bind (.ofString name) v) names args := by
  rw [bindAll, ha]
  exact if_neg (by rw [hv]; exact Bool.false_ne_true)

end Argument

namespace Frame

variable {p : Program} {f : Frame Env} {callee : String} {args : List Argument} {d : Definition}

/-- A call is skipped if one of its arguments is zero. -/
theorem demand_call_of_none (hfind : p.find? callee = some d)
    (hlength : args.length = d.params.length)
    (hbind : Argument.bindAll f.scope (Scope.empty (.ofString d.name)) d.params args = .ok none)
    (span : Span) :
    f.demand p (.call callee args span) = .skip := by
  rw [demand, hfind]
  simp only [hlength, ne_eq, not_true_eq_false, if_false, hbind]

/-- A call enters the body of its procedure once its arguments are bound. -/
theorem demand_call_of_some {scope : Scope Env} (hfind : p.find? callee = some d)
    (hlength : args.length = d.params.length)
    (hbind : Argument.bindAll f.scope (Scope.empty (.ofString d.name)) d.params args =
      .ok (some scope)) (span : Span) :
    f.demand p (.call callee args span) = .enter (Frame.enter d.name d.body (.mk scope)) := by
  rw [demand, hfind]
  simp only [hlength, ne_eq, not_true_eq_false, if_false, hbind]

end Frame

/-- **The text of a tree runs as the tree does.** -/
theorem Machine.exists_parse_completes {p : Program} (hp : p.WellFormed) (hspans : p.erase = p) :
    ∃ q, Program.parse (Bytes.ofString p.render) = .ok q ∧
      ∀ limits bound failure actions, (start p limits).Completes bound failure actions →
        (start q limits).Completes bound failure actions := by
  obtain ⟨q, hq, herase⟩ := Grammar.parse_render hp
  have hL := q.lockstep_erase
  rw [herase, hspans] at hL
  exact ⟨q, hq, fun limits _ _ _ hrun ↦ (inStep_start hL limits).completes hL hrun⟩

/-! ### Counted loops -/

/-- A word of commands as a sequence. -/
def Element.word (w : List Command) : List Element := w.map (.command · .null)

theorem Element.eraseList_word (w : List Command) : eraseList (word w) = word w := by
  rw [eraseList_eq_map, word, List.map_map]
  rfl

theorem Element.sequenceSymbols_word (w : List Command) :
    sequenceSymbols (word w) = w.map fun c ↦ ⟨.command, c.render⟩ := by
  induction w with
  | nil => rfl
  | cons c w ih =>
    rw [word, List.map_cons, sequenceSymbols, symbols, ← word, ih]
    rfl

/-- The definition `a(A,B):Ba(A-1,B)`. -/
def Definition.repeating : Definition where
  name := "a"
  params := ["A", "B"]
  body := [.parameter "B" .null, .call "a" [.oneLess, .parameter "B" .null] .null]
  span := .null

namespace Program

open Definition

/-- A counted loop: the call `a(n,w)` behind the definition `a(A,B):Ba(A-1,B)`. -/
def countedLoop (n : ℕ) (w : List Command) : Program where
  definitions := [repeating]
  main := [.call "a" [.numeral n, .quoted (Element.word w) .null] .null]

variable {n : ℕ} {w : List Command}

theorem erase_countedLoop (n : ℕ) (w : List Command) :
    (countedLoop n w).erase = countedLoop n w := by
  simp only [erase, countedLoop, Element.eraseList, Element.erase, Argument.eraseList,
    Argument.erase, Element.eraseList_word]
  rfl

theorem render_countedLoop (n : ℕ) (w : List Command) : (countedLoop n w).render =
    "a(A,B):Ba(A-1,B)\na(" ++ toString n ++ "," ++ String.join (w.map Command.render) ++ ")" := by
  rw [← String.toList_inj]
  simp [render, symbols, countedLoop, repeating, Definition.symbols, Element.sequenceSymbols,
    Element.symbols, Argument.listSymbols, Argument.symbols, Argument.symbols_numeral,
    Argument.symbols_oneLess, Element.sequenceSymbols_word, Symbol.spell, Symbol.enclose,
    Symbol.comma, Symbol.colon, Symbol.newline, List.flatMap_map, String.toList_join]

theorem wellFormed_countedLoop (n : ℕ) (hne : w ≠ []) (hw : ∀ c ∈ w, c.WellFormed) :
    (countedLoop n w).WellFormed where
  definitions := by
    simp only [countedLoop, List.mem_singleton, forall_eq]
    refine ⟨isProcedureName_a, ?_, by decide, by simp [repeating], ?_⟩
    · simpa [repeating] using ⟨isParameterName_A, isParameterName_B⟩
    · simp only [repeating, List.mem_cons, List.not_mem_nil, or_false, forall_eq_or_imp, forall_eq]
      refine ⟨.parameter isParameterName_B, .call isProcedureName_a ?_⟩
      simpa using ⟨Argument.wellFormed_oneLess, .parameter isParameterName_B⟩
  main_ne_nil := by simp [countedLoop]
  main := by
    simp only [countedLoop, List.mem_singleton, forall_eq]
    refine .call isProcedureName_a ?_
    simp only [List.mem_cons, List.not_mem_nil, or_false, forall_eq_or_imp, forall_eq]
    refine ⟨Argument.wellFormed_numeral n, .quoted (by simpa [Element.word]) ?_ ?_⟩
    · intro name s h
      obtain ⟨c, w, rfl⟩ := List.exists_cons_of_ne_nil hne
      simp [Element.word] at h
    · intro x hx
      obtain ⟨c, hc, rfl⟩ := List.mem_map.1 hx
      exact .command (hw c hc)
  main_statements := by simp [countedLoop]

end Program

namespace Machine

open Program Definition

variable {p : Program} {limits : Limits} {bound : ℕ} {failure : Option Failure}
  {actions : List Action} {name : String} {passed : ℕ} {e : Env} {f : Frame Env}
  {below : List (Frame Env)} {count n k : ℕ} {silent : Int64} {w : List Command}
  {a b : Argument}

theorem one_le_of_two_le {x : Int64} (h : 2 ≤ x) : 1 ≤ x :=
  Int64.le_trans (by decide) h

/-- A word is run, and its frame is left. -/
theorem Completes.word (hw : w = [] → silent = 0) (hsize : below.length + 1 ≤ bound)
    (hrun : ∀ count, (running p limits below count 0).Completes bound failure actions) :
    (running p limits (⟨name, passed, Element.word w, e⟩ :: below) count silent).Completes bound
      failure (w.map .command ++ actions) := by
  induction w generalizing passed count silent with
  | nil =>
    obtain rfl := hw rfl
    exact .leave rfl hsize (hrun count)
  | cons c w ih => exact .deliver rfl rfl hsize (ih fun _ ↦ rfl)

/-- The scope of a round that has `k` rounds to go, itself included. -/
def roundScope (w : List Command) (k : ℕ) : Env :=
  .mk (((Scope.empty (.ofString "a")).bind (.ofString "A") (.number k)).bind (.ofString "B")
    (.deferred (Element.word w) (.mk Scope.globals)))

/-- Whether it stands in the main block or in the body, a call starts a round if it has a positive
counter, and passes the word on. -/
theorem demand_round (ha : a.value f.scope = .ok (.number (k + 1 : ℕ)))
    (hb : b.value f.scope = .ok (.deferred (Element.word w) (.mk Scope.globals))) :
    f.demand (countedLoop n w) (.call "a" [a, b] .null) =
      .enter (Frame.enter "a" repeating.body (roundScope w (k + 1))) := by
  refine Frame.demand_call_of_some (d := repeating) rfl rfl ?_ .null
  show Argument.bindAll f.scope (Scope.empty (.ofString "a")) ["A", "B"] [a, b] = _
  rw [Argument.bindAll_of_not_zero ha (Value.isZero_succ k), Argument.bindAll_of_not_zero hb rfl]
  rfl

theorem demand_round_of_zero (ha : a.value f.scope = .ok (.number 0)) (b : Argument) :
    f.demand (countedLoop n w) (.call "a" [a, b] .null) = .skip :=
  Frame.demand_call_of_none (d := repeating) rfl rfl (Argument.bindAll_of_zero ha ..) .null

/-- **One round**: the word is run in a frame of its own, and then the call is all that is left. -/
theorem completes_round (hdepth : 2 ≤ limits.depth.toInt) (hsilent : 2 ≤ limits.silent)
    (hw : w ≠ []) (hrun : ∀ count, (running (countedLoop n w) limits
      [⟨"a", 1, [.call "a" [.oneLess, .parameter "B" .null] .null], roundScope w k⟩]
        count 0).Completes 2 none actions) :
    (running (countedLoop n w) limits [Frame.enter "a" repeating.body (roundScope w k)]
      count 1).Completes 2 none (w.map .command ++ actions) := by
  refine .enter rfl rfl hsilent hdepth (Nat.le_succ 1) ?_
  exact .word (fun h ↦ absurd h hw) le_rfl hrun

/-- **All rounds**, by induction on how many are to go. The call of the last round is skipped, and
any other finds its frame to have run out. -/
theorem completes_rounds (hdepth : 2 ≤ limits.depth.toInt) (hsilent : 2 ≤ limits.silent)
    (hw : w ≠ []) (n k : ℕ) :
    (running (countedLoop n w) limits [Frame.enter "a" repeating.body (roundScope w (k + 1))]
      count 1).Completes 2 none (List.replicate (k + 1) (w.map .command)).flatten := by
  induction k generalizing count with
  | zero =>
    refine completes_round hdepth hsilent hw fun count ↦ ?_
    have hcall := demand_round_of_zero (f := ⟨"a", 2, [], roundScope w 1⟩) (n := n) (w := w)
      (Argument.value_oneLess (k := 0) rfl) (.parameter "B" .null)
    exact .skip rfl hcall (Nat.le_succ 1) (.leave rfl (Nat.le_succ 1) .finish)
  | succ k ih =>
    rw [List.replicate_succ, List.flatten_cons]
    refine completes_round hdepth hsilent hw fun count ↦ ?_
    have hcall := demand_round (f := ⟨"a", 2, [], roundScope w (k + 2)⟩) (n := n) (w := w)
      (b := .parameter "B" .null) (Argument.value_oneLess (k := k + 1) rfl) rfl
    have hroom : ((0 : ℕ) : ℤ) < limits.depth.toInt := by omega
    exact .enter rfl hcall (one_le_of_two_le hsilent) hroom (Nat.le_succ 1) ih

theorem completes_countedLoop (hn : 1 ≤ n) (hw : w ≠ []) (hdepth : 2 ≤ limits.depth.toInt)
    (hsilent : 2 ≤ limits.silent) : (start (countedLoop n w) limits).Completes 2 none
      (List.replicate n (w.map .command)).flatten := by
  obtain ⟨k, rfl⟩ := Nat.exists_eq_add_of_le' hn
  have hcall := demand_round (f := ⟨"main", 1, [], .mk Scope.globals⟩) (n := k + 1) (w := w)
    (b := .quoted (Element.word w) .null) (Argument.value_numeral _ (k + 1)) rfl
  have hroom : ((0 : ℕ) : ℤ) < limits.depth.toInt := by omega
  exact .enter rfl hcall (one_le_of_two_le hsilent) hroom (Nat.le_succ 1)
    (completes_rounds hdepth hsilent hw _ k)

/-- **A counted loop runs as often as it says.** For every positive number in decimal and every word
of commands but the empty one, the text of the loop is a program. Under limits that admit two frames
on the stack and two for one action, it delivers the word that number of times, and then the
evaluation ends without a failure. There are never more than two frames on the stack. -/
theorem counted_loop_repeats (n : ℕ) (w : List Command) (hn : 1 ≤ n) (hne : w ≠ [])
    (hw : ∀ c ∈ w, c.WellFormed) :
    ∃ p, Program.parse (Bytes.ofString ("a(A,B):Ba(A-1,B)\na(" ++ toString n ++ "," ++
        String.join (w.map Command.render) ++ ")")) = .ok p ∧
      ∀ limits : Limits, 2 ≤ limits.depth → 2 ≤ limits.silent →
        (start p limits).Delivers none (List.replicate n (w.map Action.command)).flatten ∧
        ∀ m, Reachable p limits m → m.stack.size ≤ 2 := by
  obtain ⟨p, hp, hruns⟩ :=
    exists_parse_completes (wellFormed_countedLoop n hne hw) (erase_countedLoop n w)
  rw [render_countedLoop] at hp
  refine ⟨p, hp, fun limits hdepth hsilent ↦ ?_⟩
  have hrun := hruns limits _ _ _
    (completes_countedLoop hn hne (Int64.le_iff_toInt_le.1 hdepth) hsilent)
  exact ⟨hrun.delivers, fun m hm ↦ hm.size_le_of_completes hrun⟩

/-- Twelve rounds with the tightest limits. -/
theorem dozen_rounds : 1 ≤ 12 ∧ [Command.forward, .turnLeft] ≠ [] ∧
    (∀ c ∈ [Command.forward, .turnLeft], c.WellFormed) ∧
    ∃ p, Program.parse (Bytes.ofString "a(A,B):Ba(A-1,B)\na(12,sl)") = .ok p ∧
      (start p ⟨2, 2⟩).Delivers none
        (List.replicate 12 [.command .forward, .command .turnLeft]).flatten ∧
      Reachable p ⟨2, 2⟩ (start p ⟨2, 2⟩) ∧ ∀ m, Reachable p ⟨2, 2⟩ m → m.stack.size ≤ 2 := by
  have hw : ∀ c ∈ [Command.forward, .turnLeft], c.WellFormed := by simp [Command.WellFormed]
  obtain ⟨p, hp, hruns⟩ := counted_loop_repeats 12 [.forward, .turnLeft] (by decide) (by decide) hw
  obtain ⟨hdelivers, hsize⟩ := hruns ⟨2, 2⟩ (by decide) (by decide)
  exact ⟨by decide, by decide, hw, p, hp, hdelivers, .start, hsize⟩

end Machine

/-! ### Nested calls -/

/-- The definition `a(A):sa(A-1)s`. -/
def Definition.bracketing : Definition where
  name := "a"
  params := ["A"]
  body := [.command .forward .null, .call "a" [.oneLess] .null, .command .forward .null]
  span := .null

namespace Program

open Definition

/-- Nested calls: the call `a(n)` behind the definition `a(A):sa(A-1)s`. -/
def nestedCalls (n : ℕ) : Program where
  definitions := [bracketing]
  main := [.call "a" [.numeral n] .null]

theorem render_nestedCalls (n : ℕ) :
    (nestedCalls n).render = "a(A):sa(A-1)s\na(" ++ toString n ++ ")" := by
  have hforward : Command.forward.render = "s" := by decide
  rw [← String.toList_inj]
  simp [render, symbols, nestedCalls, bracketing, Definition.symbols, Element.sequenceSymbols,
    Element.symbols, Argument.listSymbols, Argument.symbols_numeral, Argument.symbols_oneLess,
    Symbol.spell, Symbol.enclose, Symbol.colon, Symbol.newline, hforward]

theorem wellFormed_nestedCalls (n : ℕ) : (nestedCalls n).WellFormed where
  definitions := by
    have hforward : (Element.command .forward .null).WellFormed := .command (List.mem_cons_self ..)
    simp only [nestedCalls, List.mem_singleton, forall_eq]
    refine ⟨isProcedureName_a, ?_, by decide, by simp [bracketing], ?_⟩
    · simpa [bracketing] using isParameterName_A
    · simp only [bracketing, List.mem_cons, List.not_mem_nil, or_false, forall_eq_or_imp,
        forall_eq]
      refine ⟨hforward, .call isProcedureName_a ?_, hforward⟩
      simpa using Argument.wellFormed_oneLess
  main_ne_nil := by simp [nestedCalls]
  main := by
    simp only [nestedCalls, List.mem_singleton, forall_eq]
    refine .call isProcedureName_a ?_
    simpa using Argument.wellFormed_numeral n
  main_statements := by simp [nestedCalls]

end Program

namespace Machine

open Program Definition

variable {p : Program} {limits : Limits} {bound : ℕ} {failure : Option Failure}
  {actions : List Action} {count n k d : ℕ} {silent : Int64} {f : Frame Env} {a : Argument}
  {waiting : List (Frame Env)}

/-- The scope of a nested call with the counter `k`. -/
def levelScope (k : ℕ) : Env := .mk ((Scope.empty (.ofString "a")).bind (.ofString "A") (.number k))

/-- The frame that waits for a nested call: only its last command is left. -/
def waitingFrame (k : ℕ) : Frame Env := ⟨"a", 2, [.command .forward .null], levelScope k⟩

theorem demand_level (ha : a.value f.scope = .ok (.number (k + 1 : ℕ))) :
    f.demand (nestedCalls n) (.call "a" [a] .null) =
      .enter (Frame.enter "a" bracketing.body (levelScope (k + 1))) := by
  refine Frame.demand_call_of_some (d := bracketing) rfl rfl ?_ .null
  show Argument.bindAll f.scope (Scope.empty (.ofString "a")) ["A"] [a] = _
  rw [Argument.bindAll_of_not_zero ha (Value.isZero_succ k)]
  rfl

theorem demand_innermost (n : ℕ) :
    (waitingFrame 1).demand (nestedCalls n) (.call "a" [.oneLess] .null) = .skip :=
  Frame.demand_call_of_none (d := bracketing) rfl rfl
    (Argument.bindAll_of_zero (Argument.value_oneLess (k := 0) rfl) ..) .null

theorem demand_inner (n k : ℕ) :
    (waitingFrame (k + 2)).demand (nestedCalls n) (.call "a" [.oneLess] .null) =
      .enter (Frame.enter "a" bracketing.body (levelScope (k + 1))) :=
  demand_level (Argument.value_oneLess (k := k + 1) rfl)

/-- **The way back**: every frame that waits delivers its last command. -/
theorem completes_waiting (hwaiting : ∀ f ∈ waiting, f.rest = [.command .forward .null])
    (hsize : waiting.length ≤ bound) :
    (running p limits waiting count silent).Completes bound none
      (List.replicate waiting.length (.command .forward)) := by
  induction waiting generalizing count silent with
  | nil => exact .finish
  | cons f waiting ih =>
    obtain ⟨hf, hwaiting⟩ := List.forall_mem_cons.1 hwaiting
    have hadvance : f.advance? =
        some (.command .forward .null, { f with passed := f.passed + 1, rest := [] }) := by
      rw [Frame.advance?, hf]
    refine .deliver hadvance rfl hsize (.leave rfl hsize ?_)
    exact ih hwaiting (Nat.le_of_succ_le hsize)

theorem forall_waiting (k : ℕ) (hwaiting : ∀ f ∈ waiting, f.rest = [.command .forward .null]) :
    ∀ f ∈ waitingFrame k :: waiting, f.rest = [.command .forward .null] :=
  List.forall_mem_cons.2 ⟨rfl, hwaiting⟩

/-- **All the way down and back**, if there is room for all nested calls on top of the frames that
wait. -/
theorem completes_descent (hd : limits.depth.toInt = d) (hsilent : 1 ≤ limits.silent)
    (n k count : ℕ) (waiting : List (Frame Env))
    (hwaiting : ∀ f ∈ waiting, f.rest = [.command .forward .null])
    (hroom : waiting.length + (k + 1) ≤ d) :
    (running (nestedCalls n) limits
      (Frame.enter "a" bracketing.body (levelScope (k + 1)) :: waiting) count 1).Completes
        d none (List.replicate (waiting.length + 2 * (k + 1)) (.command .forward)) := by
  induction k generalizing count waiting with
  | zero =>
    refine .deliver rfl rfl hroom (.skip rfl (demand_innermost n) hroom ?_)
    exact completes_waiting (forall_waiting 1 hwaiting) hroom
  | succ k ih =>
    have hsize : waiting.length + 1 ≤ d := by omega
    have hdepth : ((waiting.length + 1 : ℕ) : ℤ) < limits.depth.toInt := by omega
    have hinner : (waiting.length + 1) + (k + 1) ≤ d := by omega
    rw [show waiting.length + 2 * (k + 1 + 1) = waiting.length + 1 + 2 * (k + 1) + 1 by omega,
      List.replicate_succ]
    refine .deliver rfl rfl hsize (.enter rfl (demand_inner n k) hsilent hdepth hsize ?_)
    exact ih _ (waitingFrame (k + 2) :: waiting) (forall_waiting (k + 2) hwaiting) hinner

/-- **Down to where the stack is full**, if there is no room for all nested calls. -/
theorem stopped_descent (hd : limits.depth.toInt = d) (hsilent : 1 ≤ limits.silent)
    (n k count : ℕ) (waiting : List (Frame Env)) (hsize : waiting.length + 1 ≤ d)
    (hroom : d < waiting.length + (k + 1)) :
    (running (nestedCalls n) limits
      (Frame.enter "a" bracketing.body (levelScope (k + 1)) :: waiting) count 1).Completes
        d (some (.recursion d 1)) (List.replicate (d - waiting.length) (.command .forward)) := by
  induction k generalizing count waiting with
  | zero => exact absurd hsize (Nat.not_le.2 hroom)
  | succ k ih =>
    have hinner : d < (waiting.length + 1) + (k + 1) := by omega
    rw [show d - waiting.length = d - (waiting.length + 1) + 1 by omega, List.replicate_succ]
    refine .deliver rfl rfl hsize ?_
    -- The frame on top now waits for a call. Either there is room for another frame, or this one
    -- was the last.
    rcases Nat.lt_or_eq_of_le hsize with hdepth | rfl
    · have hdepth' : ((waiting.length + 1 : ℕ) : ℤ) < limits.depth.toInt := by omega
      exact .enter rfl (demand_inner n k) hsilent hdepth' hsize
        (ih _ (waitingFrame (k + 2) :: waiting) hdepth hinner)
    · rw [Nat.sub_self, show (1 : Int64) = 0 + 1 from rfl]
      exact .refuse rfl (demand_inner n k) hsilent hd.le le_rfl

/-- The first call finds the stack empty, since the frame of the main block has run out. -/
theorem completes_nestedCalls (hd : limits.depth.toInt = d) (hdepth : 1 ≤ d)
    (hsilent : 1 ≤ limits.silent)
    (hrun : (running (nestedCalls (k + 1)) limits
      [Frame.enter "a" bracketing.body (levelScope (k + 1))] 0 1).Completes d failure actions) :
    (start (nestedCalls (k + 1)) limits).Completes d failure actions := by
  have hcall := demand_level (f := ⟨"main", 1, [], .mk Scope.globals⟩) (n := k + 1)
    (Argument.value_numeral _ (k + 1))
  have hroom : ((0 : ℕ) : ℤ) < limits.depth.toInt := by omega
  exact .enter rfl hcall hsilent hroom hdepth hrun

theorem completes_of_room (hd : limits.depth.toInt = d) (hn : 1 ≤ n) (hsilent : 1 ≤ limits.silent)
    (hroom : n ≤ d) : (start (nestedCalls n) limits).Completes d none
      (List.replicate (2 * n) (.command .forward)) := by
  obtain ⟨k, rfl⟩ := Nat.exists_eq_add_of_le' hn
  have hrun := completes_descent hd hsilent (k + 1) k 0 [] (List.forall_mem_nil _)
    (by rwa [List.length_nil, Nat.zero_add])
  rw [List.length_nil, Nat.zero_add] at hrun
  exact completes_nestedCalls hd (hn.trans hroom) hsilent hrun

theorem stopped_of_no_room (hd : limits.depth.toInt = d) (hdepth : 1 ≤ d)
    (hsilent : 1 ≤ limits.silent) (hroom : d < n) :
    (start (nestedCalls n) limits).Completes d (some (.recursion d 1))
      (List.replicate d (.command .forward)) := by
  obtain ⟨k, rfl⟩ := Nat.exists_eq_add_of_le' (hdepth.trans hroom.le)
  have hrun := stopped_descent hd hsilent (k + 1) k 0 [] hdepth
    (by rwa [List.length_nil, Nat.zero_add])
  exact completes_nestedCalls hd hdepth hsilent hrun

/-- **The limit on the size of the stack is exact.** For every positive number in decimal, the text
of the nested calls is a program. With the size of the stack limited to a positive number `d`, and
whatever limit there is on the frames entered for one action, it delivers two commands for each
call and ends without a failure if there are at most `d` calls. If there are more, it delivers `d`
commands, and then the evaluation ends with a recursion error at depth `d`. -/
theorem nested_calls_meet_depth_limit (n : ℕ) (hn : 1 ≤ n) :
    ∃ p, Program.parse (Bytes.ofString ("a(A):sa(A-1)s\na(" ++ toString n ++ ")")) = .ok p ∧
      ∀ (limits : Limits) (d : Int64), 1 ≤ limits.silent → 1 ≤ d →
        (n ≤ d.toInt → (start p (limits.withDepth d)).Delivers none
          (List.replicate (2 * n) (.command .forward))) ∧
        (d.toInt < n → (start p (limits.withDepth d)).Delivers
          (some (.recursion d.toInt.toNat 1))
          (List.replicate d.toInt.toNat (.command .forward))) := by
  obtain ⟨p, hp, hruns⟩ := exists_parse_completes (wellFormed_nestedCalls n) rfl
  rw [render_nestedCalls] at hp
  refine ⟨p, hp, fun limits d hsilent hd ↦ ?_⟩
  have hpositive : 1 ≤ d.toInt := Int64.le_iff_toInt_le.1 hd
  have hlimits : limits.withDepth d = ⟨d, limits.silent⟩ :=
    if_pos (Int64.lt_of_lt_of_le (by decide) hd)
  have hdepth : (⟨d, limits.silent⟩ : Limits).depth.toInt = d.toInt.toNat := by
    show d.toInt = _
    omega
  rw [hlimits]
  constructor
  · intro hroom
    exact (hruns ⟨d, limits.silent⟩ _ _ _
      (completes_of_room hdepth hn hsilent (by omega))).delivers
  · intro hroom
    exact (hruns ⟨d, limits.silent⟩ _ _ _
      (stopped_of_no_room hdepth (by omega) hsilent (by omega))).delivers

/-- Three calls need three frames. -/
theorem three_levels : 1 ≤ 3 ∧
    ∃ p, Program.parse (Bytes.ofString "a(A):sa(A-1)s\na(3)") = .ok p ∧
      (start p (Limits.standard.withDepth 3)).Delivers none
        (List.replicate 6 (.command .forward)) ∧
      (start p (Limits.standard.withDepth 2)).Delivers (some (.recursion 2 1))
        (List.replicate 2 (.command .forward)) := by
  obtain ⟨p, hp, hruns⟩ := nested_calls_meet_depth_limit 3 (by decide)
  have hsilent : 1 ≤ Limits.standard.silent := by decide
  exact ⟨by decide, p, hp, (hruns .standard 3 hsilent (by decide)).1 (by decide),
    (hruns .standard 2 hsilent (by decide)).2 (by decide)⟩

end Machine

end RobotGolf
