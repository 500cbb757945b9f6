import RobotGolf.Proofs.StackDiscipline
/-!
# Programs that run in a single frame

If all calls and all parameters among statements stand in last position, in every sequence of the
program and so at any quoting depth (`Program.TailOnly`), then nothing is ever left to come back to:
by the time a frame is entered, the one that asked for it has run out and is dropped
(`Reachable.items_dropExhausted_of_enter`). The stack never holds more than one frame, however long
the program runs, and the limit on its size stops no such program. Only the limit on the frames
entered for one action may do so.

Chains of calls may lead from bodies into sequences that were quoted elsewhere and back again. This
makes no difference, because frames run sequences of the program only (`Reachable.runs`), and the
condition is on each of these.
-/

namespace RobotGolf

/-- The element is a command, and asks for no frame. -/
def Element.isCommand : Element → Bool
  | command _ _ => true
  | _ => false

/-- Calls, and parameters among statements, stand in last position only. -/
def Program.TailOnly (p : Program) : Prop :=
  ∀ seq ∈ p.sequences, ∀ x ∈ seq.dropLast, x.isCommand = true

instance (p : Program) : Decidable p.TailOnly :=
  inferInstanceAs (Decidable (∀ seq ∈ p.sequences, ∀ x ∈ seq.dropLast, x.isCommand = true))

/-- No command asks for a frame. -/
theorem Frame.isCommand_of_demand {p : Program} {f h : Frame Env} {x : Element}
    (hd : f.demand p x = .enter h) : x.isCommand = false := by
  rcases (f.source_of_demand p x).2 h hd with ⟨name, span, body, captured, rfl, -⟩ |
    ⟨callee, args, span, d, scope, rfl, -⟩
  · rfl
  · rfl

namespace Machine

variable {p : Program} {limits : Limits} {m : Machine}

/-- **A frame that asks for another one is dropped**, since it has run out. -/
theorem Reachable.items_dropExhausted_of_enter (hp : p.TailOnly) (hm : Reachable p limits m)
    {h : Frame Env} (hd : m.demand = .enter h) :
    (dropExhausted m.moved.stack).items = m.stack.items.tail := by
  rcases hitems : m.stack.items with - | ⟨f, below⟩
  · simp [demand_of_nil hitems] at hd
  rcases hrest : f.rest with - | ⟨x, rest⟩
  · simp [demand_of_exhausted hitems hrest] at hd
  obtain ⟨seq, hseq, hruns⟩ := hm.runs (f := f) (by simp [hitems])
  have hadvance : f.advance? = some (x, { f with passed := f.passed + 1, rest := rest }) := by
    simp [Frame.advance?, hrest]
  have hlast : rest = [] := by
    by_contra hne
    rw [demand_of_cons hitems hrest] at hd
    have hcommand := hp seq hseq x ((hruns.advance hadvance).2.1 hne)
    simp [Frame.isCommand_of_demand hd] at hcommand
  simp [dropExhausted, Stack.top?, items_moved_of_cons hitems hrest, Frame.exhausted, hlast]

/-- The stack never holds more than one frame. -/
theorem Reachable.size_le_one (hp : p.TailOnly) (hm : Reachable p limits m) :
    m.stack.size ≤ 1 := by
  induction hm with
  | start => exact Nat.le_refl 1
  | @step m hm ih =>
    rcases m.step_account with ⟨hitems, -⟩ | ⟨f, hd, -, -, heq⟩ | ⟨failure, -, heq⟩ |
      ⟨f, depth, -, heq, -⟩
    · rw [Stack.size_eq, hitems, ← Stack.size_eq]
      exact m.size_moved_le.trans ih
    · rw [Stack.size_eq] at ih ⊢
      rw [heq, entered, Stack.items_push, hm.items_dropExhausted_of_enter hp hd, List.length_cons,
        List.length_tail]
      omega
    · rw [heq]
      exact Nat.zero_le 1
    · rw [heq]
      exact Nat.zero_le 1
  | abandon _ _ => exact Nat.zero_le 1

/-- A recursion error comes from the counter, never from the size of the stack. -/
theorem Reachable.recursion_of_tailOnly (hp : p.TailOnly) (hlimits : limits.Effective)
    (hm : Reachable p limits m) {depth : Nat} {calls : Int64}
    (h : m.failure = some (.recursion depth calls)) : depth ≤ 1 ∧ limits.silent < calls := by
  have hdepth := Int64.lt_iff_toInt_lt.1 (Limits.effective_iff.1 hlimits).1
  rw [Int64.toInt_zero] at hdepth
  induction hm with
  | start => simp [Machine.start] at h
  | @step m hm ih =>
    rcases m.step_account with ⟨-, hfailure, -⟩ | ⟨f, -, -, -, heq⟩ | ⟨failure, hd, heq⟩ |
      ⟨f, depth', hd, heq, hcause⟩
    · exact ih (hfailure ▸ h)
    · rw [heq] at h
      exact ih ((moved_failure m).symm.trans h)
    · obtain rfl : failure = .recursion depth calls := by simpa [heq, fail] using h
      exact absurd trivial (not_isRecursion_of_demand hd)
    · obtain ⟨rfl, rfl⟩ : depth' = depth ∧ m.silent + 1 = calls := by simpa [heq, fail] using h
      have hsize := hm.size_le_one hp
      have hdropped : (dropExhausted m.moved.stack).size = m.stack.size - 1 := by
        rw [Stack.size_eq, Stack.size_eq, hm.items_dropExhausted_of_enter hp hd,
          List.length_tail]
      have hmoved := m.size_moved_le
      rw [hm.limits_eq] at hcause
      rcases hcause with ⟨hs, rfl⟩ | ⟨-, hfull, -⟩
      · exact ⟨by omega, hs⟩
      · omega
  | abandon _ ih => exact ih h

/-- **Programs with all calls in last position run in a single frame.** If calls and parameters
among statements stand in last position only, in every sequence of the program, then under any
limits in effect the stack holds one frame at most in every state that an evaluation can come to.
So the limit on its size never stops the evaluation, even if it is one: a recursion error is always
one of too many frames entered for one action. -/
theorem single_frame_of_tailOnly (hp : p.TailOnly) (hlimits : limits.Effective)
    (hm : Reachable p limits m) :
    m.stack.size ≤ 1 ∧ ∀ depth calls, m.failure = some (.recursion depth calls) →
      depth ≤ 1 ∧ calls.toInt = limits.silent.toInt + 1 := by
  refine ⟨hm.size_le_one hp, fun depth calls h ↦ ?_⟩
  obtain ⟨hle, hlt⟩ := hm.recursion_of_tailOnly hp hlimits h
  have hcalls := (hm.orderly hlimits).recursion depth calls h
  rw [hm.limits_eq] at hcalls
  rcases hcalls with hcalls | ⟨-, hwithin⟩
  · exact ⟨hle, hcalls⟩
  · exact absurd hwithin (Int64.not_le.2 hlt)

/-- The program `a(A):sA` `b:sa(b)` with the main block `b`, which goes back and forth between
bodies and a sequence that is quoted in one of them. -/
def relay : Program where
  definitions := [
    ⟨"a", ["A"], [.command .forward .null, .parameter "A" .null], .null⟩,
    ⟨"b", [], [.command .forward .null, .call "a" [.quoted [.call "b" [] .null] .null] .null],
      .null⟩]
  main := [.call "b" [] .null]

/-- With room for a single frame all requests are answered, as long as two frames may be entered for
one action. Otherwise it is the limit on these that stops the program. -/
theorem relay_single_frame : relay.TailOnly ∧ Limits.Effective ⟨1, 2⟩ ∧ Limits.Effective ⟨1, 1⟩ ∧
    ((start relay ⟨1, 2⟩).take? 9).2.count = 9 ∧
    ((start relay ⟨1, 2⟩).take? 9).2.stack.size ≤ 1 ∧
    ∃ depth calls, ((start relay ⟨1, 1⟩).take? 9).2.failure = some (.recursion depth calls) ∧
      depth ≤ 1 ∧ calls.toInt = (1 : Int64).toInt + 1 := by
  have hp : relay.TailOnly := by decide
  have htwo : Limits.Effective ⟨1, 2⟩ := Limits.effective_iff.2 (by decide)
  have hone : Limits.Effective ⟨1, 1⟩ := Limits.effective_iff.2 (by decide)
  have hcount : ((start relay ⟨1, 2⟩).take? 9).2.count = 9 := by cbv
  have hover : ((start relay ⟨1, 1⟩).take? 9).2.failure = some (.recursion 1 2) := by cbv
  have hsize := (single_frame_of_tailOnly hp htwo (Reachable.start.take? 9)).1
  have hcalls := (single_frame_of_tailOnly hp hone (Reachable.start.take? 9)).2 1 2 hover
  exact ⟨hp, htwo, hone, hcount, hsize, 1, 2, hover, hcalls⟩

end Machine

end RobotGolf
