import RobotGolf.Proofs.FinalEnd
/-!
# What an empty stack tells

Whether anything is left to be run is read off the stack, and an empty stack does mean that no
action comes any more. The converse fails. Behind the last action the frame that it came from is
still on the stack, though it has run out, and so are frames whose calls will all be skipped. They
go only when the next action is requested.

What an empty stack tells is therefore not that the end is next but that it **has been noticed**: by
a request that ran into it, or by giving up (`done_behind`). In the states where that differs from
what one would like to know, an evaluation is about to end and does not say so. No evaluation comes
to its end without passing through one of them.
-/

namespace RobotGolf.Machine

variable {p : Program} {limits : Limits} {m m' : Machine}

/-- The request shows that the evaluation has come to its end: it is answered with the end, with
fewer actions than were asked for, or it gives the evaluation up. -/
def Closes (m : Machine) : Request → Prop
  | .next => ∃ m', m.next = some (.ended, m')
  | .take n => ∃ found, (m.take? n).1 = some found ∧ (found.length : ℤ) < n
  | .abandon => True

/-- A machine that is done answers with the end and stays as it is. -/
theorem next_of_done (h : m.done = true) : m.next = some (.ended, m) :=
  next_of_nil (done_iff.1 h)

/-- A request for the next action leaves the machine done if and only if it is answered with the
end. -/
theorem done_next {r : Reply × Machine} (h : m.next = some r) :
    r.2.done = true ↔ r.1 = .ended := by
  rcases next_account h with ⟨a, m', rfl, -, -, hne⟩ | ⟨m', rfl, -, hnil⟩ |
    ⟨m', rfl, -, -, hne⟩ <;> rw [done_iff]
  · simp [hne]
  · simp [hnil]
  · simp [hne]

/-- A machine is done behind a request for some actions if it was done before, or if there were not
as many. -/
theorem done_take (m : Machine) (n : ℕ) : (m.take n).2.done = true ↔
    m.done = true ∨ ∃ found, (m.take n).1 = some found ∧ found.length < n := by
  induction n generalizing m with
  | zero => simp
  | succ n ih =>
    rcases hnext : m.next with - | ⟨a | - | -, m'⟩
    · simp [take_succ_of_none hnext]
    · have hbefore : ¬m.done = true := fun h ↦ by simp [next_of_done h] at hnext
      have hafter : ¬m'.done = true := by simpa using done_next hnext
      rw [take_succ_of_action hnext, ih m', or_iff_right hbefore, or_iff_right hafter]
      simp
    · rw [take_succ_of_ended hnext]
      simpa using done_next hnext
    · have hbefore : ¬m.done = true := fun h ↦ by simp [next_of_done h] at hnext
      rw [take_succ_of_stuck hnext]
      simpa [hbefore] using done_next hnext

/-- **A request leaves the machine done** if it was done before, or if the request shows the
end. -/
theorem done_respond (m : Machine) (request : Request) :
    (m.respond request).2.done = true ↔ m.done = true ∨ m.Closes request := by
  cases request with
  | next =>
    have hended : m.done = true → ∃ m', m.next = some (.ended, m') :=
      fun h ↦ ⟨m, next_of_done h⟩
    rw [Closes, or_iff_right_of_imp hended, respond]
    rcases hnext : m.next with - | ⟨reply, m'⟩
    · have hbefore : ¬m.done = true := fun h ↦ by simp [next_of_done h] at hnext
      simp [hbefore]
    · simpa using done_next hnext
  | take n =>
    show (m.take? n).2.done = true ↔
      m.done = true ∨ ∃ found, (m.take? n).1 = some found ∧ (found.length : ℤ) < n
    unfold take?
    split
    · simp
    · rw [done_take]
      simp only [Int.lt_toNat]
  | abandon => simp [respond, abandon, done, Stack.isEmpty, Closes]

theorem done_behind (m : Machine) (requests : List Request) :
    (m.behind requests).done = true ↔ m.done = true ∨ m.Encounters Closes requests := by
  induction requests generalizing m with
  | nil => simp [behind, Encounters]
  | cons request requests ih => rw [behind, ih, done_respond, Encounters, or_assoc]

/-- **Being done tells that the end has been noticed, not that it is next.** Of any program, under
any limits and behind any requests, one after the other: the machine is done if and only if one of
the requests has shown the end. If it is done, then the next request delivers nothing and changes
nothing. That it is done if and only if the next request delivers nothing is the case exactly if the
end has been shown already, or if another action comes; so it never is where the end is next and no
request has shown it. -/
theorem done_iff_end_noticed (p : Program) (limits : Limits) (requests : List Request) :
    let m := (start p limits).behind requests
    (m.done = true ↔ (start p limits).Encounters Closes requests) ∧
    (m.done = true → m.next = some (.ended, m)) ∧
    ((m.done = true ↔ ∀ a m', m.next ≠ some (.action a, m')) ↔
      (start p limits).Encounters Closes requests ∨ ∃ a m', m.next = some (.action a, m')) := by
  intro m
  have hstart : ¬(start p limits).done = true := by simp [start, done, Stack.isEmpty]
  have hdone : m.done = true ↔ (start p limits).Encounters Closes requests :=
    (done_behind _ requests).trans (or_iff_right hstart)
  refine ⟨hdone, next_of_done, ?_⟩
  rw [← hdone]
  constructor
  · intro hright
    by_cases haction : ∃ a m', m.next = some (.action a, m')
    · exact Or.inr haction
    · exact Or.inl (hright.2 fun a m' ha ↦ haction ⟨a, m', ha⟩)
  · rintro (hm | ⟨a, m', ha⟩)
    · exact iff_of_true hm (by simp [next_of_done hm])
    · refine iff_of_false (fun hm ↦ ?_) fun hnone ↦ hnone a m' ha
      simp [next_of_done hm] at ha

/-- Behind the only action of the main block `s` the next request delivers nothing, and the machine
is not done. -/
theorem last_action_not_done :
    ¬∀ (p : Program) (limits : Limits) (requests : List Request),
      ((start p limits).behind requests).done = true ↔
        ∀ a m', ((start p limits).behind requests).next ≠ some (.action a, m') := by
  intro h
  have hended : ((start singleAction .standard).behind [.next]).next.map Prod.fst =
      some .ended := by
    cbv
  have hdone : ((start singleAction .standard).behind [.next]).done = false := by cbv
  have htrue := (h singleAction .standard [.next]).2 fun a m' ha ↦ by simp [ha] at hended
  simp [hdone] at htrue

end RobotGolf.Machine
