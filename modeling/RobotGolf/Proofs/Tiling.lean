import RobotGolf.Proofs.Scanning
/-!
# Tokens cover the text without gaps

`Token.Tiles start tokens stop` says that some tokens cover a stretch of text: the first one begins
at `start`, every other one begins where the one before it ends, the last one ends at `stop`, and
none of them is empty. A scan that is not stopped by a character outside of the alphabet covers its
whole text (`tiles_scan`).

Such a cover can be cut between any two tokens (`tiles_append_iff`). So tokens that stand next to
each other are exactly those within the stretch that they cover (`countP_within`).
-/

namespace RobotGolf

/-- Whether one span lies within another. -/
def Span.within (inner outer : Span) : Bool :=
  outer.start ≤ inner.start && inner.stop ≤ outer.stop

namespace Token

/-- Tokens that cover the text from one offset up to another. -/
inductive Tiles : Nat → List Token → Nat → Prop where
  | nil (offset : Nat) : Tiles offset [] offset
  | cons {start stop : Nat} {t : Token} {rest : List Token} (begins : t.span.start = start)
      (nonempty : start < t.span.stop) (behind : Tiles t.span.stop rest stop) :
      Tiles start (t :: rest) stop

variable {start stop : Nat} {tokens others : List Token} {t : Token}

theorem tiles_cons_iff : Tiles start (t :: tokens) stop ↔
    t.span.start = start ∧ start < t.span.stop ∧ Tiles t.span.stop tokens stop := by
  constructor
  · rintro (- | ⟨begins, nonempty, behind⟩)
    exact ⟨begins, nonempty, behind⟩
  · rintro ⟨begins, nonempty, behind⟩
    exact .cons begins nonempty behind

theorem Tiles.le (h : Tiles start tokens stop) : start ≤ stop := by
  induction h with
  | nil => exact Nat.le_refl _
  | cons _ nonempty _ ih => exact Nat.le_trans (Nat.le_of_lt nonempty) ih

/-- Every token of a cover lies within it and is not empty. -/
theorem Tiles.of_mem (h : Tiles start tokens stop) (ht : t ∈ tokens) :
    start ≤ t.span.start ∧ t.span.start < t.span.stop ∧ t.span.stop ≤ stop := by
  induction h with
  | nil => simp at ht
  | cons begins nonempty behind ih =>
    rcases List.mem_cons.1 ht with rfl | ht
    · exact ⟨Nat.le_of_eq begins.symm, begins ▸ nonempty, behind.le⟩
    · obtain ⟨hstart, hnonempty, hstop⟩ := ih ht
      exact ⟨Nat.le_trans (Nat.le_of_lt nonempty) hstart, hnonempty, hstop⟩

/-- A cover is cut between any two tokens. -/
theorem tiles_append_iff :
    Tiles start (tokens ++ others) stop ↔
      ∃ middle, Tiles start tokens middle ∧ Tiles middle others stop := by
  constructor
  · intro h
    induction tokens generalizing start with
    | nil => exact ⟨start, .nil start, h⟩
    | cons t rest ih =>
      obtain ⟨begins, nonempty, behind⟩ := tiles_cons_iff.1 h
      obtain ⟨middle, hrest, hothers⟩ := ih behind
      exact ⟨middle, .cons begins nonempty hrest, hothers⟩
  · rintro ⟨middle, htokens, hothers⟩
    induction htokens with
    | nil => exact hothers
    | cons begins nonempty _ ih => exact .cons begins nonempty (ih hothers)

/-- **Tokens next to each other are the ones within the stretch that they cover.** -/
theorem countP_within {before after : List Token} {total : Nat}
    (hbefore : Tiles 0 before start) (h : Tiles start tokens stop)
    (hafter : Tiles stop after total) :
    (before ++ tokens ++ after).countP (·.span.within ⟨start, stop⟩) = tokens.length := by
  have houter : before.countP (·.span.within ⟨start, stop⟩) = 0 := by
    refine List.countP_eq_zero.2 fun t ht ↦ ?_
    have hmem := hbefore.of_mem ht
    simp only [Span.within, Bool.and_eq_true, decide_eq_true_eq]
    omega
  have hinner : tokens.countP (·.span.within ⟨start, stop⟩) = tokens.length := by
    refine List.countP_eq_length.2 fun t ht ↦ ?_
    have hmem := h.of_mem ht
    simp only [Span.within, Bool.and_eq_true, decide_eq_true_eq]
    omega
  have hbehind : after.countP (·.span.within ⟨start, stop⟩) = 0 := by
    refine List.countP_eq_zero.2 fun t ht ↦ ?_
    have hmem := hafter.of_mem ht
    simp only [Span.within, Bool.and_eq_true, decide_eq_true_eq]
    omega
  rw [List.countP_append, List.countP_append, houter, hinner, hbehind, Nat.zero_add, Nat.add_zero]

/-! ### Scans -/

theorem length_cut_pos (b : UInt8) (rest : Bytes) : 0 < (cut b rest).1.length := by
  unfold cut
  split <;> simp

theorem tiles_scanFrom {finish : Token} {offset : Nat} {before : Place} {text : Bytes}
    (h : (scanFrom finish offset before text).2.kind = .finish) :
    Tiles offset (scanFrom finish offset before text).1 (offset + text.length) := by
  fun_induction scanFrom finish offset before text with
  | case1 offset before => exact .nil offset
  | case2 offset before b rest hclass =>
    -- an illegal character ends the scan in another way
    simp [illegalAt] at h
  | case3 offset before b rest kind hkind lexeme token behind ih =>
    have hlength : lexeme.length + (cut b rest).2.length = (b :: rest).length := by
      rw [← List.length_append, cut_append]
    have hpos : 0 < lexeme.length := length_cut_pos b rest
    have hrest : Tiles (offset + lexeme.length) behind.1 (offset + (b :: rest).length) := by
      rw [← hlength, ← Nat.add_assoc]
      exact ih h
    have hnonempty : offset < token.span.stop := Nat.lt_add_of_pos_right hpos
    exact .cons rfl hnonempty hrest

/-- **A scan covers its text.** -/
theorem tiles_scan {text : Bytes} (h : (scan text).last.kind = .finish) :
    Tiles 0 (scan text).tokens text.length := by
  have htiles : Tiles 0 (scanFrom (finish text) 0 Place.beforeOctets text).1 (0 + text.length) :=
    tiles_scanFrom h
  rwa [Nat.zero_add] at htiles

end Token

end RobotGolf
