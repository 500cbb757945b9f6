import RobotGolf.Proofs.CanonicalText
import RobotGolf.Proofs.ErrorSites
import RobotGolf.Proofs.Tiling
/-!
# The text that some tokens cover

Tokens that stand next to each other in a scan cover a stretch of the text, and the octets of that
stretch are the lexemes of the tokens, one behind the other (`Token.Fills.slice_eq`). If the numbers
among the lexemes lose the zeros in front, so do the runs of digits in the stretch
(`Token.shortenRuns_lexemes`). Both ends of a stretch are ends of tokens, so no run of digits is cut
in two.

`Token.Tiles` only looks at spans. What connects them with lexemes is that a token of a scan is as
long as its lexeme (`Token.Genuine`), and `Token.Fills` has both.
-/

namespace RobotGolf

open Token

/-- The octets of a text within a span. -/
def Span.slice (s : Span) (text : Bytes) : Bytes := (text.take s.stop).drop s.start

/-- What stands between two other parts of a text is the slice from the one to the other. -/
theorem Span.slice_append (before part after : Bytes) :
    Span.slice ⟨before.length, before.length + part.length⟩ (before ++ part ++ after) = part := by
  rw [slice, ← List.length_append, List.take_left, List.drop_left]

namespace Token

/-- The lexemes of some tokens, put together. -/
def lexemes (tokens : List Token) : Bytes := tokens.flatMap lexeme

theorem lexemes_append (tokens others : List Token) :
    lexemes (tokens ++ others) = lexemes tokens ++ lexemes others := List.flatMap_append

theorem lexemes_eq_shapes (tokens : List Token) :
    lexemes tokens = (tokens.map shape).flatMap Prod.snd := by
  rw [lexemes, List.flatMap_map]
  rfl

/-- A token as scans deliver them: spelled as its kind, and as long as its lexeme. -/
structure Genuine (t : Token) : Prop where
  spells : Spells t.kind t.lexeme
  width : t.span.stop = t.span.start + t.lexeme.length

theorem genuine_of_mem_scanFrom {finish t : Token} {offset : ℕ} {before : Place} {text : Bytes}
    (h : t ∈ (scanFrom finish offset before text).1) : t.Genuine := by
  refine ⟨spells_of_mem_scanFrom h, ?_⟩
  fun_induction scanFrom finish offset before text with
  | case1 => simp at h
  | case2 => simp at h
  | case3 offset before b rest kind hkind lexeme token behind ih =>
    rcases List.mem_cons.1 h with rfl | h
    · rfl
    · exact ih h

/-- Everything but a number takes one octet. -/
theorem Genuine.stop_eq {t : Token} (h : t.Genuine) (hkind : t.kind ≠ .number) :
    t.span.stop = t.span.start + 1 := by
  obtain ⟨b, hlexeme, -⟩ := h.spells.eq_singleton hkind
  rw [h.width, hlexeme, List.length_singleton]

/-- **The lexemes of a scan are its text.** -/
theorem lexemes_scanFrom {finish : Token} {offset : ℕ} {before : Place} {text : Bytes}
    (h : (scanFrom finish offset before text).2.kind = .finish) :
    lexemes (scanFrom finish offset before text).1 = text := by
  fun_induction scanFrom finish offset before text with
  | case1 => rfl
  | case2 => simp [illegalAt] at h
  | case3 offset before b rest kind hkind lexeme token behind ih =>
    have hrest : lexemes behind.1 = (cut b rest).2 := ih h
    rw [lexemes, List.flatMap_cons]
    exact (congrArg (lexeme ++ ·) hrest).trans (cut_append b rest)

/-! ### Stretches -/

/-- Tokens of a scan that cover the text from one offset up to another. -/
structure Fills (start : ℕ) (tokens : List Token) (stop : ℕ) : Prop where
  tiles : Tiles start tokens stop
  genuine : ∀ t ∈ tokens, t.Genuine

variable {start stop : ℕ} {tokens others : List Token} {t : Token}

/-- **A scan fills its text.** -/
theorem fills_scan {text : Bytes} (h : (scan text).last.kind = .finish) :
    Fills 0 (scan text).tokens text.length :=
  ⟨tiles_scan h, fun _ ↦ genuine_of_mem_scanFrom⟩

namespace Fills

theorem of_cons (h : Fills start (t :: tokens) stop) :
    t.span.start = start ∧ start < t.span.stop ∧ t.Genuine ∧ Fills t.span.stop tokens stop := by
  obtain ⟨hstart, hpos, hbehind⟩ := tiles_cons_iff.1 h.tiles
  obtain ⟨ht, htokens⟩ := List.forall_mem_cons.1 h.genuine
  exact ⟨hstart, hpos, ht, hbehind, htokens⟩

theorem of_append (h : Fills start (tokens ++ others) stop) :
    ∃ middle, Fills start tokens middle ∧ Fills middle others stop := by
  obtain ⟨middle, hfront, hback⟩ := tiles_append_iff.1 h.tiles
  obtain ⟨htokens, hothers⟩ := List.forall_mem_append.1 h.genuine
  exact ⟨middle, ⟨hfront, htokens⟩, hback, hothers⟩

theorem of_singleton (h : Fills start [t] stop) : t.span = ⟨start, stop⟩ ∧ start < stop := by
  obtain ⟨rfl, hpos, -, hnil⟩ := h.of_cons
  cases hnil.tiles
  exact ⟨rfl, hpos⟩

theorem lt (h : Fills start tokens stop) (hne : tokens ≠ []) : start < stop := by
  rcases tokens with - | ⟨t, tokens⟩
  · exact absurd rfl hne
  · obtain ⟨-, hpos, -, hbehind⟩ := h.of_cons
    exact hpos.trans_le hbehind.tiles.le

theorem allSpelled (h : Fills start tokens stop) : Grammar.AllSpelled tokens :=
  fun t ht ↦ (h.genuine t ht).spells

/-- A stretch is as long as its lexemes. -/
theorem stop_eq (h : Fills start tokens stop) : stop = start + (lexemes tokens).length := by
  induction tokens generalizing start with
  | nil =>
    cases h.tiles
    rfl
  | cons t tokens ih =>
    obtain ⟨rfl, -, hgenuine, hbehind⟩ := h.of_cons
    rw [ih hbehind, hgenuine.width, lexemes, lexemes, List.flatMap_cons, List.length_append,
      Nat.add_assoc]

/-- **The octets of a stretch are the lexemes of its tokens.** -/
theorem slice_eq {before after : List Token} (hbefore : Fills 0 before start)
    (h : Fills start tokens stop) :
    Span.slice ⟨start, stop⟩ (lexemes (before ++ tokens ++ after)) = lexemes tokens := by
  have hstart := hbefore.stop_eq
  rw [Nat.zero_add] at hstart
  rw [h.stop_eq, hstart, lexemes_append, lexemes_append, Span.slice_append]

end Fills

theorem map_canonicalShape_congr (h : tokens.map shape = others.map shape) :
    tokens.map canonicalShape = others.map canonicalShape := by
  have hshape : canonicalShape =
      (fun x ↦ (x.1, if x.1 = .number then Bytes.shortenRun x.2 else x.2)) ∘ shape := rfl
  rw [hshape, ← List.map_map, h, List.map_map]

/-- **Shortening the numbers among some lexemes shortens the runs of digits in their text**, if no
number follows another one. -/
theorem shortenRuns_lexemes (hspelled : Grammar.AllSpelled tokens)
    (hapart : (tokens.map shape).IsChain Apart) :
    Bytes.shortenRuns (lexemes tokens) = (tokens.map canonicalShape).flatMap Prod.snd := by
  have hspells : ∀ x ∈ tokens.map shape, Spells x.1 x.2 := by
    intro x hx
    obtain ⟨t, ht, rfl⟩ := List.mem_map.1 hx
    exact hspelled t ht
  -- the lexemes are cut apart again in the same way, and what is shortened is what a scan finds
  obtain ⟨hshapes, hlast⟩ := scan_spelled _ hspells hapart
  rw [← lexemes_eq_shapes] at hshapes hlast
  rw [← map_canonicalShape_congr hshapes]
  exact (flatMap_canonical_scanFrom hlast).symm

end Token

end RobotGolf
