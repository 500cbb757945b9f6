import Mathlib.Data.List.Induction
import Mathlib.Data.List.Nodup
import RobotGolf.Machine.Scope
/-!
# A scope shows what was bound last

Names are bound in a new scope, one after the other (`Scope.bindAll`). There is no condition on the
names or on the values: names may be any octets, empty or repeated, and they may contain the `=`
that stands between name and value in a listing, so that different bindings can have the same text.

What such a sequence comes to is said without a scope. It **leaves** a name bound to the value that
the last one of its bindings for the name has, and the empty name to nothing (`Scope.Leaves`). The
bindings of the scope are a list of what is left, with each name once (`Scope.Lists`). Binding one
more name keeps this (`Lists.bind`), and so it holds behind every sequence (`lists_bindAll`).

All that a scope shows is read off a list of this kind.

* **A look-up and a replaced binding** tell the one entry for a name (`Lists.find?_eq_some_iff`,
  `Lists.replaced_eq_some_iff`).
* **The text of a scope** is made of the texts of its bindings in ascending order. Two lists of what
  is left are permutations of each other (`Lists.perm`), and texts have one ascending order
  (`tags_eq_of_perm`). Bindings with the same text may trade places in it, which is not to be seen.
-/

namespace RobotGolf.Scope

variable {κ : Type} {s t : Scope κ} {made listed order : List (Bytes × Value κ)}
  {name key other : Bytes} {v w : Value κ}

/-- The scope behind some bindings, which are made one after the other. -/
def bindAll (s : Scope κ) (made : List (Bytes × Value κ)) : Scope κ :=
  made.foldl (fun s b ↦ (s.rebind b.1 b.2).scope) s

/-! ### What a sequence of bindings leaves -/

/-- The last one of some bindings for a name has this value. Nothing is left for the empty name. -/
def Leaves (made : List (Bytes × Value κ)) (key : Bytes) (v : Value κ) : Prop :=
  key ≠ [] ∧ ∃ before after, made = before ++ (key, v) :: after ∧ ∀ b ∈ after, b.1 ≠ key

theorem not_leaves_nil : ¬Leaves [] key v := by
  rintro ⟨-, before, after, h, -⟩
  simp at h

/-- What is left when one more name is bound. -/
theorem leaves_concat_iff :
    Leaves (made ++ [(other, w)]) key v ↔
      if key = other then key ≠ [] ∧ v = w else Leaves made key v := by
  constructor
  · rintro ⟨hkey, before, after, hmade, hafter⟩
    rcases List.eq_nil_or_concat after with rfl | ⟨front, last, rfl⟩
    · obtain ⟨rfl, rfl⟩ : other = key ∧ w = v := by
        simpa using (List.append_inj' hmade rfl).2
      rw [if_pos rfl]
      exact ⟨hkey, rfl⟩
    · rw [List.concat_eq_append] at hmade hafter
      rw [← List.cons_append, ← List.append_assoc] at hmade
      obtain ⟨rfl, hlast⟩ := List.append_inj' hmade rfl
      -- the name is not bound again behind its last binding
      have hother : other ≠ key := by
        simpa [← List.singleton_inj.1 hlast] using hafter last (by simp)
      rw [if_neg hother.symm]
      exact ⟨hkey, before, front, rfl, fun b hb ↦ hafter b (List.mem_append_left _ hb)⟩
  · intro h
    split at h
    · rename_i hother
      obtain ⟨hkey, rfl⟩ := h
      exact ⟨hkey, made, [], by rw [hother], by simp⟩
    · rename_i hother
      obtain ⟨hkey, before, after, rfl, hafter⟩ := h
      refine ⟨hkey, before, after ++ [(other, w)], by simp, ?_⟩
      exact List.forall_mem_append.2 ⟨hafter, List.forall_mem_singleton.2 (Ne.symm hother)⟩

/-- Something is left for the names that were bound. -/
theorem exists_leaves_iff :
    (∃ v, Leaves made key v) ↔ key ≠ [] ∧ ∃ b ∈ made, b.1 = key := by
  induction made using List.reverseRecOn with
  | nil => simp [not_leaves_nil]
  | append_singleton made b ih =>
    obtain ⟨other, w⟩ := b
    by_cases h : key = other
    · subst h
      simp [leaves_concat_iff]
    · simp [leaves_concat_iff, h, ih, Ne.symm h]

/-! ### The bindings of a scope -/

/-- A list of all that some bindings leave, with each name once. -/
structure Lists (made listed : List (Bytes × Value κ)) : Prop where
  nodup : (listed.map Prod.fst).Nodup
  mem_iff : ∀ key v, (key, v) ∈ listed ↔ Leaves made key v

theorem scope_rebind (s : Scope κ) (key : Bytes) (v : Value κ) :
    (s.rebind key v).scope = s.bind key v := by
  rw [rebind, bind]
  split <;> rfl

theorem bindAll_concat (s : Scope κ) (made : List (Bytes × Value κ)) (key : Bytes)
    (v : Value κ) : s.bindAll (made ++ [(key, v)]) = (s.bindAll made).bind key v := by
  rw [bindAll, List.foldl_append, List.foldl_cons, List.foldl_nil, scope_rebind]
  rfl

/-- Binding does not rename a scope. -/
theorem name_bindAll (s : Scope κ) (made : List (Bytes × Value κ)) :
    (s.bindAll made).name = s.name := by
  induction made using List.reverseRecOn with
  | nil => rfl
  | append_singleton made b ih =>
    rw [bindAll_concat, bind]
    split <;> exact ih

namespace Lists

/-- **The step lemma**: one more name is bound. -/
theorem bind (h : Lists made s.bindings) (key : Bytes) (v : Value κ) :
    Lists (made ++ [(key, v)]) (s.bind key v).bindings := by
  rw [Scope.bind]
  split
  · rename_i hempty
    refine ⟨h.nodup, fun other w ↦ ?_⟩
    rw [h.mem_iff, leaves_concat_iff]
    split
    · rename_i hother
      have hname : other = [] := hother.trans hempty
      exact iff_of_false (fun hleaves ↦ hleaves.1 hname) (fun hleft ↦ hleft.1 hname)
    · rfl
  · rename_i hkey
    refine ⟨List.nodup_cons.2 ⟨by simp, h.nodup.sublist (List.filter_sublist.map Prod.fst)⟩,
      fun other w ↦ ?_⟩
    rw [List.mem_cons, List.mem_filter, h.mem_iff, leaves_concat_iff]
    split
    · rename_i hother
      simp [hother, hkey]
    · rename_i hother
      simp [hother]

/-- A look-up tells what is left for a name. -/
theorem find?_eq_some_iff (h : Lists made s.bindings) :
    s.find? key = some v ↔ Leaves made key v := by
  rw [← h.mem_iff, find?, List.lookup_eq_some_iff]
  constructor
  · rintro ⟨front, back, hbindings, -⟩
    simp [hbindings]
  · intro hmem
    obtain ⟨front, back, hbindings⟩ := List.append_of_mem hmem
    refine ⟨front, back, hbindings, fun b hb ↦ ?_⟩
    -- the name of an entry in front would be there twice
    have hnodup := h.nodup
    rw [hbindings, List.map_append, List.map_cons, List.nodup_middle, List.nodup_cons] at hnodup
    rw [bne_iff_ne]
    intro hkey
    exact hnodup.1 (List.mem_append_left _ (List.mem_map.2 ⟨b, hb, hkey.symm⟩))

/-- A look-up fails for names that were not bound. -/
theorem find?_eq_none_iff (h : Lists made s.bindings) :
    s.find? key = none ↔ key = [] ∨ ∀ b ∈ made, b.1 ≠ key :=
  calc s.find? key = none
    _ ↔ ¬∃ v, Leaves made key v := by
      simp only [Option.eq_none_iff_forall_ne_some, ne_eq, h.find?_eq_some_iff, not_exists]
    _ ↔ ¬(key ≠ [] ∧ ∃ b ∈ made, b.1 = key) := by rw [exists_leaves_iff]
    _ ↔ key = [] ∨ ∀ b ∈ made, b.1 ≠ key := by
      rw [not_and_or, not_not]
      simp only [not_exists, not_and, ne_eq]

theorem of_perm (h : Lists made listed) (hperm : order.Perm listed) : Lists made order where
  nodup := (hperm.map Prod.fst).nodup_iff.2 h.nodup
  mem_iff key v := hperm.mem_iff.trans (h.mem_iff key v)

/-- What is left can be listed in one way only, up to the order. -/
theorem perm {made' : List (Bytes × Value κ)} (h : Lists made listed) (h' : Lists made' order)
    (hleaves : ∀ key v, Leaves made' key v ↔ Leaves made key v) : order.Perm listed := by
  refine (List.perm_ext_iff_of_nodup (h'.nodup.of_map _) (h.nodup.of_map _)).2 ?_
  rintro ⟨key, v⟩
  rw [h'.mem_iff, hleaves, h.mem_iff]

end Lists

/-- **The run lemma**: a new scope, behind any sequence of bindings. -/
theorem lists_bindAll (name : Bytes) (made : List (Bytes × Value κ)) :
    Lists made ((empty name).bindAll made).bindings := by
  induction made using List.reverseRecOn with
  | nil => exact ⟨List.nodup_nil, fun key v ↦ iff_of_false List.not_mem_nil not_leaves_nil⟩
  | append_singleton made b ih =>
    rw [bindAll_concat]
    exact ih.bind b.1 b.2

/-- The binding that is replaced is the one that a look-up would have found. -/
theorem replaced_rebind (s : Scope κ) (hkey : key ≠ []) (v : Value κ) :
    (s.rebind key v).replaced = (s.find? key).map (key, ·) := by
  rw [rebind, if_neg hkey, find?]
  induction s.bindings with
  | nil => rfl
  | cons b rest ih =>
    rw [List.find?_cons, List.lookup_cons, BEq.comm]
    rcases hb : key == b.1 with - | -
    · exact ih
    · rw [LawfulBEq.eq_of_beq hb]
      rfl

theorem Lists.replaced_eq_some_iff (h : Lists made s.bindings) {old : Bytes × Value κ} :
    (s.rebind key v).replaced = some old ↔ old.1 = key ∧ Leaves made key old.2 := by
  obtain ⟨former, w⟩ := old
  by_cases hkey : key = []
  · rw [rebind, if_pos hkey]
    exact iff_of_false (Option.some_ne_none _).symm fun hold ↦ hold.2.1 hkey
  · rw [replaced_rebind s hkey, Option.map_eq_some_iff]
    simp only [h.find?_eq_some_iff, Prod.mk.injEq]
    constructor
    · rintro ⟨w, hleaves, rfl, rfl⟩
      exact ⟨rfl, hleaves⟩
    · rintro ⟨rfl, hleaves⟩
      exact ⟨w, hleaves, rfl, rfl⟩

/-! ### The text of a scope -/

/-- Texts are listed in ascending order. -/
theorem pairwise_tags (s : Scope κ) : s.tags.Pairwise (· ≤ ·) := by
  rw [tags]
  simpa using @List.pairwise_mergeSort _ (fun x y : Bytes ↦ decide (x ≤ y))
    (fun x y z ↦ by simpa using List.le_trans) (fun x y ↦ by simpa using List.le_total x y) _

/-- The texts of some bindings can be put into one ascending order only, even if several of them
are the same. -/
theorem tags_eq_of_perm (h : s.bindings.Perm t.bindings) : s.tags = t.tags := by
  refine List.Perm.eq_of_pairwise (fun x y _ _ ↦ List.le_antisymm) (pairwise_tags s)
    (pairwise_tags t) ?_
  exact (List.mergeSort_perm _ _).trans ((h.map _).trans (List.mergeSort_perm _ _).symm)

theorem render_eq_of_perm (hname : s.name = t.name) (h : s.bindings.Perm t.bindings) :
    s.render = t.render := by
  rw [render, render, hname, tags_eq_of_perm h]

/-- The listing of a scope, as a list of bindings. -/
theorem exists_perm_map_tag (s : Scope κ) :
    ∃ listed : List (Bytes × Value κ), listed.Perm s.bindings ∧
      listed.map (fun b ↦ tag b.1 b.2) = s.tags :=
  ⟨s.bindings.mergeSort fun b c ↦ decide (tag b.1 b.2 ≤ tag c.1 c.2), List.mergeSort_perm _ _,
    List.map_mergeSort fun _ _ _ _ ↦ rfl⟩

/-! ### Every sequence of bindings -/

/-- **A scope is a finite map, and its text depends on the map only.** Let names be bound in a new
scope, one after the other. A name has the value that it was bound to last. It has none if it was
not bound, or if it is empty. Each binding replaces the one that was there for its name, and tells
so. The text of the scope lists each name that is bound, once and with its last value, in the order
of the texts. It is the same for every order in which the bindings of the scope can be gone through,
and for every other sequence that leaves the same bindings. -/
theorem shows_last_bindings (name : Bytes) (made : List (Bytes × Value κ)) :
    (∀ key v, ((empty name).bindAll made).find? key = some v ↔ Leaves made key v) ∧
    (∀ key, ((empty name).bindAll made).find? key = none ↔
      key = [] ∨ ∀ b ∈ made, b.1 ≠ key) ∧
    (∀ before key v after, made = before ++ (key, v) :: after →
      ∀ old, (((empty name).bindAll before).rebind key v).replaced = some old ↔
        old.1 = key ∧ Leaves before key old.2) ∧
    (∃ listed, Lists made listed ∧
      (listed.map fun b ↦ b.1 ++ Bytes.ofString ("=" ++ b.2.render)).Pairwise (· ≤ ·) ∧
      ((empty name).bindAll made).render = Bytes.ofString "<scope " ++
        (Bytes.ofString " ").intercalate
          (name :: listed.map fun b ↦ b.1 ++ Bytes.ofString ("=" ++ b.2.render)) ++
        Bytes.ofString ">") ∧
    (∀ order, order.Perm ((empty name).bindAll made).bindings →
      render ⟨name, order⟩ = ((empty name).bindAll made).render) ∧
    (∀ made', (∀ key v, Leaves made' key v ↔ Leaves made key v) →
      ((empty name).bindAll made').render = ((empty name).bindAll made).render) := by
  have hlists := lists_bindAll name made
  have hname : ∀ made : List (Bytes × Value κ), ((empty name).bindAll made).name = name :=
    name_bindAll _
  refine ⟨fun key v ↦ hlists.find?_eq_some_iff, fun key ↦ hlists.find?_eq_none_iff, ?_, ?_, ?_, ?_⟩
  · rintro before key v after - old
    exact (lists_bindAll name before).replaced_eq_some_iff
  · obtain ⟨listed, hperm, htags⟩ := exists_perm_map_tag ((empty name).bindAll made)
    refine ⟨listed, hlists.of_perm hperm, ?_, ?_⟩
    · exact htags ▸ pairwise_tags ((empty name).bindAll made)
    · rw [render, hname, ← htags]
      rfl
  · intro order horder
    exact render_eq_of_perm (hname made).symm horder
  · intro made' hleaves
    refine render_eq_of_perm ((hname made').trans (hname made).symm) ?_
    exact hlists.perm (lists_bindAll name made') hleaves

/-- A sequence that reads as a name with a number. -/
def lookalike : Value (Option Nat) := .deferred [.parameter "B=2" Span.null] none

/-- A name that is bound twice, the empty name, and a name that contains `=`. The octet in front of
the two names is not the beginning of any text. -/
def lookalikes : List (Bytes × Value (Option Nat)) :=
  [([0xff, 0x41], .number 1), ([], .number 7), ([0xff, 0x41, 0x3d, 0x42], .number 2),
    ([0xff, 0x41], lookalike)]

/-- Both bindings that are left read `A=B=2` behind that octet. -/
theorem lookalikes_shown :
    ((empty [0x66]).bindAll lookalikes).find? [0xff, 0x41] = some lookalike ∧
    ((empty [0x66]).bindAll lookalikes).find? [] = none ∧
    (((empty [0x66]).bindAll (lookalikes.take 3)).rebind [0xff, 0x41] lookalike).replaced =
      some ([0xff, 0x41], .number 1) ∧
    ((empty [0x66]).bindAll lookalikes).render = Bytes.ofString "<scope f " ++
      0xff :: Bytes.ofString "A=B=2 " ++ 0xff :: Bytes.ofString "A=B=2>" ∧
    render ⟨[0x66], [([0xff, 0x41, 0x3d, 0x42], .number 2), ([0xff, 0x41], lookalike)]⟩ =
      ((empty [0x66]).bindAll lookalikes).render ∧
    ((empty [0x66]).bindAll
        [([0xff, 0x41], lookalike), ([0xff, 0x41, 0x3d, 0x42], .number 2)]).render =
      ((empty [0x66]).bindAll lookalikes).render := by
  have hbindings : ((empty [0x66]).bindAll lookalikes).bindings =
      [([0xff, 0x41], lookalike), ([0xff, 0x41, 0x3d, 0x42], .number 2)] := by
    rfl
  have hswapped : ((empty [0x66]).bindAll
      [([0xff, 0x41], lookalike), ([0xff, 0x41, 0x3d, 0x42], .number 2)]).bindings =
        [([0xff, 0x41, 0x3d, 0x42], .number 2), ([0xff, 0x41], lookalike)] := by
    rfl
  obtain ⟨hfound, hnone, hreplaced, -, horder, hhistory⟩ := shows_last_bindings [0x66] lookalikes
  refine ⟨?_, ?_, ?_, ?_, ?_, ?_⟩
  · exact (hfound _ _).2 ⟨by simp, lookalikes.take 3, [], rfl, by simp⟩
  · exact (hnone _).2 (Or.inl rfl)
  · refine (hreplaced _ _ _ [] rfl _).2 ⟨rfl, by simp, [], _, rfl, ?_⟩
    simp
  · have htags : ((empty [0x66]).bindAll lookalikes).tags =
        [0xff :: Bytes.ofString "A=B=2", 0xff :: Bytes.ofString "A=B=2"] := by
      rw [tags, hbindings]
      exact List.mergeSort_of_pairwise (by decide)
    rw [render, htags]
    decide
  · exact horder _ (hbindings ▸ List.Perm.swap ..)
  · refine hhistory _ fun key v ↦ ?_
    rw [← (lists_bindAll [0x66] _).mem_iff, ← (lists_bindAll [0x66] lookalikes).mem_iff, hbindings,
      hswapped]
    exact (List.Perm.swap ..).mem_iff

end RobotGolf.Scope
