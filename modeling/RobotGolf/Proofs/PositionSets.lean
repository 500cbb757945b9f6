import Mathlib.Data.Prod.Lex
import RobotGolf.Level.PositionSet
import RobotGolf.Proofs.Words
/-!
# A set of positions holds what it was made of

Look-up in a set of positions is led by the sign of a difference of words, which wraps around. Two
facts make it right all the same.

* **A look-up never finds what is not there**, because a difference is zero only for equal positions
  (`difference_eq_zero_iff`). This holds of every position, also of one outside of any grid.
* **A look-up finds what is there** if the tree is ordered by the same signs
  (`IsSearchTree.contains_iff`). It is so if its members are positions of cells. The words between
  such positions do not wrap around, so the sign is that of their row-major order
  (`difference_neg_iff`), and by that order the members are sorted (`sorted_mergeSort`).

The result is `contains_ofList`.
-/

namespace RobotGolf

namespace Position

/-- A position whose coordinates count from zero, as those of all cells do. -/
structure IsIndex (p : Position) : Prop where
  row : 0 ≤ p.row.toInt
  col : 0 ≤ p.col.toInt

/-- The place of a position in row-major order. -/
def place (p : Position) : ℤ ×ₗ ℤ := toLex (p.row.toInt, p.col.toInt)

variable {p q : Position}

theorem place_injective : Function.Injective place := by
  intro p q h
  obtain ⟨hrow, hcol⟩ := Prod.ext_iff.1 (toLex.injective h)
  have hrow : p.row = q.row := Int64.toInt_inj.1 hrow
  have hcol : p.col = q.col := Int64.toInt_inj.1 hcol
  cases p
  cases q
  rw [mk.injEq]
  exact ⟨hrow, hcol⟩

theorem difference_eq_zero_iff : p.difference q = 0 ↔ p = q := by
  constructor
  · intro h
    unfold difference at h
    split at h
    · grind
    · cases p
      cases q
      grind
  · rintro rfl
    simp [difference]

/-- Between cells a difference is the one of the rows or, within a row, of the columns. -/
theorem toInt_difference (hp : p.IsIndex) (hq : q.IsIndex) : (p.difference q).toInt =
    if p.row.toInt ≠ q.row.toInt then p.row.toInt - q.row.toInt
    else p.col.toInt - q.col.toInt := by
  rw [difference, ← toInt_sub_of_nonneg hp.row hq.row, ← toInt_sub_of_nonneg hp.col hq.col]
  simp only [ne_eq, Int64.toInt_inj]
  split <;> rfl

theorem difference_neg_iff (hp : p.IsIndex) (hq : q.IsIndex) :
    p.difference q < 0 ↔ p.place < q.place := by
  rw [Int64.lt_iff_toInt_lt, toInt_difference hp hq, Int64.toInt_zero, place, place,
    Prod.Lex.toLex_lt_toLex]
  split <;> simp only <;> omega

theorem difference_pos_iff (hp : p.IsIndex) (hq : q.IsIndex) :
    0 < p.difference q ↔ q.place < p.place := by
  rw [Int64.lt_iff_toInt_lt, toInt_difference hp hq, Int64.toInt_zero, place, place,
    Prod.Lex.toLex_lt_toLex]
  split <;> simp only <;> omega

theorem before_iff (hp : p.IsIndex) (hq : q.IsIndex) :
    p.before q = true ↔ p.place ≤ q.place := by
  rw [before, decide_eq_true_iff, ← Int64.not_lt, difference_pos_iff hp hq, not_lt]

end Position

namespace PositionSet

open Position

/-- Members in strictly ascending order. -/
def Ascending (items : List Position) : Prop := items.Pairwise fun p q ↦ p.place < q.place

variable {p : Position} {items : List Position}

/-! ### Look-up -/

/-- What is found is there. -/
theorem mem_toList_of_contains {t : PositionSet} (h : t.contains p = true) : p ∈ t.toList := by
  induction t with
  | empty => simp [contains] at h
  | node left root right ihl ihr =>
    rw [contains] at h
    rw [toList, List.mem_append, List.mem_cons]
    split at h
    · exact Or.inl (ihl h)
    · rename_i hneg
      split at h
      · exact Or.inr (Or.inr (ihr h))
      · rename_i hpos
        have hzero : p.difference root = 0 :=
          Int64.le_antisymm (Int64.not_lt.1 hpos) (Int64.not_lt.1 hneg)
        exact Or.inr (Or.inl (difference_eq_zero_iff.1 hzero))

/-- A tree that look-up finds its way in: on either side of a root stands what has a difference of
that sign to it. -/
def IsSearchTree : PositionSet → Prop
  | empty => True
  | node left root right =>
    (∀ q ∈ left.toList, q.difference root < 0) ∧ (∀ q ∈ right.toList, 0 < q.difference root) ∧
      left.IsSearchTree ∧ right.IsSearchTree

/-- **In a search tree exactly what is there is found**, whatever the shape of the tree, and whether
or not a difference on the way has wrapped around. -/
theorem IsSearchTree.contains_iff {t : PositionSet} (h : t.IsSearchTree) :
    t.contains p = true ↔ p ∈ t.toList := by
  refine ⟨mem_toList_of_contains, fun hp ↦ ?_⟩
  induction t with
  | empty => simp [toList] at hp
  | node left root right ihl ihr =>
    obtain ⟨hleft, hright, htreeLeft, htreeRight⟩ := h
    rw [contains]
    rcases List.mem_append.1 hp with hp | hp
    · rw [if_pos (hleft p hp)]
      exact ihl htreeLeft hp
    rcases List.mem_cons.1 hp with rfl | hp
    · rw [difference_eq_zero_iff.2 rfl]
      rfl
    · rw [if_neg (Int64.not_lt.2 (Int64.le_of_lt (hright p hp))), if_pos (hright p hp)]
      exact ihr htreeRight hp

/-- **Trees of positions of cells are search trees if they list them in ascending order**, and only
then. -/
theorem isSearchTree_iff_ascending {t : PositionSet} (hindex : ∀ q ∈ t.toList, q.IsIndex) :
    t.IsSearchTree ↔ Ascending t.toList := by
  induction t with
  | empty => exact iff_of_true trivial List.Pairwise.nil
  | node left root right ihl ihr =>
    rw [toList] at hindex ⊢
    obtain ⟨hleft, hright⟩ := List.forall_mem_append.1 hindex
    obtain ⟨hroot, hright⟩ := List.forall_mem_cons.1 hright
    have hbefore : (∀ q ∈ left.toList, q.difference root < 0) ↔
        ∀ q ∈ left.toList, q.place < root.place :=
      forall₂_congr fun q hq ↦ difference_neg_iff (hleft q hq) hroot
    have hbehind : (∀ q ∈ right.toList, 0 < q.difference root) ↔
        ∀ q ∈ right.toList, root.place < q.place :=
      forall₂_congr fun q hq ↦ difference_pos_iff (hright q hq) hroot
    rw [IsSearchTree, hbefore, hbehind, ihl hleft, ihr hright]
    constructor
    · rintro ⟨hbefore, hbehind, hascendingLeft, hascendingRight⟩
      refine List.pairwise_append.2
        ⟨hascendingLeft, List.pairwise_cons.2 ⟨hbehind, hascendingRight⟩, fun q hq r hr ↦ ?_⟩
      rcases List.mem_cons.1 hr with rfl | hr
      · exact hbefore q hq
      · exact (hbefore q hq).trans (hbehind r hr)
    · intro hascending
      obtain ⟨hascendingLeft, hascending, hcross⟩ := List.pairwise_append.1 hascending
      obtain ⟨hbehind, hascendingRight⟩ := List.pairwise_cons.1 hascending
      exact ⟨fun q hq ↦ hcross q hq root (List.mem_cons_self ..), hbehind, hascendingLeft,
        hascendingRight⟩

/-- Lists in ascending order with the same members are the same. -/
theorem Ascending.eq_of_mem_iff {items' : List Position} (h : Ascending items)
    (h' : Ascending items') (hmem : ∀ p, p ∈ items ↔ p ∈ items') : items = items' := by
  have hnodup : ∀ {items}, Ascending items → items.Nodup := fun h ↦
    h.imp fun hlt heq ↦ hlt.ne (congrArg place heq)
  have hperm := (List.perm_ext_iff_of_nodup (hnodup h) (hnodup h')).2 hmem
  exact hperm.eq_of_pairwise (fun p q _ _ hlt hgt ↦ absurd hgt hlt.asymm) h h'

/-! ### Making a set -/

theorem toList_ofSorted (items : List Position) : (ofSorted items).toList = items := by
  fun_induction ofSorted items with
  | case1 items hdrop =>
    rw [toList]
    have hlength := congrArg List.length hdrop
    rw [List.length_drop, List.length_nil] at hlength
    exact (List.length_eq_zero_iff.1 (by omega)).symm
  | case2 items root behind hdrop ihl ihr =>
    rw [toList, ihl, ihr, ← hdrop, List.take_append_drop]

theorem mem_dropRepeats : p ∈ dropRepeats items ↔ p ∈ items := by
  fun_induction dropRepeats items with
  | case1 q rest ih => exact ih.trans (by simp)
  | case2 q r rest hne ih => rw [List.mem_cons, ih, ← List.mem_cons]
  | case3 => rfl

/-- Of sorted items, those that are left ascend strictly. -/
theorem ascending_dropRepeats (h : items.Pairwise fun p q ↦ p.place ≤ q.place) :
    Ascending (dropRepeats items) := by
  fun_induction dropRepeats items with
  | case1 q rest ih => exact ih h.of_cons
  | case2 q r rest hne ih =>
    obtain ⟨hfirst, hrest⟩ := List.pairwise_cons.1 h
    refine List.pairwise_cons.2 ⟨fun s hs ↦ ?_, ih hrest⟩
    -- the next item differs, and all others are not less than that
    have hlt : q.place < r.place :=
      lt_of_le_of_ne (hfirst r (List.mem_cons_self ..)) fun heq ↦ hne (place_injective heq)
    rcases List.mem_cons.1 (mem_dropRepeats.1 hs) with rfl | hs
    · exact hlt
    · exact hlt.trans_le ((List.pairwise_cons.1 hrest).1 s hs)
  | case3 items hshort =>
    match items, hshort with
    | [], _ => exact List.Pairwise.nil
    | [q], _ => exact List.pairwise_singleton ..
    | q :: r :: rest, hshort => exact absurd rfl (hshort q r rest)

/-- Positions of cells are sorted by their places. -/
theorem sorted_mergeSort (h : ∀ q ∈ items, q.IsIndex) :
    (items.mergeSort before).Pairwise fun p q ↦ p.place ≤ q.place := by
  -- `before` is an order among cells only, so it is their places that are sorted
  have hplaces : (items.mergeSort before).map place =
      (items.map place).mergeSort fun x y ↦ decide (x ≤ y) := by
    refine List.map_mergeSort fun p hp q hq ↦ ?_
    rw [Bool.eq_iff_iff, before_iff (h p hp) (h q hq), decide_eq_true_iff]
  have hsorted : ((items.mergeSort before).map place).Pairwise (· ≤ ·) := by
    rw [hplaces]
    simpa using @List.pairwise_mergeSort _ (fun x y : ℤ ×ₗ ℤ ↦ decide (x ≤ y))
      (fun x y z ↦ by simpa using le_trans) (fun x y ↦ by simpa using le_total x y) _
  exact List.pairwise_map.1 hsorted

/-- A list that is sorted already stays as it is, but for repeated items. -/
theorem ofList_of_pairwise (h : items.Pairwise fun p q ↦ p.before q = true) :
    ofList items = ofSorted (dropRepeats items) := by
  rw [ofList, List.mergeSort_of_pairwise h]

theorem mem_toList_ofList : p ∈ (ofList items).toList ↔ p ∈ items := by
  rw [ofList, toList_ofSorted, mem_dropRepeats, List.mem_mergeSort]

/-- **A set of positions of cells lists its members in ascending order.** -/
theorem ascending_toList_ofList (h : ∀ q ∈ items, q.IsIndex) :
    Ascending (ofList items).toList := by
  rw [ofList, toList_ofSorted]
  exact ascending_dropRepeats (sorted_mergeSort h)

theorem isSearchTree_ofList (h : ∀ q ∈ items, q.IsIndex) : (ofList items).IsSearchTree :=
  (isSearchTree_iff_ascending fun q hq ↦ h q (mem_toList_ofList.1 hq)).2 (ascending_toList_ofList h)

/-- **A set of positions of cells holds these and no others.** -/
theorem contains_ofList (h : ∀ q ∈ items, q.IsIndex) :
    (ofList items).contains p = true ↔ p ∈ items :=
  (isSearchTree_ofList h).contains_iff.trans mem_toList_ofList

end PositionSet

end RobotGolf
