import Mathlib.Data.List.Basic
import RobotGolf.Level.Load
/-!
# Cells in row-major order

Grids of cells, rows of tiles and the lines of a stored level are all lists of rows, and are all
gone through in the same order: row by row, and each row from left to right. `indexedRows` lists the
entries of such a list together with their places. Its two laws are that it lists every entry at its
place and nothing else (`mem_indexedRows`), and that the places go up (`pairwise_indexedRows`). So
what stands in front of an entry in the list is what precedes it in the picture (`mem_front_iff`).
-/

namespace RobotGolf

variable {α β : Type}

/-- The entry at a place: in a row and a column that count from zero. -/
def item? (rows : List (List α)) (p : ℕ × ℕ) : Option α := rows[p.1]?.bind (·[p.2]?)

/-- The entries with their places, row by row. -/
def indexedRows (rows : List (List α)) : List ((ℕ × ℕ) × α) :=
  rows.zipIdx.flatMap fun row ↦ row.1.zipIdx.map fun x ↦ ((row.2, x.2), x.1)

/-- One place comes before another in row-major order. -/
def Precedes (p q : ℕ × ℕ) : Prop := p.1 < q.1 ∨ p.1 = q.1 ∧ p.2 < q.2

theorem Precedes.irrefl (p : ℕ × ℕ) : ¬ Precedes p p := by
  rintro (h | ⟨-, h⟩) <;> exact Nat.lt_irrefl _ h

theorem Precedes.asymm {p q : ℕ × ℕ} (h : Precedes p q) : ¬ Precedes q p := by
  unfold Precedes at *
  omega

theorem Precedes.trans {p q r : ℕ × ℕ} (hpq : Precedes p q) (hqr : Precedes q r) :
    Precedes p r := by
  unfold Precedes at *
  omega

theorem Precedes.trichotomy (p q : ℕ × ℕ) : Precedes p q ∨ p = q ∨ Precedes q p := by
  unfold Precedes
  rw [Prod.ext_iff]
  omega

theorem Level.indexedTiles_eq_indexedRows (tiles : List (List Tile)) :
    Level.indexedTiles tiles = indexedRows tiles := rfl

theorem item?_map (f : α → β) (rows : List (List α)) (p : ℕ × ℕ) :
    item? (rows.map (·.map f)) p = (item? rows p).map f := by
  simp only [item?, List.getElem?_map]
  rcases rows[p.1]? with - | row <;> simp

theorem indexedRows_map (f : α → β) (rows : List (List α)) :
    indexedRows (rows.map (·.map f)) = (indexedRows rows).map fun x ↦ (x.1, f x.2) := by
  simp [indexedRows, List.zipIdx_map, List.flatMap_map, List.map_flatMap, Function.comp_def]

/-- **Every entry is listed at its place**, and nothing else is. -/
theorem mem_indexedRows {rows : List (List α)} {p : ℕ × ℕ} {x : α} :
    (p, x) ∈ indexedRows rows ↔ item? rows p = some x := by
  obtain ⟨r, c⟩ := p
  simp only [indexedRows, item?, List.mem_flatMap, List.mem_map, Prod.exists, Prod.mk.injEq,
    List.mem_zipIdx_iff_getElem?, Option.bind_eq_some_iff]
  constructor
  · rintro ⟨row, _, hrow, _, _, hx, ⟨rfl, rfl⟩, rfl⟩
    exact ⟨row, hrow, hx⟩
  · rintro ⟨row, hrow, hx⟩
    exact ⟨row, r, hrow, x, c, hx, ⟨rfl, rfl⟩, rfl⟩

/-- The numbers that a list is counted with go up. -/
theorem pairwise_zipIdx (xs : List α) : xs.zipIdx.Pairwise fun x y ↦ x.2 < y.2 := by
  have hnumbers : (xs.zipIdx.map Prod.snd).Pairwise (· < ·) := by
    rw [List.zipIdx_map_snd]
    exact List.pairwise_lt_range'
  exact List.pairwise_map.1 hnumbers

/-- **The places go up.** -/
theorem pairwise_indexedRows (rows : List (List α)) :
    (indexedRows rows).Pairwise fun x y ↦ Precedes x.1 y.1 := by
  have hrow : ∀ row : List α × ℕ, (row.1.zipIdx.map fun x ↦ ((row.2, x.2), x.1)).Pairwise
      fun x y ↦ Precedes x.1 y.1 := by
    intro row
    exact List.pairwise_map.2 ((pairwise_zipIdx row.1).imp fun hlt ↦ Or.inr ⟨rfl, hlt⟩)
  -- Entries of different rows are ordered by their rows, whatever the columns are.
  have hrows : rows.zipIdx.Pairwise fun row row' ↦
      ∀ x ∈ row.1.zipIdx.map (fun x ↦ ((row.2, x.2), x.1)),
        ∀ y ∈ row'.1.zipIdx.map (fun y ↦ ((row'.2, y.2), y.1)), Precedes x.1 y.1 := by
    refine (pairwise_zipIdx rows).imp fun {row row'} hlt x hx y hy ↦ Or.inl ?_
    have hx : x.1.1 = row.2 := by
      obtain ⟨_, _, rfl⟩ := List.mem_map.1 hx
      rfl
    have hy : y.1.1 = row'.2 := by
      obtain ⟨_, _, rfl⟩ := List.mem_map.1 hy
      rfl
    rwa [hx, hy]
  exact List.pairwise_flatMap.2 ⟨fun row _ ↦ hrow row, hrows⟩

/-- What is listed in front of an entry is what precedes it. -/
theorem mem_front_iff {rows : List (List α)} {front back : List ((ℕ × ℕ) × α)} {p q : ℕ × ℕ}
    {x y : α} (h : indexedRows rows = front ++ (p, x) :: back) :
    (q, y) ∈ front ↔ item? rows q = some y ∧ Precedes q p := by
  have hpairwise := pairwise_indexedRows rows
  rw [h, List.pairwise_append, List.pairwise_cons] at hpairwise
  obtain ⟨-, ⟨hback, -⟩, hfront⟩ := hpairwise
  rw [← mem_indexedRows, h, List.mem_append, List.mem_cons]
  constructor
  · intro hq
    exact ⟨Or.inl hq, hfront _ hq _ (List.mem_cons_self ..)⟩
  · rintro ⟨hq | hq | hq, hprecedes⟩
    · exact hq
    · cases hq
      exact absurd hprecedes (Precedes.irrefl p)
    · exact absurd hprecedes (hback _ hq).asymm

end RobotGolf
