import RobotGolf.Proofs.Raster
/-!
# The search for walls

The search visits the wall cells of a grid in row-major order. From each of them it follows the
runs to the right and downwards, unless it has come by the cell in a run of that direction before.
It never looks at the cell in front of the one that it visits. That it follows every run from its
first cell, and only once, is owed to the order of the visits:

* **What has been seen are the runs from the origins that were visited** (`Grid.Sees`), and nothing
  in between. Going back from a wall cell along its run leads to an earlier cell, the origin
  (`Grid.exists_origin`). So a cell that is visited has been seen if and only if it is no origin
  itself (`Grid.Sees.mem_iff`).
* **A visit adds what begins at the cell** (`Grid.Sees.follow`, `Grid.Swept.visit`), so in the end
  there is a wall for each origin of a run with more than one cell (`Grid.walls_eq`).
* **A visit tells whether the cell has a wall cell next to it** (`Grid.Swept.visit_iff`), though it
  looks in two directions only. A cell that was seen before has one in front of it, and a cell that
  was not has none there.

Both directions in which walls run are treated at once: `Orientation.beyond` counts cells in either.
-/

namespace RobotGolf

variable {g : Grid} {o : Orientation} {q : ℕ × ℕ} {i : ℕ}

/-! ### Runs of wall cells -/

/-- There is a wall cell at a place. -/
def Grid.WallAt (g : Grid) (q : ℕ × ℕ) : Prop := item? g q = some .wall

@[simp]
theorem Orientation.beyond_zero (o : Orientation) (q : ℕ × ℕ) : o.beyond q 0 = q := by
  unfold beyond
  split <;> rfl

theorem Orientation.beyond_beyond (o : Orientation) (q : ℕ × ℕ) (i j : ℕ) :
    o.beyond (o.beyond q i) j = o.beyond q (i + j) := by
  unfold beyond
  split <;> simp only [Nat.add_assoc]

theorem Orientation.precedes_beyond (o : Orientation) (q : ℕ × ℕ) (hi : 0 < i) :
    Precedes q (o.beyond q i) := by
  unfold beyond Precedes
  split <;> dsimp only <;> omega

/-- What is taken of a list goes up to the first entry that fails. -/
theorem lt_length_takeWhile_iff {α : Type} {p : α → Bool} {xs : List α} {i : ℕ} :
    i < (xs.takeWhile p).length ↔ ∀ j ≤ i, ∃ x, xs[j]? = some x ∧ p x = true := by
  induction xs generalizing i with
  | nil => exact iff_of_false (by simp) fun h ↦ by simpa using h 0 (by omega)
  | cons x xs ih =>
    by_cases hx : p x = true
    · rw [List.takeWhile_cons_of_pos hx, List.length_cons]
      cases i with
      | zero => simp [hx]
      | succ i =>
        rw [Nat.add_lt_add_iff_right, ih]
        constructor
        · intro h j hj
          cases j with
          | zero => exact ⟨x, rfl, hx⟩
          | succ j => exact h j (by omega)
        · exact fun h j hj ↦ h (j + 1) (by omega)
    · rw [List.takeWhile_cons_of_neg hx]
      refine iff_of_false (by simp) fun h ↦ ?_
      obtain ⟨y, hy, hpy⟩ := h 0 (by omega)
      obtain rfl : x = y := by simpa using hy
      exact hx hpy

namespace Grid

/-- **A run goes up to the first cell that is no wall.** -/
theorem lt_run_iff : i < g.run o q ↔ ∀ j ≤ i, g.WallAt (o.beyond q j) := by
  unfold run Orientation.beyond
  split
  · rw [runRight, lt_length_takeWhile_iff]
    refine forall₂_congr fun j _ ↦ ?_
    rw [WallAt, item?]
    rcases g[q.1]? with - | row <;> simp
  · rw [runDown, lt_length_takeWhile_iff]
    refine forall₂_congr fun j _ ↦ ?_
    rw [WallAt, item?]
    rcases hrow : g[q.1 + j]? with - | row <;> simp [hrow]

/-- A run with one more wall cell behind it is longer. -/
theorem succ_lt_run (hi : i < g.run o q) (h : g.WallAt (o.beyond q (i + 1))) :
    i + 1 < g.run o q := by
  refine lt_run_iff.2 fun j hj ↦ ?_
  rcases Nat.lt_or_eq_of_le hj with hlt | rfl
  · exact lt_run_iff.1 hi j (by omega)
  · exact h

theorem one_lt_run_iff (hq : g.WallAt q) : 1 < g.run o q ↔ g.WallAt (o.beyond q 1) := by
  constructor
  · exact fun h ↦ lt_run_iff.1 h 1 (Nat.le_refl 1)
  · refine succ_lt_run (lt_run_iff.2 fun j hj ↦ ?_)
    rwa [Nat.le_zero.1 hj, Orientation.beyond_zero]

/-- A run begins at a place: there is a wall cell, and none in front of it. -/
structure IsOrigin (g : Grid) (o : Orientation) (q : ℕ × ℕ) : Prop where
  wallAt : g.WallAt q
  front : ∀ q', o.beyond q' 1 = q → ¬ g.WallAt q'

/-- **Every wall cell lies in a run that has an origin.** -/
theorem exists_origin (o : Orientation) (h : g.WallAt q) :
    ∃ q₀ i, g.IsOrigin o q₀ ∧ i < g.run o q₀ ∧ o.beyond q₀ i = q := by
  induction hn : q.1 + q.2 using Nat.strongRecOn generalizing q with
  | ind n ih =>
    by_cases hfront : ∃ q', o.beyond q' 1 = q ∧ g.WallAt q'
    · -- one cell back the origin is the same
      obtain ⟨q', rfl, hwall⟩ := hfront
      have hlt : q'.1 + q'.2 < n := by
        subst hn
        unfold Orientation.beyond
        split <;> dsimp only <;> omega
      obtain ⟨q₀, i, horigin, hi, rfl⟩ := ih _ hlt hwall rfl
      rw [Orientation.beyond_beyond] at h ⊢
      exact ⟨q₀, i + 1, horigin, succ_lt_run hi h, rfl⟩
    · push Not at hfront
      refine ⟨q, 0, ⟨h, hfront⟩, lt_run_iff.2 fun j hj ↦ ?_, Orientation.beyond_zero o q⟩
      rwa [Nat.le_zero.1 hj, Orientation.beyond_zero]

/-! ### What has been seen -/

/-- Exactly the wall cells that precede a wall cell have been visited. -/
structure IsNext (g : Grid) (visited : List (ℕ × ℕ)) (q : ℕ × ℕ) : Prop where
  wallAt : g.WallAt q
  mem_iff : ∀ q', q' ∈ visited ↔ g.WallAt q' ∧ Precedes q' q

/-- There is a wall cell right in front of a place or right behind it. -/
def Continues (g : Grid) (o : Orientation) (q : ℕ × ℕ) : Prop :=
  ∃ q', (o.beyond q 1 = q' ∨ o.beyond q' 1 = q) ∧ g.WallAt q'

/-- What has been seen in a direction are the runs from the origins that were visited. -/
def Sees (g : Grid) (o : Orientation) (visited seen : List (ℕ × ℕ)) : Prop :=
  ∀ q, q ∈ seen ↔ ∃ q₀ ∈ visited, g.IsOrigin o q₀ ∧ ∃ i < g.run o q₀, o.beyond q₀ i = q

open Classical in
/-- The wall that begins at a place, if there is one. -/
noncomputable def wallsFrom (g : Grid) (o : Orientation) (q : ℕ × ℕ) : List Wall :=
  if g.IsOrigin o q ∧ 1 < g.run o q then [g.wall o q] else []

open Classical in
theorem mem_wallsFrom_iff {w : Wall} :
    w ∈ g.wallsFrom o q ↔ (g.IsOrigin o q ∧ 1 < g.run o q) ∧ w = g.wall o q := by
  rw [wallsFrom, List.mem_ite_nil_right, List.mem_singleton]

variable {visited seen : List (ℕ × ℕ)}

/-- **A cell that is visited has been seen unless it is an origin.** -/
theorem Sees.mem_iff (h : g.Sees o visited seen) (hq : g.IsNext visited q) :
    q ∈ seen ↔ ¬ g.IsOrigin o q := by
  constructor
  · intro hseen horigin
    obtain ⟨q₀, hvisited, -, i, hi, rfl⟩ := (h q).1 hseen
    obtain ⟨-, hprecedes⟩ := (hq.mem_iff q₀).1 hvisited
    cases i with
    | zero =>
      rw [Orientation.beyond_zero] at hprecedes
      exact Precedes.irrefl q₀ hprecedes
    | succ i =>
      -- the cell in front of it belongs to the same run
      have hfront : g.WallAt (o.beyond q₀ i) := lt_run_iff.1 hi i (Nat.le_succ i)
      exact horigin.front _ (Orientation.beyond_beyond o q₀ i 1) hfront
  · intro hnot
    obtain ⟨q₀, i, horigin, hi, rfl⟩ := exists_origin o hq.wallAt
    have hpos : 0 < i := by
      refine Nat.pos_of_ne_zero fun hzero ↦ hnot ?_
      rw [hzero, Orientation.beyond_zero]
      exact horigin
    -- the origin precedes the cell, so it was visited, and the run was followed from there
    have hvisited := (hq.mem_iff q₀).2 ⟨horigin.wallAt, Orientation.precedes_beyond o q₀ hpos⟩
    exact (h _).2 ⟨q₀, hvisited, horigin, i, hi, rfl⟩

theorem Sees.of_not_origin (h : g.Sees o visited seen) (hq : ¬ g.IsOrigin o q) :
    g.Sees o (visited ++ [q]) seen := by
  intro q'
  rw [h q']
  refine exists_congr fun q₀ ↦ ?_
  rw [List.mem_append, List.mem_singleton]
  constructor
  · exact fun ⟨hvisited, hrun⟩ ↦ ⟨Or.inl hvisited, hrun⟩
  · rintro ⟨hvisited | rfl, hrun⟩
    · exact ⟨hvisited, hrun⟩
    · exact absurd hrun.1 hq

theorem Sees.of_origin (h : g.Sees o visited seen) (hq : g.IsOrigin o q) :
    g.Sees o (visited ++ [q]) ((List.range (g.run o q)).map (o.beyond q) ++ seen) := by
  intro q'
  rw [List.mem_append, List.mem_map, h q']
  simp only [List.mem_range, List.mem_append, List.mem_singleton]
  constructor
  · rintro (hnew | ⟨q₀, hvisited, hrun⟩)
    · exact ⟨q, Or.inr rfl, hq, hnew⟩
    · exact ⟨q₀, Or.inl hvisited, hrun⟩
  · rintro ⟨q₀, hvisited | rfl, hrun⟩
    · exact Or.inr ⟨q₀, hvisited, hrun⟩
    · exact Or.inl hrun.2

/-- A run continues from its origin on if it has another cell, and at any other cell in any case. -/
theorem continues_iff (hq : g.WallAt q) : g.Continues o q ↔ ¬ g.IsOrigin o q ∨ 1 < g.run o q := by
  rw [one_lt_run_iff hq]
  constructor
  · rintro ⟨q', rfl | hfront, hq'⟩
    · exact Or.inr hq'
    · exact Or.inl fun horigin ↦ horigin.front q' hfront hq'
  · rintro (hnot | hbehind)
    · by_contra hcontra
      exact hnot ⟨hq, fun q' hfront hq' ↦ hcontra ⟨q', Or.inr hfront, hq'⟩⟩
    · exact ⟨_, Or.inl rfl, hbehind⟩

/-- **Following the run from the next cell** adds what begins there, and tells whether the run
continues. -/
theorem Sees.follow (h : g.Sees o visited seen) (hq : g.IsNext visited q) :
    g.Sees o (visited ++ [q]) (g.follow o q seen).seen ∧
      (g.follow o q seen).walls = g.wallsFrom o q ∧
      ((g.follow o q seen).proper = true ↔ g.Continues o q) := by
  rw [Grid.follow, wallsFrom, continues_iff hq.wallAt]
  obtain horigin | hnot := em (g.IsOrigin o q)
  · have hunseen : ¬ seen.contains q = true := by
      rw [List.contains_iff_mem, h.mem_iff hq]
      exact not_not_intro horigin
    rw [if_neg hunseen]
    refine ⟨h.of_origin horigin, ?_, ?_⟩
    · simp only [horigin, true_and]
    · simp only [horigin, not_true_eq_false, false_or, decide_eq_true_eq]
  · have hseen : seen.contains q = true := by
      rw [List.contains_iff_mem, h.mem_iff hq]
      exact hnot
    rw [if_pos hseen, if_neg fun hrun ↦ hnot hrun.1]
    exact ⟨h.of_not_origin hnot, rfl, iff_of_true rfl (Or.inl hnot)⟩

/-! ### The search -/

/-- Some wall cells have been visited: what was seen and found is what begins at these. -/
structure Swept (g : Grid) (visited : List (ℕ × ℕ)) (s : Search) : Prop where
  across : g.Sees .horizontal visited s.across
  down : g.Sees .vertical visited s.down
  walls : s.walls =
    visited.flatMap fun q ↦ g.wallsFrom .horizontal q ++ g.wallsFrom .vertical q

theorem swept_nil (g : Grid) : g.Swept [] .empty where
  across _ := by simp [Search.empty]
  down _ := by simp [Search.empty]
  walls := rfl

variable {s : Search}

/-- **The step lemma**: the next cell is visited. -/
theorem Swept.visit (h : g.Swept visited s) (hq : g.IsNext visited q) :
    g.Swept (visited ++ [q]) (g.visit s q).2 := by
  obtain ⟨hacross, hright, -⟩ := h.across.follow hq
  obtain ⟨hdown, hbelow, -⟩ := h.down.follow hq
  refine ⟨hacross, hdown, ?_⟩
  show s.walls ++ (g.follow .horizontal q s.across).walls ++ (g.follow .vertical q s.down).walls = _
  rw [hright, hbelow, h.walls, List.flatMap_append, List.flatMap_singleton, List.append_assoc]

/-- **What a visit tells**: the cell has another wall cell next to it, in one of the directions. -/
theorem Swept.visit_iff (h : g.Swept visited s) (hq : g.IsNext visited q) :
    (g.visit s q).1 = true ↔ ∃ o ∈ [Orientation.horizontal, .vertical], g.Continues o q := by
  obtain ⟨-, -, hright⟩ := h.across.follow hq
  obtain ⟨-, -, hbelow⟩ := h.down.follow hq
  show ((g.follow .horizontal q s.across).proper || (g.follow .vertical q s.down).proper) = true ↔ _
  rw [Bool.or_eq_true, hright, hbelow]
  simp

theorem mem_wallCells_iff : q ∈ g.wallCells ↔ g.WallAt q := by
  rw [wallCells, List.mem_map]
  constructor
  · intro hmem
    obtain ⟨⟨q', c⟩, hcell, rfl⟩ := hmem
    obtain ⟨hindexed, hc⟩ := List.mem_filter.1 hcell
    obtain rfl : c = .wall := by simpa using hc
    exact mem_indexedRows.1 hindexed
  · intro hwall
    exact ⟨(q, .wall), List.mem_filter.2 ⟨mem_indexedRows.2 hwall, rfl⟩, rfl⟩

theorem pairwise_wallCells (g : Grid) : g.wallCells.Pairwise Precedes :=
  List.pairwise_map.2 ((pairwise_indexedRows g).filter _)

/-- In row-major order, every cell is the next one when its turn comes. -/
theorem isNext_of_wallCells {rest : List (ℕ × ℕ)} (h : g.wallCells = visited ++ q :: rest) :
    g.IsNext visited q := by
  have hpairwise := g.pairwise_wallCells
  rw [h, List.pairwise_append, List.pairwise_cons] at hpairwise
  obtain ⟨-, ⟨hrest, -⟩, hvisited⟩ := hpairwise
  refine ⟨mem_wallCells_iff.1 (by simp [h]), fun q' ↦ ?_⟩
  rw [← mem_wallCells_iff, h, List.mem_append, List.mem_cons]
  constructor
  · exact fun hq' ↦ ⟨Or.inl hq', hvisited q' hq' q (List.mem_cons_self ..)⟩
  · rintro ⟨hq' | rfl | hq', hprecedes⟩
    · exact hq'
    · exact absurd hprecedes (Precedes.irrefl q')
    · exact absurd hprecedes (hrest q' hq').asymm

/-- **The run lemma**: so the search goes on until all cells are visited. -/
theorem Swept.foldl {rest : List (ℕ × ℕ)} (h : g.Swept visited s)
    (hcells : g.wallCells = visited ++ rest) :
    g.Swept g.wallCells (rest.foldl (fun s q ↦ (g.visit s q).2) s) := by
  induction rest generalizing visited s with
  | nil =>
    rw [hcells, List.append_nil]
    exact h
  | cons q rest ih =>
    refine ih (h.visit (isNext_of_wallCells hcells)) ?_
    rw [hcells, List.append_assoc]
    rfl

/-- **The walls of a grid** begin at the origins of runs with more than one cell, in the order of
these and the one to the right first. -/
theorem walls_eq (g : Grid) : g.walls =
    g.wallCells.flatMap fun q ↦ g.wallsFrom .horizontal q ++ g.wallsFrom .vertical q :=
  (g.swept_nil.foldl rfl).walls

theorem mem_walls_iff {w : Wall} : w ∈ g.walls ↔
    ∃ o ∈ [Orientation.horizontal, .vertical], ∃ q, g.IsOrigin o q ∧ 1 < g.run o q ∧
      w = g.wall o q := by
  simp only [walls_eq, List.mem_flatMap, List.mem_append, mem_wallsFrom_iff, mem_wallCells_iff]
  constructor
  · rintro ⟨q, -, ⟨⟨horigin, hrun⟩, rfl⟩ | ⟨⟨horigin, hrun⟩, rfl⟩⟩
    · exact ⟨_, by simp, q, horigin, hrun, rfl⟩
    · exact ⟨_, by simp, q, horigin, hrun, rfl⟩
  · rintro ⟨o, ho, q, horigin, hrun, rfl⟩
    refine ⟨q, horigin.wallAt, ?_⟩
    obtain rfl | rfl : o = .horizontal ∨ o = .vertical := by simpa using ho
    · exact Or.inl ⟨⟨horigin, hrun⟩, rfl⟩
    · exact Or.inr ⟨⟨horigin, hrun⟩, rfl⟩

end Grid

end RobotGolf
