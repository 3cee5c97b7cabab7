import PerfectMatching.PrimalDual.Search
import PerfectMatching.Proofs.Entries

/-!
# What a scan changes

Scanning a row offers each column the slack of its edge, one column after the other. As the columns do not interfere, the
outcome can be said column by column: a column either takes what it is offered (`Lowers`) and is labelled with the row, or
stays as it was. Main statement: `rowScanned_scan`.
-/

namespace PerfectMatching.PrimalDual.State

variable {α : Type} [Scalar α] {n : ℕ} {work : Table α n} {s t : State α n} {i j : Fin n}

/-- Scanning row `i` lowers the slack of column `j` to `x`: there is an allowed edge that is not matched, its slack is `x`, and
the column is not tight yet and has a greater slack. -/
structure Lowers (work : Table α n) (s : State α n) (i j : Fin n) (x : α) : Prop where
  not_mate : s.rowMate.get i ≠ some j
  edge : ∃ w, (work.get i).get j = some w ∧ x = s.rowDual.get i + s.colDual.get j - w
  positive : Scalar.positive (s.slack.get j) = true
  lt : Scalar.lt x (s.slack.get j) = true

/-- The state `t` is `s` after the edges from row `i` to some columns have been scanned. -/
structure Scanned (work : Table α n) (i : Fin n) (columns : List (Fin n)) (s t : State α n) : Prop where
  rowMate_eq : t.rowMate = s.rowMate
  colMate_eq : t.colMate = s.colMate
  rowLabel_eq : t.rowLabel = s.rowLabel
  rowDual_eq : t.rowDual = s.rowDual
  colDual_eq : t.colDual = s.colDual
  rowStack_eq : t.rowStack = s.rowStack
  lowered : ∀ j x, j ∈ columns → Lowers work s i j x → t.slack.get j = x ∧ t.colLabel.get j = some i
  kept : ∀ j, (j ∈ columns → ∀ x, ¬Lowers work s i j x) →
    t.slack.get j = s.slack.get j ∧ t.colLabel.get j = s.colLabel.get j
  mem_colStack : ∀ j, j ∈ t.colStack ↔ j ∈ s.colStack ∨ j ∈ columns ∧ ∃ x, Lowers work s i j x ∧ Scalar.positive x = false

/-- Scanning no edges changes nothing. -/
theorem Scanned.nil (work : Table α n) (i : Fin n) (s : State α n) : Scanned work i [] s s where
  rowMate_eq := rfl
  colMate_eq := rfl
  rowLabel_eq := rfl
  rowDual_eq := rfl
  colDual_eq := rfl
  rowStack_eq := rfl
  lowered _ _ h := absurd h List.not_mem_nil
  kept _ _ := ⟨rfl, rfl⟩
  mem_colStack j := by simp

/-- A scan lowers the slack of a column to one value only. -/
theorem Lowers.unique {x y : α} (hx : Lowers work s i j x) (hy : Lowers work s i j y) : x = y := by
  obtain ⟨w, hw, rfl⟩ := hx.edge
  obtain ⟨w', hw', rfl⟩ := hy.edge
  rw [hw] at hw'
  rw [Option.some.inj hw']

/-- An edge whose slack the column does not take changes nothing. -/
theorem scanEdge_of_not_lowers (h : ∀ x, ¬Lowers work s i j x) : scanEdge work i s j = s := by
  unfold scanEdge
  split
  · rfl
  · rename_i hmate
    cases hw : (work.get i).get j with
    | none => rfl
    | some w =>
      simp only [offer]
      refine if_neg fun htake => ?_
      rw [Bool.and_eq_true] at htake
      exact h _ ⟨hmate, ⟨w, hw, rfl⟩, htake.1, htake.2⟩

/-- An edge whose slack the column takes. -/
theorem scanEdge_of_lowers {x : α} (h : Lowers work s i j x) :
    scanEdge work i s j =
      { s with
        colLabel := s.colLabel.set j (some i) j.isLt
        slack := s.slack.set j x j.isLt
        colStack := if Scalar.positive x then s.colStack else j :: s.colStack } := by
  obtain ⟨hmate, ⟨w, hw, rfl⟩, hpos, hlt⟩ := h
  unfold scanEdge
  rw [if_neg hmate, hw]
  simp only [offer]
  rw [if_pos (Bool.and_eq_true_iff.2 ⟨hpos, hlt⟩)]

/-- Scanning an edge offers nothing to another column. -/
theorem lowers_scanEdge_iff {k : Fin n} (hk : k ≠ j) (x : α) :
    Lowers work (scanEdge work i s j) i k x ↔ Lowers work s i k x := by
  by_cases h : ∃ y, Lowers work s i j y
  · obtain ⟨y, hy⟩ := h
    rw [scanEdge_of_lowers hy]
    have hslack := get_set_of_ne s.slack y hk
    constructor
    · rintro ⟨h1, h2, h3, h4⟩
      exact ⟨h1, h2, hslack ▸ h3, hslack ▸ h4⟩
    · rintro ⟨h1, h2, h3, h4⟩
      exact ⟨h1, h2, hslack.symm ▸ h3, hslack.symm ▸ h4⟩
  · rw [scanEdge_of_not_lowers (not_exists.1 h)]

/-- Scanning one edge. -/
theorem scanned_scanEdge (work : Table α n) (i : Fin n) (s : State α n) (j : Fin n) :
    Scanned work i [j] s (scanEdge work i s j) := by
  by_cases h : ∃ y, Lowers work s i j y
  · obtain ⟨y, hy⟩ := h
    have hunique : ∀ x, Lowers work s i j x → x = y := fun x hx => hx.unique hy
    rw [scanEdge_of_lowers hy]
    refine ⟨rfl, rfl, rfl, rfl, rfl, rfl, ?_, ?_, ?_⟩
    · intro k x hk hx
      obtain rfl := List.mem_singleton.1 hk
      rw [hunique x hx]
      exact ⟨get_set_self _ _ _, get_set_self _ _ _⟩
    · intro k hk
      have hne : k ≠ j := by
        rintro rfl
        exact hk (List.mem_singleton_self k) y hy
      exact ⟨get_set_of_ne _ _ hne, get_set_of_ne _ _ hne⟩
    · intro k
      cases hpos : Scalar.positive y with
      | true =>
        rw [List.mem_singleton, if_pos rfl]
        refine ⟨Or.inl, fun h => h.resolve_right ?_⟩
        rintro ⟨rfl, x, hx, hx'⟩
        rw [hunique x hx, hpos] at hx'
        exact Bool.noConfusion hx'
      | false =>
        rw [List.mem_singleton, if_neg Bool.false_ne_true, List.mem_cons]
        constructor
        · rintro (rfl | h)
          · exact Or.inr ⟨rfl, y, hy, hpos⟩
          · exact Or.inl h
        · rintro (h | ⟨rfl, _⟩)
          · exact Or.inr h
          · exact Or.inl rfl
  · have hnone := not_exists.1 h
    rw [scanEdge_of_not_lowers hnone]
    refine ⟨rfl, rfl, rfl, rfl, rfl, rfl, ?_, fun _ _ => ⟨rfl, rfl⟩, ?_⟩
    · intro k x hk hx
      obtain rfl := List.mem_singleton.1 hk
      exact absurd hx (hnone x)
    · intro k
      refine ⟨Or.inl, fun h => h.resolve_right ?_⟩
      rintro ⟨hk, x, hx, _⟩
      obtain rfl := List.mem_singleton.1 hk
      exact hnone x hx

/-- Scanning an edge and then others. -/
theorem Scanned.cons {columns : List (Fin n)} (hj : j ∉ columns) (h : Scanned work i columns (scanEdge work i s j) t) :
    Scanned work i (j :: columns) s t := by
  have hfirst := scanned_scanEdge work i s j
  have hrest : ∀ k x, k ∈ columns → (Lowers work (scanEdge work i s j) i k x ↔ Lowers work s i k x) :=
    fun k x hk => lowers_scanEdge_iff (ne_of_mem_of_not_mem hk hj) x
  refine ⟨h.rowMate_eq.trans hfirst.rowMate_eq, h.colMate_eq.trans hfirst.colMate_eq,
    h.rowLabel_eq.trans hfirst.rowLabel_eq, h.rowDual_eq.trans hfirst.rowDual_eq,
    h.colDual_eq.trans hfirst.colDual_eq, h.rowStack_eq.trans hfirst.rowStack_eq, ?_, ?_, ?_⟩
  · intro k x hk hx
    rcases List.mem_cons.1 hk with rfl | hk
    · obtain ⟨h1, h2⟩ := h.kept k fun hk => absurd hk hj
      obtain ⟨h3, h4⟩ := hfirst.lowered k x (List.mem_singleton_self k) hx
      exact ⟨h1.trans h3, h2.trans h4⟩
    · exact h.lowered k x hk ((hrest k x hk).2 hx)
  · intro k hk
    obtain ⟨h1, h2⟩ := h.kept k fun hkc x hx => hk (List.mem_cons_of_mem _ hkc) x ((hrest k x hkc).1 hx)
    obtain ⟨h3, h4⟩ := hfirst.kept k fun hkj => hk (List.mem_singleton.1 hkj ▸ List.mem_cons_self)
    exact ⟨h1.trans h3, h2.trans h4⟩
  · intro k
    rw [h.mem_colStack, hfirst.mem_colStack, List.mem_singleton, List.mem_cons]
    constructor
    · rintro ((hk | ⟨rfl, hx⟩) | ⟨hk, x, hx, hpos⟩)
      · exact Or.inl hk
      · exact Or.inr ⟨Or.inl rfl, hx⟩
      · exact Or.inr ⟨Or.inr hk, x, (hrest k x hk).1 hx, hpos⟩
    · rintro (hk | ⟨rfl | hk, x, hx, hpos⟩)
      · exact Or.inl (Or.inl hk)
      · exact Or.inl (Or.inr ⟨rfl, x, hx, hpos⟩)
      · exact Or.inr ⟨hk, x, (hrest k x hk).2 hx, hpos⟩

/-- Scanning several edges, each once. -/
theorem scanned_foldl (work : Table α n) (i : Fin n) {columns : List (Fin n)} (h : columns.Nodup) (s : State α n) :
    Scanned work i columns s (columns.foldl (scanEdge work i) s) := by
  induction columns generalizing s with
  | nil => exact Scanned.nil work i s
  | cons j columns ih =>
    obtain ⟨hj, h⟩ := List.nodup_cons.1 h
    exact (ih h (scanEdge work i s j)).cons hj

/-- The state `t` is `s` after row `i` has been taken off the stack and scanned: each column has taken the slack that it was
offered, or stays as it was. -/
structure RowScanned (work : Table α n) (i : Fin n) (rows : List (Fin n)) (s t : State α n) : Prop where
  rowMate_eq : t.rowMate = s.rowMate
  colMate_eq : t.colMate = s.colMate
  rowLabel_eq : t.rowLabel = s.rowLabel
  rowDual_eq : t.rowDual = s.rowDual
  colDual_eq : t.colDual = s.colDual
  rowStack_eq : t.rowStack = rows
  column : ∀ j, (∃ x, Lowers work s i j x ∧ t.slack.get j = x ∧ t.colLabel.get j = some i) ∨
    (∀ x, ¬Lowers work s i j x) ∧ t.slack.get j = s.slack.get j ∧ t.colLabel.get j = s.colLabel.get j
  mem_colStack : ∀ j, j ∈ t.colStack ↔ j ∈ s.colStack ∨ ∃ x, Lowers work s i j x ∧ Scalar.positive x = false

/-- Scanning a row offers the slack of its edge to every column. -/
theorem rowScanned_scan (work : Table α n) (i : Fin n) (rows : List (Fin n)) (s : State α n) :
    RowScanned work i rows s (scan work i { s with rowStack := rows }) := by
  have h := scanned_foldl work i (List.nodup_finRange n) { s with rowStack := rows }
  have hlowers : ∀ j x, Lowers work { s with rowStack := rows } i j x ↔ Lowers work s i j x := fun j x =>
    ⟨fun h => ⟨h.not_mate, h.edge, h.positive, h.lt⟩, fun h => ⟨h.not_mate, h.edge, h.positive, h.lt⟩⟩
  refine ⟨h.rowMate_eq, h.colMate_eq, h.rowLabel_eq, h.rowDual_eq, h.colDual_eq, h.rowStack_eq, fun j => ?_, fun j => ?_⟩
  · by_cases hx : ∃ x, Lowers work s i j x
    · obtain ⟨x, hx⟩ := hx
      exact Or.inl ⟨x, hx, h.lowered j x (List.mem_finRange j) ((hlowers j x).2 hx)⟩
    · rw [not_exists] at hx
      exact Or.inr ⟨hx, h.kept j fun _ x hx' => hx x ((hlowers j x).1 hx')⟩
  · rw [scan, h.mem_colStack]
    simp only [List.mem_finRange, true_and, hlowers]

end PerfectMatching.PrimalDual.State
