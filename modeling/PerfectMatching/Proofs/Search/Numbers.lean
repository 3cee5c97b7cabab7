import PerfectMatching.Proofs.Scalar.Extrema
import PerfectMatching.Proofs.Search.Trees

/-!
# The numbers of a search

Whatever is rounded, the dual variables of the rows are finite and not negative, and so is the slack of every labelled column
that is not tight (`Proper`). So a dual update is by a positive finite amount that some column attains (`Admissible`), and that
column becomes tight. Main statements: a step of a search keeps the numbers proper (`Step.proper`), a search that is not
given up makes an admissible update (`admissible_leastSlack`), and such an update keeps the numbers proper and makes one more
column tight (`Admissible.proper_update`, `Admissible.tightCount_lt`).
-/

namespace PerfectMatching.PrimalDual

open LawfulScalar

variable {α : Type} [Scalar α] [LawfulScalar α] {n : ℕ} {work : Table α n}

/-- Every weight that is defined is finite and lies between two bounds. -/
def Between (work : Table α n) (least greatest : ℚ) : Prop :=
  ∀ i j w, (work.get i).get j = some w → Scalar.le w w = true →
    Scalar.isFinite w = true ∧ least ≤ value w ∧ value w ≤ greatest

namespace State

variable {s t : State α n} {i j : Fin n} {amount : α}

/-- The dual variables of the rows are finite and not negative, and the slack of a labelled column is finite unless the column is
tight. -/
structure Proper (s : State α n) : Prop where
  rowDual : ∀ i, Scalar.isFinite (s.rowDual.get i) = true ∧ 0 ≤ value (s.rowDual.get i)
  slack : ∀ i j, s.colLabel.get j = some i → Scalar.positive (s.slack.get j) = true →
    Scalar.isFinite (s.slack.get j) = true

/-- The number of tight columns. -/
def tightCount (s : State α n) : ℕ := (Finset.univ.filter fun j => Scalar.positive (s.slack.get j) = false).card

/-! ## The slacks after a scan -/

section Scan

variable {rows : List (Fin n)}

omit [LawfulScalar α] in
/-- A scan loosens no tight column. -/
theorem RowScanned.positive (h : RowScanned work i rows s t) (hj : Scalar.positive (t.slack.get j) = true) :
    Scalar.positive (s.slack.get j) = true := by
  rcases h.column j with ⟨x, hx, _⟩ | ⟨_, hslack, _⟩
  · exact hx.positive
  · rwa [hslack] at hj

/-- After a scan, the slack of a column that is not tight is at most what the row has offered. -/
theorem RowScanned.slack_le_offer (h : RowScanned work i rows s t) (hj : Scalar.positive (t.slack.get j) = true)
    (hmate : s.rowMate.get i ≠ some j) {w : α} (hw : (work.get i).get j = some w)
    (hfin : Scalar.isFinite (s.rowDual.get i + s.colDual.get j - w) = true) :
    Scalar.isFinite (t.slack.get j) = true ∧ value (t.slack.get j) ≤ value (s.rowDual.get i + s.colDual.get j - w) := by
  have hold := h.positive hj
  rcases h.column j with ⟨x, hx, hslack, _⟩ | ⟨hnone, hslack, _⟩
  · obtain ⟨w', hw', rfl⟩ := hx.edge
    obtain rfl := Option.some.inj (hw'.symm.trans hw)
    rw [hslack]
    exact ⟨hfin, le_rfl⟩
  · have hle : Scalar.le (s.slack.get j) (s.rowDual.get i + s.colDual.get j - w) = true :=
      le_of_not_lt (le_self_of_isFinite hfin) (le_self_of_positive hold) fun hlt => hnone _ ⟨hmate, ⟨w, hw, rfl⟩, hold, hlt⟩
    have hslackfin := isFinite_of_between isFinite_zero (le_of_lt hold) hle hfin
    rw [hslack]
    exact ⟨hslackfin, (le_iff hslackfin hfin).1 hle⟩

/-- A scan raises no slack. -/
theorem RowScanned.slack_le (h : RowScanned work i rows s t) (hj : Scalar.positive (t.slack.get j) = true)
    (hfin : Scalar.isFinite (s.slack.get j) = true) :
    Scalar.isFinite (t.slack.get j) = true ∧ value (t.slack.get j) ≤ value (s.slack.get j) := by
  rcases h.column j with ⟨x, hx, hslack, _⟩ | ⟨_, hslack, _⟩
  · rw [hslack] at hj ⊢
    have hxfin := isFinite_of_positive_of_lt hj hx.lt
    exact ⟨hxfin, ((lt_iff_value hxfin hfin).1 hx.lt).le⟩
  · rw [hslack]
    exact ⟨hfin, le_rfl⟩

end Scan

/-! ## Steps of a search -/

/-- What a step of a search leaves as it is. -/
structure Framed (s t : State α n) : Prop where
  rowMate_eq : t.rowMate = s.rowMate
  colMate_eq : t.colMate = s.colMate
  rowDual_eq : t.rowDual = s.rowDual
  colDual_eq : t.colDual = s.colDual
  reached : ∀ i, s.Reached i → t.Reached i
  tight : ∀ j, Scalar.positive (s.slack.get j) = false → t.slack.get j = s.slack.get j

omit [LawfulScalar α] in
/-- A step of a search changes no mate, no dual variable and no tight column. -/
theorem Step.framed (h : Step work s t) : Framed s t := by
  cases h with
  | @scan i rows hrows =>
    have hscan := rowScanned_scan work i rows s
    refine ⟨hscan.rowMate_eq, hscan.colMate_eq, hscan.rowDual_eq, hscan.colDual_eq, fun a ha => ?_, fun b hb => ?_⟩
    · rwa [Reached, hscan.rowLabel_eq]
    · rcases hscan.column b with ⟨x, hx, _⟩ | ⟨_, h, _⟩
      · rw [hx.positive] at hb
        cases hb
      · exact h
  | @visit i j cols hrows hcols hmate =>
    have hvisit := visited_reach s i j cols
    exact ⟨hvisit.rowMate_eq, hvisit.colMate_eq, hvisit.rowDual_eq, hvisit.colDual_eq, fun a ha => hvisit.reached_of ha,
      fun b _ => by rw [hvisit.slack_eq]⟩

/-- A step of a search keeps the numbers proper. -/
theorem Step.proper (hstep : Step work s t) (h : Proper s) : Proper t := by
  refine ⟨fun a => by rw [hstep.framed.rowDual_eq]; exact h.rowDual a, ?_⟩
  cases hstep with
  | @scan i rows hrows =>
    have hscan := rowScanned_scan work i rows s
    intro a b hab hpos
    rcases hscan.column b with ⟨x, hx, hslack, _⟩ | ⟨_, hslack, hlabel⟩
    · rw [hslack] at hpos ⊢
      exact isFinite_of_positive_of_lt hpos hx.lt
    · rw [hslack] at hpos ⊢
      exact h.slack a b (hlabel.symm.trans hab) hpos
  | @visit i j cols hrows hcols hmate =>
    have hvisit := visited_reach s i j cols
    intro a b hab hpos
    rw [hvisit.colLabel_eq] at hab
    rw [hvisit.slack_eq] at hpos ⊢
    exact h.slack a b hab hpos

omit [LawfulScalar α] in
/-- A step of a search loses no tight column. -/
theorem Framed.tightCount_le (h : Framed s t) : s.tightCount ≤ t.tightCount := by
  refine Finset.card_le_card fun b hb => ?_
  rw [Finset.mem_filter] at hb ⊢
  exact ⟨hb.1, by rw [h.tight b hb.2]; exact hb.2⟩

/-! ## Dual updates -/

/-- An amount that a dual update may be made by: positive, at most the dual variables of the rows reached and the slacks that are
not tight, and one of these. -/
structure Admissible (s : State α n) (amount : α) : Prop where
  finite : Scalar.isFinite amount = true
  pos : 0 < value amount
  le_rowDual : ∀ i, s.Reached i → value amount ≤ value (s.rowDual.get i)
  le_slack : ∀ j, Scalar.positive (s.slack.get j) = true → Scalar.isFinite (s.slack.get j) = true →
    value amount ≤ value (s.slack.get j)
  attained : ∃ j, Scalar.positive (s.slack.get j) = true ∧ s.slack.get j = amount

/-- The least dual variable of the rows reached, if there are any. -/
theorem Proper.exists_leastDual (h : Proper s) (hi : s.Reached i) :
    ∃ a, s.Reached a ∧ s.leastDual = s.rowDual.get a ∧
      ∀ b, s.Reached b → value s.leastDual ≤ value (s.rowDual.get b) := by
  have hle : ∀ b, s.Reached b → Scalar.le s.leastDual (s.rowDual.get b) = true := by
    intro b hb
    refine least_le (le_self_of_isFinite (h.rowDual b).1) (List.mem_map.2 ⟨b, ?_, rfl⟩)
    exact List.mem_filter.2 ⟨List.mem_finRange b, isReached_iff.2 hb⟩
  have hmem : ∃ a, s.Reached a ∧ s.leastDual = s.rowDual.get a := by
    rcases least_eq_or_mem (((List.finRange n).filter fun i => (s.rowLabel.get i).isReached).map s.rowDual.get) with hinf | hmem
    · have hlt := lt_iff.1 (lt_infinity (h.rowDual i).1)
      have := hle i hi
      rw [leastDual, hinf, hlt.2] at this
      exact nomatch this
    · obtain ⟨a, ha, heq⟩ := List.mem_map.1 hmem
      exact ⟨a, isReached_iff.1 (List.mem_filter.1 ha).2, heq.symm⟩
  obtain ⟨a, ha, heq⟩ := hmem
  refine ⟨a, ha, heq, fun b hb => ?_⟩
  have := hle b hb
  rw [heq] at this ⊢
  exact (le_iff (h.rowDual a).1 (h.rowDual b).1).1 this

/-- The slacks that are not tight are at least the least one. -/
theorem leastSlack_le (hj : Scalar.positive (s.slack.get j) = true) : Scalar.le s.leastSlack (s.slack.get j) = true := by
  refine least_le (le_self_of_positive hj) (List.mem_filter.2 ⟨?_, hj⟩)
  rw [toList_eq_map_get]
  exact List.mem_map_of_mem (List.mem_finRange j)

/-- Unless the search is given up, the least slack is an admissible amount. -/
theorem Proper.admissible_leastSlack (h : Proper s) (hi : s.Reached i)
    (hlt : Scalar.lt s.leastDual s.leastSlack ≠ true) : Admissible s s.leastSlack := by
  obtain ⟨a, ha, heq, hleast⟩ := h.exists_leastDual hi
  have hdual := (h.rowDual a).1
  have hle : Scalar.le s.leastSlack s.leastDual = true :=
    le_of_not_lt (by rw [heq]; exact le_self_of_isFinite hdual) (le_self_least _) hlt
  have hmem : s.leastSlack ∈ s.slack.toList.filter Scalar.positive := by
    refine (least_eq_or_mem _).resolve_left fun hinf => ?_
    have hinf' := (lt_iff.1 (lt_infinity hdual)).2
    rw [leastSlack, hinf, heq, hinf'] at hle
    exact nomatch hle
  obtain ⟨hmem, hpos⟩ := List.mem_filter.1 hmem
  rw [toList_eq_map_get] at hmem
  obtain ⟨j, _, hj⟩ := List.mem_map.1 hmem
  have hfin : Scalar.isFinite s.leastSlack = true :=
    isFinite_of_between isFinite_zero (le_of_lt hpos) hle (by rw [heq]; exact hdual)
  refine ⟨hfin, (positive_iff hfin).1 hpos, fun b hb => ?_, fun b hb hbfin => ?_, j, by rw [hj]; exact hpos, hj⟩
  · exact ((le_iff hfin (by rw [heq]; exact hdual)).1 hle).trans (hleast b hb)
  · exact (le_iff hfin hbfin).1 (leastSlack_le hb)

omit [LawfulScalar α] in
/-- The dual variable of a row after a dual update. -/
theorem get_rowDual_update (s : State α n) (amount : α) (i : Fin n) :
    (s.update amount).rowDual.get i =
      if (s.rowLabel.get i).isReached then s.rowDual.get i - amount else s.rowDual.get i := get_ofFn _ i

omit [LawfulScalar α] in
/-- The dual variable of a column after a dual update. -/
theorem get_colDual_update (s : State α n) (amount : α) (j : Fin n) :
    (s.update amount).colDual.get j =
      if Scalar.positive (s.slack.get j) then s.colDual.get j else s.colDual.get j + amount := get_ofFn _ j

omit [LawfulScalar α] in
/-- The slack of a column after a dual update. -/
theorem get_slack_update (s : State α n) (amount : α) (j : Fin n) :
    (s.update amount).slack.get j =
      if Scalar.positive (s.slack.get j) && (s.colLabel.get j).isSome then s.slack.get j - amount else s.slack.get j :=
  get_ofFn _ j

/-- A dual variable that is lowered by an admissible amount. -/
theorem Admissible.rowDual_sub (h : Admissible s amount) (hs : Proper s) (hi : s.Reached i) :
    Scalar.isFinite (s.rowDual.get i - amount) = true ∧
      value (s.rowDual.get i - amount) = rounded α (value (s.rowDual.get i) - value amount) := by
  have hfin := isFinite_sub_of_le (hs.rowDual i).1 h.finite h.pos.le (h.le_rowDual i hi)
  exact ⟨hfin, value_sub hfin⟩

/-- A slack that is lowered by an admissible amount. -/
theorem Admissible.slack_sub (h : Admissible s amount) (hpos : Scalar.positive (s.slack.get j) = true)
    (hfin : Scalar.isFinite (s.slack.get j) = true) :
    Scalar.isFinite (s.slack.get j - amount) = true ∧
      value (s.slack.get j - amount) = rounded α (value (s.slack.get j) - value amount) := by
  have hsub := isFinite_sub_of_le hfin h.finite h.pos.le (h.le_slack j hpos hfin)
  exact ⟨hsub, value_sub hsub⟩

/-- An admissible update keeps the numbers proper. -/
theorem Admissible.proper_update (h : Admissible s amount) (hs : Proper s) : Proper (s.update amount) := by
  refine ⟨fun a => ?_, fun a b hab hpos => ?_⟩
  · rw [get_rowDual_update]
    split
    · rename_i hreached
      have hreached := isReached_iff.1 hreached
      obtain ⟨hfin, hval⟩ := h.rowDual_sub hs hreached
      exact ⟨hfin, by rw [hval]; exact rounded_nonneg (sub_nonneg.2 (h.le_rowDual a hreached))⟩
    · exact hs.rowDual a
  · rw [get_slack_update] at hpos ⊢
    split
    · rename_i htake
      rw [Bool.and_eq_true] at htake
      exact (h.slack_sub htake.1 (hs.slack a b hab htake.1)).1
    · rename_i hkeep
      rw [if_neg hkeep] at hpos
      exact hs.slack a b hab hpos

omit [LawfulScalar α] in
/-- A dual update changes no tight column. -/
theorem get_slack_update_of_tight (amount : α) (hj : Scalar.positive (s.slack.get j) = false) :
    (s.update amount).slack.get j = s.slack.get j := by
  rw [get_slack_update, hj, Bool.false_and, if_neg Bool.false_ne_true]

/-- An admissible update makes one more column tight. -/
theorem Admissible.tightCount_lt (h : Admissible s amount) (hs : Grown work s) :
    s.tightCount < (s.update amount).tightCount := by
  obtain ⟨j, hpos, hj⟩ := h.attained
  have hlabel : (s.colLabel.get j).isSome = true := by
    by_contra hnone
    rw [Bool.not_eq_true, Option.isSome_eq_false_iff, Option.isNone_iff_eq_none] at hnone
    have hfin := h.finite
    rw [← hj, hs.unlabelled j hnone, isFinite_infinity] at hfin
    exact nomatch hfin
  have hnew : Scalar.positive ((s.update amount).slack.get j) = false := by
    rw [get_slack_update, hpos, hlabel, Bool.and_self, if_pos rfl, hj, ← Bool.not_eq_true, positive_sub h.finite h.finite]
    exact lt_irrefl _
  refine Finset.card_lt_card (Finset.ssubset_iff_of_subset ?_ |>.2 ⟨j, ?_, ?_⟩)
  · intro b hb
    rw [Finset.mem_filter] at hb ⊢
    exact ⟨hb.1, by rw [get_slack_update_of_tight amount hb.2]; exact hb.2⟩
  · exact Finset.mem_filter.2 ⟨Finset.mem_univ j, hnew⟩
  · intro hmem
    rw [Finset.mem_filter, hpos] at hmem
    exact nomatch hmem.2

/-! ## The beginning -/

/-- The greatest weight of a row is zero or one of its weights, and at least each one that is defined. -/
theorem greatest_spec (row : Vector (Option α) n) :
    (State.greatest row = Scalar.zero ∨ ∃ j, row.get j = some (State.greatest row)) ∧
      Scalar.le Scalar.zero (State.greatest row) = true ∧
      ∀ j w, row.get j = some w → Scalar.le w w = true → Scalar.le w (State.greatest row) = true := by
  have hmem : ∀ w, w ∈ row.toList.filterMap id ↔ ∃ j, row.get j = some w := by
    intro w
    rw [toList_eq_map_get]
    simp
  refine ⟨?_, le_foldl_max (le_self_of_isFinite isFinite_zero) List.mem_cons_self, ?_⟩
  · rcases List.mem_cons.1 (foldl_mem max_eq_or (row.toList.filterMap id) (Scalar.zero : α)) with h | h
    · exact Or.inl h
    · exact Or.inr ((hmem _).1 h)
  · intro j w hw hdef
    exact le_foldl_max hdef (List.mem_cons_of_mem _ ((hmem w).2 ⟨j, hw⟩))

/-- At the beginning, the dual variable of a row is at most the greatest weight and at least each weight of the row. -/
theorem rowDual_start {least greatest : ℚ} (h : Between work least greatest) (hgreatest : 0 ≤ greatest) (i : Fin n) :
    Scalar.isFinite ((start work).rowDual.get i) = true ∧ 0 ≤ value ((start work).rowDual.get i) ∧
      value ((start work).rowDual.get i) ≤ greatest ∧
      ∀ j w, (work.get i).get j = some w → Scalar.le w w = true → value w ≤ value ((start work).rowDual.get i) := by
  have hstart : (start work).rowDual.get i = State.greatest (work.get i) := get_map _ _ i
  obtain ⟨hor, hzero, hle⟩ := greatest_spec (work.get i)
  rw [hstart]
  have hfin : Scalar.isFinite (State.greatest (work.get i)) = true ∧ value (State.greatest (work.get i)) ≤ greatest := by
    rcases hor with hor | ⟨j, hj⟩
    · rw [hor, value_zero]
      exact ⟨isFinite_zero, hgreatest⟩
    · have := h i j _ hj (le_self hzero).2
      exact ⟨this.1, this.2.2⟩
  refine ⟨hfin.1, ?_, hfin.2, fun j w hw hdef => ?_⟩
  · have := (le_iff isFinite_zero hfin.1).1 hzero
    rwa [value_zero] at this
  · exact (le_iff (h i j w hw hdef).1 hfin.1).1 (hle j w hw hdef)

end State

end PerfectMatching.PrimalDual
