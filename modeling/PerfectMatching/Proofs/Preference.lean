import PerfectMatching.Proofs.CompleteGraphs
import PerfectMatching.Proofs.Invariant

/-!
# Why a heaviest matching is perfect

A search looks for a matching of the greatest weight, perfect or not. That it finds a perfect one if there is any is due to the shift. If an
edge is forbidden, `n` least shifted weights outweigh `n - 1` greatest ones, so every perfect matching outweighs every other one
(`PrimalDual.IsMatching.lt_of_length`). If none is, it is enough that shifted weights are positive: a matching that leaves out a row
leaves out a column as well, and the edge between them makes it heavier (`PrimalDual.IsMatching.exists_heavier`). Main statement:
`PrimalDual.solve_prefersPerfect`.
-/

namespace PerfectMatching.PrimalDual

open LawfulScalar

variable {n : ℕ} {work : Table Exact n} {edges others : List (Fin n × Fin n)} {weights otherWeights : List Exact} {least greatest : ℚ}

/-- A matching that no other one outweighs, perfect or not. -/
structure IsHeaviest (work : Table Exact n) (edges : List (Fin n × Fin n)) (weights : List Exact) : Prop where
  isMatching : IsMatching work edges weights
  heaviest : ∀ others otherWeights, IsMatching work others otherWeights →
    Scalar.le (Scalar.sum otherWeights) (Scalar.sum weights) = true

/-! ## Sizes of matchings -/

/-- A list of fewer rows or columns than there are misses one. -/
theorem exists_notMem_of_length_lt {l : List (Fin n)} (h : l.length < n) : ∃ i, i ∉ l := by
  by_contra! hall
  have hle := ((List.nodup_finRange n).subperm fun i _ => hall i).length_le
  rw [List.length_finRange] at hle
  omega

/-- A matching has at most as many edges as there are rows. -/
theorem IsMatching.length_le (h : IsMatching work edges weights) : edges.length ≤ n := by
  have hle := h.rows_nodup.length_le_card
  rwa [List.length_map, Fintype.card_fin] at hle

/-- A permutation along edges is a matching. -/
theorem isMatching_perm {e : Equiv.Perm (Fin n)} {weight : Fin n → Exact} (he : ∀ i, (work.get i).get (e i) = some (weight i)) :
    IsMatching work ((List.finRange n).map fun i => (i, e i)) ((List.finRange n).map weight) := by
  refine ⟨?_, ?_, ?_⟩
  · simp [he]
  · simpa [Function.comp_def] using List.nodup_finRange n
  · rw [List.map_map]
    exact (List.nodup_finRange n).map e.injective

/-! ## Weights of matchings -/

section Between

variable (hwork : Between work least greatest)

include hwork

/-- The weights of the edges of a matching lie between the least and the greatest one. -/
theorem IsMatching.exists_between (h : IsMatching work edges weights) :
    ∃ weight : Fin n × Fin n → ℚ, weights = (edges.map weight).map Exact.finite ∧
      ∀ e ∈ edges, least ≤ weight e ∧ weight e ≤ greatest := by
  obtain ⟨weight, heq, hedge⟩ := h.exists_weights fun i j x hx => (hwork i j x hx (Exact.le_refl x)).1
  exact ⟨weight, heq, fun e he => (hwork e.1 e.2 _ (hedge e he) (Exact.le_refl _)).2⟩

/-- The weight of a matching lies between as many least and as many greatest weights as it has edges. -/
theorem IsMatching.sum_bounds (h : IsMatching work edges weights) :
    ∃ q : ℚ, Scalar.sum weights = .finite q ∧ edges.length * least ≤ q ∧ q ≤ edges.length * greatest := by
  obtain ⟨weight, rfl, hbounds⟩ := h.exists_between hwork
  refine ⟨_, Exact.sum_finite _, ?_, ?_⟩
  · simpa using List.card_nsmul_le_sum (edges.map weight) least (List.forall_mem_map.2 fun e he => (hbounds e he).1)
  · simpa using List.sum_le_card_nsmul (edges.map weight) greatest (List.forall_mem_map.2 fun e he => (hbounds e he).2)

/-- If `n` least weights outweigh `n - 1` greatest ones, every perfect matching outweighs every other matching. -/
theorem IsMatching.lt_of_length (hgreatest : 0 ≤ greatest) (hmargin : (n - 1) * greatest < n * least)
    (h : IsMatching work edges weights) (hlength : edges.length = n) (hother : IsMatching work others otherWeights)
    (hne : others.length ≠ n) : Scalar.lt (Scalar.sum otherWeights) (Scalar.sum weights) = true := by
  obtain ⟨p, hp, hle, _⟩ := h.sum_bounds hwork
  obtain ⟨q, hq, _, hge⟩ := hother.sum_bounds hwork
  rw [hlength] at hle
  have hfewer : (others.length : ℚ) ≤ n - 1 := by
    have hlt := lt_of_le_of_ne hother.length_le hne
    rw [le_sub_iff_add_le]
    exact_mod_cast hlt
  have hbound : others.length * greatest ≤ (n - 1) * greatest := mul_le_mul_of_nonneg_right hfewer hgreatest
  rw [hp, hq, lt_iff_value rfl rfl]
  change q < p
  linarith

/-- If all edges are allowed and their weights are positive, a matching that is not perfect can be extended to a heavier one. -/
theorem IsMatching.exists_heavier (hleast : 0 < least) (hall : ∀ i j, ∃ x, (work.get i).get j = some x)
    (h : IsMatching work edges weights) (hlt : edges.length < n) :
    ∃ others otherWeights, IsMatching work others otherWeights ∧
      Scalar.lt (Scalar.sum weights) (Scalar.sum otherWeights) = true := by
  obtain ⟨i, hi⟩ := exists_notMem_of_length_lt (l := edges.map Prod.fst) (by rwa [List.length_map])
  obtain ⟨j, hj⟩ := exists_notMem_of_length_lt (l := edges.map Prod.snd) (by rwa [List.length_map])
  obtain ⟨x, hx⟩ := hall i j
  obtain ⟨hfin, hle, _⟩ := hwork i j x hx (Exact.le_refl x)
  refine ⟨(i, j) :: edges, x :: weights, ⟨?_, ?_, ?_⟩, ?_⟩
  · rw [List.map_cons, List.map_cons, h.weights_eq, hx]
  · exact List.nodup_cons.2 ⟨hi, h.rows_nodup⟩
  · exact List.nodup_cons.2 ⟨hj, h.cols_nodup⟩
  · obtain ⟨weight, rfl, _⟩ := h.exists_between hwork
    rw [Exact.eq_finite_of_isFinite hfin, ← List.map_cons, Exact.sum_finite, Exact.sum_finite, List.sum_cons, lt_iff_value rfl rfl]
    change (edges.map weight).sum < value x + (edges.map weight).sum
    linarith

end Between

/-- No matching outweighs a heaviest one. -/
theorem IsHeaviest.not_lt (h : IsHeaviest work edges weights) (hother : IsMatching work others otherWeights) :
    ¬Scalar.lt (Scalar.sum weights) (Scalar.sum otherWeights) = true := by
  intro hlt
  have hle := (lt_iff.1 hlt).2
  rw [h.heaviest others otherWeights hother] at hle
  exact Bool.noConfusion hle

/-- If there is a perfect matching, and every edge is allowed or the weights keep their margin, every heaviest matching is perfect. -/
theorem IsHeaviest.length_eq (h : IsHeaviest work edges weights) (hwork : Between work least greatest) (hleast : 0 < least)
    (hgreatest : 0 ≤ greatest) (hkeeps : (∀ i j, ∃ x, (work.get i).get j = some x) ∨ (n - 1) * greatest < n * least)
    {e : Equiv.Perm (Fin n)} {weight : Fin n → Exact} (he : ∀ i, (work.get i).get (e i) = some (weight i)) :
    edges.length = n := by
  by_contra hne
  rcases hkeeps with hall | hmargin
  · have hlt := lt_of_le_of_ne h.isMatching.length_le hne
    obtain ⟨others, otherWeights, hother, hheavier⟩ := h.isMatching.exists_heavier hwork hleast hall hlt
    exact h.not_lt hother hheavier
  · have hperfect := isMatching_perm he
    exact h.not_lt hperfect (hperfect.lt_of_length hwork hgreatest hmargin (by simp) h.isMatching hne)

/-! ## The shifted weights of a call -/

/-- Exact weights keep their margin if `n` least ones outweigh `n - 1` greatest ones. -/
theorem KeepsMargin.mul_lt_mul (h : KeepsMargin Exact n least greatest) : (n - 1) * greatest < n * least := by
  have houtweighs := h.outweighs
  rwa [leeway_exact, mul_zero, add_zero] at houtweighs

section Shift

variable {goal : Goal} {offset : Exact} {w : Weights Exact}

/-- If an edge is not allowed, some edge is forbidden. -/
theorem anyForbidden_ne_false (h : w.n = n) {i j : Fin n} (hij : ¬w.Allows i j) : w.anyForbidden ≠ false := by
  intro hall
  obtain ⟨x, hx⟩ := Weights.exists_edge hall (i.cast h.symm) (j.cast h.symm)
  exact hij ⟨h ▸ i.isLt, h ▸ j.isLt, Option.isSome_iff_exists.2 ⟨x, hx⟩⟩

/-- An edge has a shifted weight exactly if it is allowed. -/
theorem get_shift_ne_none_iff (h : w.n = n) (i j : Fin n) : ((shift goal offset w h).get i).get j ≠ none ↔ w.Allows i j := by
  subst h
  rw [get_shift]
  simp [Weights.Allows, Option.ne_none_iff_isSome]

/-- If no edge is forbidden, every edge has a shifted weight. -/
theorem exists_get_shift (hall : w.anyForbidden = false) (h : w.n = n) (i j : Fin n) :
    ∃ x, ((shift goal offset w h).get i).get j = some x := by
  obtain ⟨x, hx⟩ := Weights.exists_edge hall (i.cast h.symm) (j.cast h.symm)
  rw [get_shift, hx]
  exact ⟨_, rfl⟩

end Shift

/-- With exact weights of which at least one edge is allowed, a call searches the weights shifted by the margin, and these prefer perfect
matchings: if there is one, every heaviest matching is perfect, and if an edge is forbidden, every perfect matching outweighs every
matching that is not perfect. -/
theorem solve_prefersPerfect (m : PrimalDual Exact n) (goal : Goal) {w : Weights Exact} (h : w.n = n) (hfinite : w.IsFinite)
    (hedge : w.allowed ≠ []) :
    let work := (m.solve goal w).matcher.work
    (∃ least greatest, bounds? goal w = some (least, greatest) ∧ work = shift goal (offsetOf w least greatest) w h) ∧
      (∀ i j : Fin n, (work.get i).get j ≠ none ↔ w.Allows i j) ∧
      (w.HasPerfect → ∀ edges weights, IsHeaviest work edges weights → edges.length = n) ∧
      ((∃ i j : Fin n, ¬w.Allows i j) → ∀ edges weights others otherWeights, IsMatching work edges weights → edges.length = n →
        IsMatching work others otherWeights → others.length ≠ n →
          Scalar.lt (Scalar.sum otherWeights) (Scalar.sum weights) = true) := by
  intro work
  obtain ⟨least, greatest, offset, hbounds, hoffset, hshift, hkeeps⟩ := exists_search hfinite hedge goal
  have hn : 0 < n := h ▸ pos_of_bounds hbounds
  have heq : work = shift goal (offsetOf w (.finite least) (.finite greatest)) w h := by
    change (m.solve goal w).matcher.work = _
    rw [solve_eq_searchTable m h hn hbounds hshift]
    exact (searched_searchTable _ _ _).work_eq
  obtain ⟨hbetween, _, hpos, hle⟩ := between_shift hbounds hshift h
  have hperfect_iff := hasPerfect_iff hfinite hbounds hshift h
  rw [heq]
  rw [hoffset] at hbetween hpos hle hperfect_iff ⊢
  have hwork : Between (shift goal (.finite offset) w h) (least - offset) (greatest - offset) := hbetween
  have hgreatest : 0 ≤ greatest - offset := hpos.le.trans hle
  rw [h] at hkeeps
  refine ⟨⟨_, _, hbounds, by rw [hoffset]⟩, get_shift_ne_none_iff h, fun hperfect edges weights hheaviest => ?_, ?_⟩
  · obtain ⟨e, he⟩ := hperfect_iff.1 hperfect
    choose weight hweight _ using he
    exact hheaviest.length_eq hwork hpos hgreatest (hkeeps.imp (exists_get_shift · h) (·.mul_lt_mul)) hweight
  · rintro ⟨i, j, hforbidden⟩ edges weights others otherWeights hmatching hlength hother hne
    have hmargin := hkeeps.resolve_left (anyForbidden_ne_false h hforbidden)
    exact hmatching.lt_of_length hwork hgreatest hmargin.mul_lt_mul hlength hother hne

/-- With the weights `10`, `1` and `1` the only perfect matching is the heaviest one, although its edges are the lightest: the shifted weights
are `19`, `10` and `10`. -/
theorem solve_prefersPerfect_two :
    let w : Weights Exact := ⟨2, #v[some (.finite 10), some (.finite 1), some (.finite 1), none]⟩
    let work := ((new 2 : PrimalDual Exact 2).solve .max w).matcher.work
    w.IsFinite ∧ w.allowed ≠ [] ∧ w.HasPerfect ∧ ¬w.Allows (1 : Fin 2) (1 : Fin 2) ∧
      IsHeaviest work [(0, 1), (1, 0)] [.finite 10, .finite 10] ∧
      (∀ edges weights, IsHeaviest work edges weights → edges.length = 2) ∧
      IsMatching work [(0, 0)] [.finite 19] ∧ Scalar.lt (Scalar.sum [.finite 19]) (Scalar.sum [Exact.finite 10, .finite 10]) = true := by
  intro w work
  have hfinite : w.IsFinite := by
    unfold Weights.IsFinite
    decide
  have hedge : w.allowed ≠ [] := by decide
  have hperfect : w.HasPerfect := by
    refine ⟨[1, 0], by decide, ?_⟩
    unfold Weights.Allows
    decide +kernel
  have hforbidden : ¬w.Allows (1 : Fin 2) (1 : Fin 2) := by
    unfold Weights.Allows
    decide +kernel
  obtain ⟨_, _, hheaviest, houtweighs⟩ := solve_prefersPerfect (new 2) .max rfl hfinite hedge
  have hmatching : IsMatching work [(0, 1), (1, 0)] [.finite 10, .finite 10] := ⟨by decide +kernel, by decide, by decide⟩
  have hother : IsMatching work [(0, 0)] [.finite 19] := ⟨by decide +kernel, by decide, by decide⟩
  -- The dual variables at the end of the search add up to the weight of the perfect matching, and no matching outweighs them.
  have hbounds : bounds? .max w = some (.finite 1, .finite 10) := by decide +kernel
  have hshift : isShiftable (.finite 1) (.finite 10) (offsetOf w (.finite 1) (.finite 10)) = true := by decide +kernel
  obtain ⟨hbetween, _, hpos, hle⟩ := between_shift hbounds hshift rfl
  have hgreatest := hpos.le.trans hle
  have hinvariant := (stablePoint_complete hbetween hgreatest two_pos).invariant hbetween hpos.le hgreatest two_pos
  have hwork : work = shift .max (offsetOf w (.finite 1) (.finite 10)) w rfl := by decide +kernel
  rw [← hwork] at hinvariant
  have hsum : (complete work).state.dualSum = Scalar.sum [.finite 10, .finite 10] := by decide +kernel
  exact ⟨hfinite, hedge, hperfect, hforbidden, ⟨hmatching, hsum ▸ hinvariant.sum_le⟩, hheaviest hperfect, hother,
    houtweighs ⟨1, 1, hforbidden⟩ _ _ _ _ hmatching rfl hother (by decide)⟩

end PerfectMatching.PrimalDual
