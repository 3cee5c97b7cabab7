import PerfectMatching.Proofs.Certificate
import PerfectMatching.Proofs.Invariant

/-!
# What an accepted certificate proves

An accepted certificate proves that no matching outweighs the result by more than the tolerance, for each edge and each node that the
matching leaves out, and once more for each unit of the bound of the dual variables (`sum_le_of_certify`), whatever the table, the
dual variables and the result are and wherever they come from. The tolerance is a billionth of the largest weight involved. For
weights of at most one this is what is meant by a relative tolerance of a billionth; for larger ones the last check takes the scale
into account twice, and a certificate is accepted although its result is far from best (`certify_accepts_light`).
-/

namespace PerfectMatching

open LawfulScalar

namespace PrimalDual

variable {n : ℕ}

/-! ## What is checked -/

/-- What the checks of an accepted certificate have found. -/
structure Certifies {α : Type} [Scalar α] (m : PrimalDual α n) : Prop where
  length_eq : m.result.source.length = n
  areInverse : Assignment.areInverse m.result.source m.result.dest = true
  row : ∀ i, Scalar.lt (m.state.rowDual.get i) (-m.tolerance) = false
  col : ∀ j, Scalar.lt (m.state.colDual.get j) (-m.tolerance) = false
  edge : ∀ i j w, (m.work.get i).get j = some w → Scalar.lt (m.state.rowDual.get i + m.state.colDual.get j) (w - m.tolerance) = false
  objectives : Scalar.lt (m.tolerance * Scalar.max (Scalar.abs (Scalar.sum m.duals)) Scalar.one)
    (Scalar.abs (m.primalObjective - Scalar.sum m.duals)) = false

/-- A check that does not end in an error has been passed. -/
theorem ok_of_check {c : Prop} [Decidable c] {e : Inconsistency} {r : Except Inconsistency Unit}
    (h : (if c then .error e else r) = .ok ()) : ¬c ∧ r = .ok () := by
  by_cases hc : c
  · rw [if_pos hc] at h
    cases h
  · rw [if_neg hc] at h
    exact ⟨hc, h⟩

/-- An accepted certificate has passed every check. -/
theorem certifies_of_certify {α : Type} [Scalar α] {m : PrimalDual α n} (h : m.certify = .ok ()) : m.Certifies := by
  obtain ⟨hpermutation, h⟩ := ok_of_check h
  obtain ⟨hduals, h⟩ := ok_of_check h
  obtain ⟨hfeasible, h⟩ := ok_of_check h
  obtain ⟨hobjectives, _⟩ := ok_of_check h
  obtain ⟨hlength, hinverse⟩ := not_or.1 hpermutation
  simp only [Bool.not_eq_true, List.any_eq_false, duals_eq_map, List.mem_append, List.mem_map, List.mem_finRange, true_and] at hduals
  simp only [isFeasible, List.all_eq_true, Option.all_eq_true, Bool.not_eq_true', Bool.not_eq_false, List.mem_finRange,
    forall_const] at hfeasible
  exact ⟨not_not.1 hlength, Bool.not_eq_false _ ▸ hinverse, fun i => hduals _ (.inl ⟨i, rfl⟩), fun j => hduals _ (.inr ⟨j, rfl⟩),
    hfeasible, Bool.eq_false_iff.2 hobjectives⟩

/-! ## What is proved -/

/-- If the tolerance is finite, so is every weight of the table. -/
theorem isFinite_of_tolerance {m : PrimalDual Exact n} (h : Scalar.isFinite m.tolerance = true) {i j : Fin n} {x : Exact}
    (hx : (m.work.get i).get j = some x) : Scalar.isFinite x = true := by
  have hle : Scalar.le (Scalar.abs x) m.scale = true := by
    have hmem := List.mem_cons_of_mem Scalar.one (List.mem_map_of_mem (f := Scalar.abs) (mem_entries.2 ⟨i, j, hx⟩))
    have hmax := le_foldl_max (Exact.le_refl (Scalar.abs x)) hmem
    rwa [List.foldl_map] at hmax
  exact Exact.isFinite_of_abs (Exact.isFinite_of_le hle (Exact.isFinite_of_mul h).2)

/-- What the checks have found bounds the weight of every matching, if all numbers are finite. -/
theorem Certifies.sum_le {m : PrimalDual Exact n} (h : m.Certifies) {row col : Fin n → ℚ} {tolerance primal : ℚ}
    (hrow : ∀ i, m.state.rowDual.get i = .finite (row i)) (hcol : ∀ j, m.state.colDual.get j = .finite (col j))
    (htolerance : m.tolerance = .finite tolerance) (hprimal : m.primalObjective = .finite primal)
    {edges : List (Fin n × Fin n)} {weights : List Exact} (hmatching : IsMatching m.work edges weights)
    {weight : Fin n × Fin n → ℚ} (hweight : ∀ e ∈ edges, (m.work.get e.1).get e.2 = some (.finite (weight e))) :
    (edges.map weight).sum ≤ primal + tolerance * (2 * n - edges.length + max |∑ i, row i + ∑ j, col j| 1) := by
  have hrow' : ∀ i, -tolerance ≤ row i := fun i => by
    have := h.row i
    rwa [hrow, htolerance, Exact.neg_finite, Exact.lt_finite_eq_false_iff] at this
  have hcol' : ∀ j, -tolerance ≤ col j := fun j => by
    have := h.col j
    rwa [hcol, htolerance, Exact.neg_finite, Exact.lt_finite_eq_false_iff] at this
  have hedge : ∀ e ∈ edges, weight e ≤ row e.1 + col e.2 + tolerance := fun e he => by
    have := h.edge e.1 e.2 _ (hweight e he)
    rwa [hrow, hcol, htolerance, Exact.finite_add_finite, Exact.finite_sub_finite, Exact.lt_finite_eq_false_iff,
      sub_le_iff_le_add] at this
  have hgap : |primal - (∑ i, row i + ∑ j, col j)| ≤ tolerance * max |∑ i, row i + ∑ j, col j| 1 := by
    have hbound : Scalar.sum m.duals = .finite (∑ i, row i + ∑ j, col j) := State.dualSum_eq hrow hcol
    have hobjectives := h.objectives
    rw [hbound, hprimal, htolerance, Exact.finite_sub_finite, Exact.abs_finite, Exact.abs_finite, Exact.max_one,
      Exact.finite_mul_finite, Exact.lt_finite_eq_false_iff] at hobjectives
    exact hobjectives
  have hsum := sum_le_add_mul hrow' hcol' hmatching hedge
  have hdual := (abs_le.1 hgap).1
  linarith

/-- A matcher for two nodes a side, with two heavy weights on one diagonal and two light ones on the other, whose dual variables are
the heavy weights at the rows, and whose result is the light matching. -/
def light : PrimalDual Exact 2 where
  work := #v[#v[some (.finite 1000000000), some (.finite 1)], #v[some (.finite 1), some (.finite 1000000000)]]
  offset := Scalar.zero
  goal := .max
  state := { State.blank with rowDual := Vector.replicate 2 (.finite 1000000000), colDual := Vector.replicate 2 Scalar.zero }
  result := ⟨[1, 0], [1, 0], .finite 2⟩
  effort := ⟨0, 0⟩

/-- If a certificate is accepted, no matching of the table outweighs the result by more than the tolerance for each of its edges, for
each node that it leaves out, and for each unit of the bound of the dual variables. A perfect matching leaves out no node, so that
the tolerance counts once for each row. -/
theorem sum_le_of_certify {m : PrimalDual Exact n} (h : m.certify = .ok ()) {edges : List (Fin n × Fin n)} {weights : List Exact}
    (hmatching : IsMatching m.work edges weights) :
    Scalar.le (Scalar.sum weights) (m.primalObjective +
      m.tolerance * (Scalar.ofNat (2 * n - edges.length) + Scalar.max (Scalar.abs (Scalar.sum m.duals)) Scalar.one)) = true := by
  -- If the right side is infinite there is nothing to show, and else every number involved is finite.
  cases hright : Scalar.isFinite (m.primalObjective +
      m.tolerance * (Scalar.ofNat (2 * n - edges.length) + Scalar.max (Scalar.abs (Scalar.sum m.duals)) Scalar.one)) with
  | false =>
    generalize m.primalObjective + _ = right at hright
    cases right with
    | finite q => exact Bool.noConfusion hright
    | infinite => exact le_infinity (Exact.le_refl _)
  | true =>
    obtain ⟨hprimal, hproduct⟩ := isFinite_of_add hright
    obtain ⟨htol, hsum⟩ := Exact.isFinite_of_mul hproduct
    have hduals := isFinite_of_sum (Exact.isFinite_of_max_abs (isFinite_of_add hsum).2)
    simp only [duals_eq_map, List.mem_append, List.mem_map, List.mem_finRange, true_and] at hduals
    have hrow : ∀ i, m.state.rowDual.get i = .finite (value (m.state.rowDual.get i)) := fun i =>
      Exact.eq_finite_of_isFinite (hduals _ (.inl ⟨i, rfl⟩))
    have hcol : ∀ j, m.state.colDual.get j = .finite (value (m.state.colDual.get j)) := fun j =>
      Exact.eq_finite_of_isFinite (hduals _ (.inr ⟨j, rfl⟩))
    obtain ⟨weight, rfl, hweight⟩ := hmatching.exists_weights fun i j x => isFinite_of_tolerance htol
    have hbound : Scalar.sum m.duals = _ := State.dualSum_eq hrow hcol
    have hlength : edges.length ≤ 2 * n := by
      have := hmatching.rows_nodup.length_le_card
      rw [List.length_map, Fintype.card_fin] at this
      omega
    have hle := (certifies_of_certify h).sum_le hrow hcol (Exact.eq_finite_of_isFinite htol) (Exact.eq_finite_of_isFinite hprimal)
      hmatching hweight
    rw [hbound, Exact.sum_finite, Exact.abs_finite, Exact.max_one, Exact.ofNat_eq, Exact.finite_add_finite,
      Exact.eq_finite_of_isFinite htol, Exact.eq_finite_of_isFinite hprimal, Exact.finite_mul_finite, Exact.finite_add_finite,
      le_iff rfl rfl, Nat.cast_sub hlength, Nat.cast_mul, Nat.cast_two]
    exact hle

/-- The tolerance is one here, so the bound exceeds the weight of the heavy matching by four. -/
theorem sum_le_of_certify_light :
    light.certify = .ok () ∧ Scalar.le (Scalar.sum [.finite 1000000000, .finite 1000000000]) (light.primalObjective +
      light.tolerance * (Scalar.ofNat 2 + Scalar.max (Scalar.abs (Scalar.sum light.duals)) Scalar.one)) = true := by
  have hcertify : light.certify = .ok () := by decide +kernel
  have hmatching : IsMatching light.work [(0, 0), (1, 1)] [.finite 1000000000, .finite 1000000000] :=
    ⟨by decide +kernel, by decide, by decide⟩
  -- Rewritten first: the sums would be evaluated to compare two spellings of this number inside them.
  have hleft : 2 * 2 - [((0 : Fin 2), (0 : Fin 2)), (1, 1)].length = 2 := rfl
  have hle := sum_le_of_certify hcertify hmatching
  rw [hleft] at hle
  exact ⟨hcertify, hle⟩

/-- The certificate of a light matching is accepted although the heavy one outweighs it by far more than a billionth of the scale for
each row and of the bound of the dual variables. -/
theorem certify_accepts_light :
    light.certify = .ok () ∧ IsMatching light.work [(0, 0), (1, 1)] [.finite 1000000000, .finite 1000000000] ∧
      Scalar.le (Scalar.sum [.finite 1000000000, .finite 1000000000]) (light.primalObjective + (1e-9 : Exact) *
        (Scalar.ofNat 2 * light.scale + Scalar.max Scalar.one (Scalar.abs (Scalar.sum light.duals)))) = false := by
  refine ⟨by decide +kernel, ⟨by decide +kernel, by decide, by decide⟩, by decide +kernel⟩

end PrimalDual

end PerfectMatching
