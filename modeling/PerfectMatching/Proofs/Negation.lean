import PerfectMatching.Proofs.Binary64.Opposite
import PerfectMatching.Proofs.Comparison
import PerfectMatching.Proofs.Completeness

/-!
# Opposite weights

A smallest total is the opposite of a largest total of opposite weights, and this holds of the solvers without any tolerance: on finite
binary64 weights, looking for the least total of a matrix and for the greatest one of the opposite matrix is the same call up to signs
(`Solver.solve_negated`). The search gets the same table, and what is done with the signs outside of it is symmetric; where a sum can
come out as a zero of either sign or as infinity, the totals are still opposite as numbers.
-/

namespace PerfectMatching

open LawfulScalar

variable {n : ℕ} {w : Weights Float}

/-- A failure for opposite weights: the range of the weights is turned around. -/
def Failure.mirrored : Failure Float → Failure Float
  | .unshiftable least greatest => .unshiftable (-greatest) (-least)
  | e => e

/-- Only the range of the weights is turned around. -/
theorem Failure.mirrored_eq {e : Failure Float} (h : ∀ x y, e ≠ .unshiftable x y) : e.mirrored = e := by
  cases e with
  | unshiftable x y => exact absurd rfl (h x y)
  | _ => rfl

/-- One number is the opposite of another as a number. -/
def Opposite (x y : Float) : Prop := (x == -y) = true

/-- The totals for opposite weights are opposite. -/
theorem Weights.Totals.opposite (hfinite : w.IsFinite) {x x' : Float} (h : Weights.Totals (-·) w x x') : (x' == -x) = true := by
  obtain ⟨xs, _, hxs, rfl, rfl⟩ := h
  exact Binary64.beq_neg_sum (Binary64.isNaN_sum fun x hx => hfinite x (hxs x hx))

/-- Zero is its own opposite. -/
theorem opposite_zero : Opposite Scalar.zero Scalar.zero := by
  unfold Opposite
  decide +kernel

/-- Enumerations for opposite weights agree. -/
theorem Enumeration.agree_solve_negated (hfinite : w.IsFinite) :
    let r := (new n : Enumeration Float n).solve .min w
    let r' := (new n : Enumeration Float n).solve .max w.negated
    Agree Failure.mirrored Opposite r.outcome r.matcher.result r'.outcome r'.matcher.result :=
  agree_solve (fun _ => Failure.mirrored_eq)
    (fun hx hy => (Binary64.le_eq_of_beq (hx.opposite hfinite) (hy.opposite hfinite)).symm)
    (fun _ h => Binary64.beq_neg_of_neg_beq (h.opposite hfinite)) fun _ => opposite_zero

namespace PrimalDual

/-! ## Signs outside of the search -/

/-- The least total of a matrix is sought between the same bounds as the greatest one of the opposite matrix. -/
theorem bounds_negated (w : Weights Float) : bounds? .max w.negated = bounds? .min w := by
  have hlist : w.negated.allowed.map Goal.max.signed = w.allowed.map Goal.min.signed := by
    rw [Weights.negated, Weights.allowed_map, List.map_map]
    rfl
  rw [bounds?, bounds?, hlist]

/-- The opposite matrix is shifted by the same amount. -/
theorem offsetOf_negated (w : Weights Float) (least greatest : Float) :
    offsetOf w.negated least greatest = offsetOf w least greatest := by
  rw [offsetOf, offsetOf, margin, margin, Weights.negated, Weights.anyForbidden_map]
  rfl

/-! ## Totals -/

/-- Each shifted weight of finite weights that pass the range check is finite and not negative. -/
theorem nonneg_of_get_shift {goal : Goal} {least greatest offset : Float} (hfinite : w.IsFinite)
    (hbounds : bounds? goal w = some (least, greatest)) (hshift : isShiftable least greatest offset = true) (h : w.n = n)
    {i j : Fin n} {x : Float} (hx : ((shift goal offset w h).get i).get j = some x) :
    Scalar.isFinite x = true ∧ 0 ≤ value x := by
  obtain ⟨hbetween, _, hpos, _⟩ := between_shift hbounds hshift h
  have hallowed := hx
  rw [get_shift] at hallowed
  obtain ⟨y, hy, _⟩ := Option.map_eq_some_iff.1 hallowed
  obtain ⟨x', hx', hself⟩ := hasEdge_shift hfinite hbounds hshift h hy
  obtain rfl := Option.some.inj (hx.symm.trans hx')
  obtain ⟨hfin, hle, _⟩ := hbetween i j x hx hself
  exact ⟨hfin, hpos.le.trans hle⟩

/-- What the shifted weights of a table are before the shift has a sum: they are all finite, or none of them is negative. -/
theorem isNaN_sum_unshifted {goal : Goal} {least greatest offset : Float} (hfinite : w.IsFinite)
    (hbounds : bounds? goal w = some (least, greatest)) (hshift : isShiftable least greatest offset = true) (h : w.n = n)
    {xs : List Float} (hxs : ∀ x ∈ xs, ∃ i j, ((shift goal offset w h).get i).get j = some x) :
    (Scalar.sum (xs.map (· + offset))).isNaN = false := by
  have hoffset : Scalar.isFinite offset = true := (isFinite_of_isShiftable hbounds hshift).2.2
  have hentry : ∀ x ∈ xs, Scalar.isFinite x = true ∧ 0 ≤ value x := fun x hx => by
    obtain ⟨i, j, hget⟩ := hxs x hx
    exact nonneg_of_get_shift hfinite hbounds hshift h hget
  rcases le_or_gt 0 (value offset) with hpos | hneg
  · refine Binary64.isNaN_sum_of_nonneg fun y hy => ?_
    obtain ⟨x, hx, rfl⟩ := List.mem_map.1 hy
    have hnonneg : ∀ {z : Float}, Scalar.isFinite z = true → 0 ≤ value z → Float.le Scalar.zero z = true := fun hz hz0 =>
      (le_iff isFinite_zero hz).2 (value_zero.trans_le hz0)
    exact Binary64.zero_le_add (hnonneg (hentry x hx).1 (hentry x hx).2) (hnonneg hoffset hpos)
  · refine Binary64.isNaN_sum fun y hy => ?_
    obtain ⟨x, hx, rfl⟩ := List.mem_map.1 hy
    obtain ⟨hfin, hx0⟩ := hentry x hx
    refine (isFinite_add hfin hoffset).2 ?_
    -- A sum of numbers of different signs is at most as large as one of them.
    rcases le_or_gt 0 (value x + value offset) with h | h
    · exact fits_of_abs_le (by rw [abs_of_nonneg h, abs_of_nonneg hx0]; linarith) (fits_value hfin)
    · exact fits_of_abs_le (by rw [abs_of_neg h, abs_of_neg hneg]; linarith) (fits_value hoffset)

/-! ## Calls -/

/-- What a search does for opposite weights: the same, and the bounds of the dual variables are opposite, or neither is a number. -/
structure MirrorSearch (m m' : PrimalDual Float n) : Prop where
  same : SameSearch m m'
  dualObjective : Opposite m.dualObjective m'.dualObjective ∨
    m.dualObjective.isNaN = true ∧ m'.dualObjective.isNaN = true

/-- A matcher that has searched nothing has a bound of zero, or none that is a number. -/
theorem mirrorSearch_new : MirrorSearch (new n) (new n) := by
  have hzero : Binary64.ZeroOrNaN (new n : PrimalDual Float n).dualObjective := by
    refine (Binary64.zeroOrNaN_sum fun x hx => ?_).add (Binary64.zeroOrNaN_mul_zero _)
    obtain ⟨_, rfl⟩ : n ≠ 0 ∧ x = Scalar.zero := by simpa [duals, new, State.blank, List.mem_replicate] using hx
    exact Binary64.zeroOrNaN_zero
  exact ⟨⟨rfl, rfl, rfl⟩, hzero.beq_neg.imp id fun h => ⟨h, h⟩⟩

/-- Searches for opposite weights have opposite bounds. -/
theorem mirrorSearch_searchTable (work : Table Float n) (offset : Float) :
    MirrorSearch (searchTable .min offset work).matcher (searchTable .max offset work).matcher := by
  have hsame := sameSearch_searchTable work .min .max offset offset
  have h := searched_searchTable .min offset work
  have h' := searched_searchTable .max offset work
  refine ⟨hsame, ?_⟩
  have hneg : (searchTable .min offset work).matcher.dualObjective = -(searchTable .max offset work).matcher.dualObjective := by
    rw [dualObjective, dualObjective, hsame.duals_eq, h.goal_eq, h'.goal_eq, h.offset_eq, h'.offset_eq]
    rfl
  rw [hneg]
  cases hnan : (searchTable .max offset work).matcher.dualObjective.isNaN with
  | true => exact Or.inr ⟨(Binary64.isNaN_neg _).trans hnan, rfl⟩
  | false => exact Or.inl (Binary64.beq_self_iff.2 ((Binary64.isNaN_neg _).trans hnan))

/-- Calls for opposite weights agree. -/
theorem agree_solve_negated (hfinite : w.IsFinite) :
    let r := (new n : PrimalDual Float n).solve .min w
    let r' := (new n : PrimalDual Float n).solve .max w.negated
    Agree Failure.mirrored Opposite r.outcome r.matcher.result r'.outcome r'.matcher.result ∧
      MirrorSearch r.matcher r'.matcher := by
  intro r r'
  by_cases h : w.n = n
  · have h' : w.negated.n = n := h
    simp only [r, r', solve, dif_pos h, dif_pos h', bounds_negated, offsetOf_negated]
    by_cases hn : n = 0
    · simp only [if_pos hn]
      exact ⟨.found [] [] opposite_zero, mirrorSearch_new⟩
    · simp only [if_neg hn]
      cases hbounds : bounds? .min w with
      | none => exact ⟨.failed_of_eq rfl, mirrorSearch_new⟩
      | some bounds =>
        obtain ⟨least, greatest⟩ := bounds
        simp only
        cases hshift : isShiftable least greatest (offsetOf w least greatest) with
        | true =>
          have htable : shift .max (offsetOf w least greatest) w.negated h' = shift .min (offsetOf w least greatest) w h :=
            shift_map_eq h h' fun _ _ => rfl
          rw [if_pos rfl, if_pos rfl, htable]
          refine ⟨agree_searchTable (fun _ => Failure.mirrored_eq) fun xs _ hxs => ?_, mirrorSearch_searchTable _ _⟩
          have hsum := Binary64.beq_neg_sum (isNaN_sum_unshifted hfinite hbounds hshift h hxs)
          rw [List.map_map] at hsum
          exact hsum
        | false =>
          rw [if_neg Bool.false_ne_true, if_neg Bool.false_ne_true]
          have hfields : (.unshiftable (Scalar.min (-least) (-greatest)) (Scalar.max (-least) (-greatest)) : Failure Float) =
              Failure.mirrored (.unshiftable (Scalar.min least greatest) (Scalar.max least greatest)) := by
            rw [Binary64.min_neg_neg, Binary64.max_neg_neg]
            rfl
          simp only [Goal.signed, hfields]
          exact ⟨.failed _, mirrorSearch_new⟩
  · have h' : w.negated.n ≠ n := h
    simp only [r, r', solve, dif_neg h, dif_neg h']
    exact ⟨.failed_of_eq rfl, mirrorSearch_new⟩

end PrimalDual

namespace Solver

/-- On finite binary64 weights of any size, new matchers of either method agree on the least total and on the greatest one of the
opposite weights. They return the same columns and rows, and opposite totals; or they fail with the same error, but for the range of
weights that cannot be shifted, which is turned around. A search for the one is also a search for the other: it leaves the same table,
the same dual variables, the same effort and the same certificate, and bounds that are opposite, or neither of which is a number. -/
theorem solve_negated (method : Method) (n : ℕ) (w : Weights Float) (hfinite : w.IsFinite) :
    let r := (new method n : Solver Float n).solve .min w
    let r' := (new method n : Solver Float n).solve .max w.negated
    r.outcome = r'.outcome.mapError Failure.mirrored ∧
      r.matcher.assignment.source = r'.matcher.assignment.source ∧
      r.matcher.assignment.dest = r'.matcher.assignment.dest ∧
      (r.matcher.assignment.weight == -r'.matcher.assignment.weight) = true ∧
      (method = .primalDual → ∃ m m', r.matcher = .primalDual m ∧ r'.matcher = .primalDual m' ∧
        m.work = m'.work ∧ m.duals = m'.duals ∧ m.effort = m'.effort ∧ m.certify = m'.certify ∧
        ((m.dualObjective == -m'.dualObjective) = true ∨ m.dualObjective.isNaN = true ∧ m'.dualObjective.isNaN = true)) := by
  intro r r'
  cases method with
  | primalDual =>
    obtain ⟨hagree, hsearch⟩ := PrimalDual.agree_solve_negated (n := n) hfinite
    exact ⟨hagree.outcome_eq, hagree.source_eq, hagree.dest_eq, hagree.weight opposite_zero, fun _ =>
      ⟨_, _, rfl, rfl, hsearch.same.work_eq, hsearch.same.duals_eq, hsearch.same.effort_eq,
        hsearch.same.certify_eq hagree.source_eq hagree.dest_eq, hsearch.dualObjective⟩⟩
  | enumeration =>
    have hagree := Enumeration.agree_solve_negated (n := n) hfinite
    exact ⟨hagree.outcome_eq, hagree.source_eq, hagree.dest_eq, hagree.weight opposite_zero, nofun⟩

/-- The weights `1` and `-1` of the only two allowed edges cancel; both searches report a zero. -/
theorem solve_negated_two :
    let w : Weights Float := ⟨2, #v[some (Float.ofBits 0x3ff0000000000000), none, none, some (Float.ofBits 0xbff0000000000000)]⟩
    let r := (new .primalDual 2 : Solver Float 2).solve .min w
    let r' := (new .primalDual 2 : Solver Float 2).solve .max w.negated
    w.IsFinite ∧ r.outcome = r'.outcome.mapError Failure.mirrored ∧
      (r.matcher.assignment.weight == -r'.matcher.assignment.weight) = true := by
  intro w r r'
  have hfinite : w.IsFinite := by
    unfold Weights.IsFinite
    decide +kernel
  obtain ⟨houtcome, _, _, hweight, _⟩ := solve_negated .primalDual 2 w hfinite
  exact ⟨hfinite, houtcome, hweight⟩

end Solver

end PerfectMatching
