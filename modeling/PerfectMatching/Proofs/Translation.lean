import PerfectMatching.Proofs.Comparison
import PerfectMatching.Proofs.Duality

/-!
# Weights increased by a constant

If every weight is increased by the same constant, every perfect matching gains as many times the constant as there are rows, and on
exact weights the solvers do just the same (`Solver.solve_shifted`). The search shifts the weights by a constant anyway, which makes up
for the increase, so that it gets the same table; the enumeration compares totals all of which have grown by the same amount. Only a
success reports a total that has grown: after a failure there is none.
-/

namespace PerfectMatching

open LawfulScalar

variable {n : ℕ} {w : Weights Exact} {c : ℚ} {goal : Goal}

/-- The sum of finite weights, and what it is when each of them has been increased by a constant. -/
theorem Exact.sum_map_add {xs : List Exact} (hxs : ∀ x ∈ xs, Scalar.isFinite x = true) (c : ℚ) :
    ∃ q, Scalar.sum xs = .finite q ∧ Scalar.sum (xs.map (· + .finite c)) = .finite (q + xs.length * c) := by
  induction xs using List.reverseRecOn with
  | nil =>
    refine ⟨0, sum_finite [], ?_⟩
    rw [List.length_nil, Nat.cast_zero, zero_mul, add_zero]
    exact sum_finite []
  | append_singleton xs x ih =>
    obtain ⟨q, hsum, hsum'⟩ := ih fun y hy => hxs y (List.mem_append_left _ hy)
    obtain ⟨p, rfl⟩ : ∃ p, x = .finite p := ⟨_, eq_finite_of_isFinite (hxs x (by simp))⟩
    refine ⟨q + p, ?_, ?_⟩
    · rw [Scalar.sum_concat, hsum, finite_add_finite]
    · rw [List.map_append, List.map_singleton, Scalar.sum_concat, hsum', finite_add_finite, finite_add_finite, List.length_append,
        List.length_singleton, Nat.cast_add, Nat.cast_one]
      congr 1
      ring

/-- A sum as the goal sees it. -/
theorem Goal.signedValue_add (goal : Goal) (p q : ℚ) : goal.signedValue (p + q) = goal.signedValue p + goal.signedValue q := by
  cases goal with
  | max => rfl
  | min => exact neg_add p q

/-- One finite weight exceeds another by this amount. -/
def Exceeds (amount : ℚ) (x y : Exact) : Prop := ∃ q, x = .finite q ∧ y = .finite (q + amount)

/-- Every total grows by as many times the constant as there are rows. -/
theorem Weights.Totals.exceeds (hfinite : w.IsFinite) {x y : Exact} (h : Weights.Totals (· + .finite c) w x y) :
    Exceeds (w.n * c) x y := by
  obtain ⟨xs, hlength, hxs, rfl, rfl⟩ := h
  obtain ⟨q, hsum, hsum'⟩ := Exact.sum_map_add (fun x hx => hfinite x (hxs x hx)) c
  exact ⟨q, hsum, hlength ▸ hsum'⟩

/-- Weights that have grown by the same amount are ordered as before, as the goal sees them. -/
theorem Exceeds.le_eq {amount : ℚ} (goal : Goal) {x x' y y' : Exact} (hx : Exceeds amount x x') (hy : Exceeds amount y y') :
    Scalar.le (goal.signed x) (goal.signed y) = Scalar.le (goal.signed x') (goal.signed y') := by
  obtain ⟨p, rfl, rfl⟩ := hx
  obtain ⟨q, rfl, rfl⟩ := hy
  rw [Bool.eq_iff_iff]
  simp only [Goal.signed_finite]
  rw [le_iff rfl rfl, le_iff rfl rfl]
  change goal.signedValue p ≤ goal.signedValue q ↔ goal.signedValue (p + amount) ≤ goal.signedValue (q + amount)
  rw [Goal.signedValue_add, Goal.signedValue_add, add_le_add_iff_right]

/-- Without rows there is nothing to gain. -/
theorem exceeds_zero (hn : n = 0) : Exceeds (n * c) Scalar.zero Scalar.zero := by
  refine ⟨0, Exact.ofNat_eq 0, ?_⟩
  rw [hn, Nat.cast_zero, zero_mul, add_zero]
  exact Exact.ofNat_eq 0

/-- Enumerations for increased weights agree. -/
theorem Enumeration.agree_solve_shifted (goal : Goal) (hfinite : w.IsFinite) (c : ℚ) :
    let r := (new n : Enumeration Exact n).solve goal w
    let r' := (new n : Enumeration Exact n).solve goal (w.shifted (.finite c))
    Agree id (Exceeds (n * c)) r.outcome r.matcher.result r'.outcome r'.matcher.result :=
  agree_solve (fun _ _ => rfl) (fun hx hy => (hx.exceeds hfinite).le_eq goal (hy.exceeds hfinite))
    (fun hn h => hn ▸ h.exceeds hfinite) exceeds_zero

namespace PrimalDual

/-! ## The shift makes up for the increase -/

/-- The bounds of increased weights. -/
theorem bounds_shifted (hfinite : w.IsFinite) (goal : Goal) (c : ℚ) :
    bounds? goal (w.shifted (.finite c)) =
      (bounds? goal w).map (Prod.map (· + .finite (goal.signedValue c)) (· + .finite (goal.signedValue c))) := by
  have hlt : ∀ {x y : Exact} (d : ℚ), Scalar.isFinite x = true → Scalar.isFinite y = true →
      Scalar.lt (x + .finite d) (y + .finite d) = Scalar.lt x y := by
    intro x y d hx hy
    rw [Exact.eq_finite_of_isFinite hx, Exact.eq_finite_of_isFinite hy, Bool.eq_iff_iff, Exact.finite_add_finite,
      Exact.finite_add_finite, Exact.lt_finite_iff, Exact.lt_finite_iff, add_lt_add_iff_right]
  refine bounds_of_map (P := fun x => Scalar.isFinite x = true) ?_ (fun x hx => ?_) (fun hx hy => ?_) fun hx hy => ?_
  · rw [Weights.shifted, Weights.allowed_map, List.map_map, List.map_map]
    refine List.map_congr_left fun x hx => ?_
    rw [Exact.eq_finite_of_isFinite (hfinite x hx)]
    simp only [Function.comp_apply, Goal.signed_finite, Exact.finite_add_finite, Goal.signedValue_add]
  · rw [isFinite_signed]
    exact hfinite x hx
  · rw [Scalar.min, Scalar.min, hlt _ hy hx, Exact.le_refl, Exact.le_refl]
    split <;> rfl
  · rw [Scalar.max, Scalar.max, hlt _ hx hy, Exact.le_refl, Exact.le_refl]
    split <;> rfl

/-- The shift of increased weights. -/
theorem offsetOf_shifted {least greatest offset : ℚ} (h : offsetOf w (.finite least) (.finite greatest) = .finite offset) (c d : ℚ) :
    offsetOf (w.shifted (.finite c)) (.finite (least + d)) (.finite (greatest + d)) = .finite (offset + d) := by
  have hmargin : margin (w.shifted (.finite c)) (.finite (least + d)) (.finite (greatest + d)) =
      margin w (.finite least) (.finite greatest) := by
    have hspan : (Exact.finite (greatest + d) - .finite (least + d) : Exact) = .finite greatest - .finite least := by
      rw [Exact.finite_sub_finite, Exact.finite_sub_finite, add_sub_add_right_eq_sub]
    rw [margin, margin, Weights.shifted, Weights.anyForbidden_map, hspan]
    rfl
  rw [offsetOf] at h ⊢
  rw [hmargin]
  cases hm : margin w (.finite least) (.finite greatest) with
  | infinite =>
    rw [hm] at h
    cases h
  | finite m =>
    rw [hm, Exact.finite_sub_finite] at h
    obtain rfl := Exact.finite.inj h
    rw [Exact.finite_sub_finite, add_sub_right_comm]

/-- Increased weights are shifted to the same table, by an amount that has grown as the weights have. -/
theorem exists_search_shifted (h : w.n = n) (hn : 0 < n) (hfinite : w.IsFinite) (hedge : w.allowed ≠ []) (goal : Goal) (c : ℚ) :
    ∃ offset : ℚ, (∀ i j x, ((shift goal (.finite offset) w h).get i).get j = some x → Scalar.isFinite x = true) ∧
      (new n).solve goal w = searchTable goal (.finite offset) (shift goal (.finite offset) w h) ∧
      (new n).solve goal (w.shifted (.finite c)) =
        searchTable goal (.finite (offset + goal.signedValue c)) (shift goal (.finite offset) w h) := by
  have h' : (w.shifted (.finite c)).n = n := h
  obtain ⟨least, greatest, offset, hbounds, hoffset, hshift, _⟩ := exists_search hfinite hedge goal
  have hbounds' : bounds? goal (w.shifted (.finite c)) =
      some (.finite (least + goal.signedValue c), .finite (greatest + goal.signedValue c)) := by
    rw [bounds_shifted hfinite, hbounds]
    rfl
  have hoffset' := offsetOf_shifted hoffset c (goal.signedValue c)
  have hsolve := solve_eq_searchTable (new n) h hn hbounds hshift
  rw [hoffset] at hshift hsolve
  have hshift' : isShiftable (Exact.finite (least + goal.signedValue c)) (.finite (greatest + goal.signedValue c))
      (.finite (offset + goal.signedValue c)) = true := by
    rw [isShiftable, Exact.finite_sub_finite, Exact.finite_sub_finite, add_sub_add_right_eq_sub, add_sub_add_right_eq_sub]
    exact hshift
  have htable : shift goal (.finite (offset + goal.signedValue c)) (w.shifted (.finite c)) h' = shift goal (.finite offset) w h :=
    shift_map_eq h h' fun x hx => by
      rw [Exact.eq_finite_of_isFinite (hfinite x hx), Exact.finite_add_finite, Goal.signed_finite, Goal.signed_finite,
        Exact.finite_sub_finite, Exact.finite_sub_finite, Goal.signedValue_add, add_sub_add_right_eq_sub]
  have hsolve' := solve_eq_searchTable (new n) h' hn hbounds' (hoffset' ▸ hshift')
  rw [hoffset', htable] at hsolve'
  exact ⟨offset, fun i j x hx => ((between_shift hbounds hshift h).1 i j x hx (Exact.le_refl x)).1, hsolve, hsolve'⟩

/-- What the shifted weights are before a shift that has grown exceeds what they are before the shift. -/
theorem exceeds_unshifted (goal : Goal) (offset c : ℚ) {xs : List Exact} (hxs : ∀ x ∈ xs, Scalar.isFinite x = true) :
    Exceeds (xs.length * c) (Scalar.sum (xs.map fun x => goal.signed (x + .finite offset)))
      (Scalar.sum (xs.map fun x => goal.signed (x + .finite (offset + goal.signedValue c)))) := by
  have hfinite : ∀ y ∈ xs.map fun x => goal.signed (x + .finite offset), Scalar.isFinite y = true := by
    intro y hy
    obtain ⟨x, hx, rfl⟩ := List.mem_map.1 hy
    rw [isFinite_signed, Exact.eq_finite_of_isFinite (hxs x hx)]
    rfl
  obtain ⟨q, hsum, hsum'⟩ := Exact.sum_map_add hfinite c
  refine ⟨q, hsum, ?_⟩
  rw [List.length_map, List.map_map] at hsum'
  rw [← hsum']
  refine congrArg Scalar.sum (List.map_congr_left fun x hx => ?_)
  rw [Function.comp_apply, Exact.eq_finite_of_isFinite (hxs x hx)]
  simp only [Exact.finite_add_finite, Goal.signed_finite]
  rw [← add_assoc, Goal.signedValue_add, Goal.signedValue_signedValue]

/-- Calls for increased weights agree. -/
theorem agree_solve_shifted (goal : Goal) (hfinite : w.IsFinite) (c : ℚ) :
    let r := (new n : PrimalDual Exact n).solve goal w
    let r' := (new n : PrimalDual Exact n).solve goal (w.shifted (.finite c))
    Agree id (Exceeds (n * c)) r.outcome r.matcher.result r'.outcome r'.matcher.result ∧ SameSearch r.matcher r'.matcher := by
  intro r r'
  by_cases h : w.n = n
  · have h' : (w.shifted (.finite c)).n = n := h
    by_cases hn : n = 0
    · simp only [r, r', solve, dif_pos h, dif_pos h', if_pos hn]
      exact ⟨.found [] [] (exceeds_zero hn), rfl, rfl, rfl⟩
    by_cases hedge : w.allowed = []
    · have hbounds : bounds? goal w = none := by
        rw [bounds?, hedge]
        rfl
      have hbounds' : bounds? goal (w.shifted (.finite c)) = none := by
        rw [bounds_shifted hfinite, hbounds]
        rfl
      simp only [r, r', solve, dif_pos h, dif_pos h', if_neg hn, hbounds, hbounds']
      exact ⟨.failed_of_eq rfl, rfl, rfl, rfl⟩
    obtain ⟨offset, hentry, hr, hr'⟩ := exists_search_shifted h (Nat.pos_of_ne_zero hn) hfinite hedge goal c
    simp only [r, r', hr, hr']
    refine ⟨agree_searchTable (fun _ _ => rfl) fun xs hlength hxs => ?_, sameSearch_searchTable _ _ _ _ _⟩
    rw [← hlength]
    refine exceeds_unshifted goal offset c fun x hx => ?_
    obtain ⟨i, j, hget⟩ := hxs x hx
    exact hentry i j x hget
  · have h' : (w.shifted (.finite c)).n ≠ n := h
    simp only [r, r', solve, dif_neg h, dif_neg h']
    exact ⟨.failed_of_eq rfl, rfl, rfl, rfl⟩

/-- If a call succeeds, the bound of the dual variables is the total that is reported. -/
theorem dualObjective_eq_weight {goal : Goal} {w : Weights Exact} (hok : ((new n).solve goal w).outcome = .ok ()) :
    ((new n).solve goal w).matcher.dualObjective = ((new n).solve goal w).matcher.result.weight := by
  rcases Nat.eq_zero_or_pos n with rfl | hn
  · have hcalled := called_solve (new 0) goal w
    generalize (new 0).solve goal w = r at hcalled hok
    cases hcalled with
    | mismatched _ => exact nomatch hok
    | trivial _ _ => decide +kernel
    | noEdge _ hn _ => exact absurd hn (Nat.lt_irrefl 0)
    | unshiftable _ hn _ _ => exact absurd hn (Nat.lt_irrefl 0)
    | searched _ hn _ _ _ => exact absurd hn (Nat.lt_irrefl 0)
  · exact (certified_of_solve_exact (new n) goal w hn hok).2.2

end PrimalDual

namespace Solver

/-- On finite exact weights of any size, new matchers of either method treat weights that have been increased by a constant as they
treat the weights: they return the same verdict and the same columns and rows. After a success the totals differ by as many times the
constant as there are rows, and so do the bounds of the dual variables; after a failure both totals are zero. A search leaves the same
table, the same dual variables and the same effort. -/
theorem solve_shifted (method : Method) (n : ℕ) (goal : Goal) (w : Weights Exact) (c : ℚ) (hfinite : w.IsFinite) :
    let r := (new method n : Solver Exact n).solve goal w
    let r' := (new method n : Solver Exact n).solve goal (w.shifted (.finite c))
    r'.outcome = r.outcome ∧
      r'.matcher.assignment.source = r.matcher.assignment.source ∧
      r'.matcher.assignment.dest = r.matcher.assignment.dest ∧
      (r.outcome = .ok () → ∃ q : ℚ, r.matcher.assignment.weight = .finite q ∧
        r'.matcher.assignment.weight = .finite (q + n * c)) ∧
      (r.outcome ≠ .ok () → r.matcher.assignment.weight = Scalar.zero ∧ r'.matcher.assignment.weight = Scalar.zero) ∧
      (method = .primalDual → ∃ m m', r.matcher = .primalDual m ∧ r'.matcher = .primalDual m' ∧
        m'.work = m.work ∧ m'.duals = m.duals ∧ m'.effort = m.effort ∧
        (r.outcome = .ok () → ∃ q : ℚ, m.dualObjective = .finite q ∧ m'.dualObjective = .finite (q + n * c))) := by
  intro r r'
  cases method with
  | primalDual =>
    obtain ⟨hagree, hsearch⟩ := PrimalDual.agree_solve_shifted (n := n) goal hfinite c
    refine ⟨hagree.outcome_eq_of_id.symm, hagree.source_eq.symm, hagree.dest_eq.symm, hagree.weight_of_ok, hagree.weight_of_ne_ok,
      fun _ => ⟨_, _, rfl, rfl, hsearch.work_eq.symm, hsearch.duals_eq.symm, hsearch.effort_eq.symm, fun hok => ?_⟩⟩
    obtain ⟨q, hq, hq'⟩ := hagree.weight_of_ok hok
    exact ⟨q, (PrimalDual.dualObjective_eq_weight hok).trans hq,
      (PrimalDual.dualObjective_eq_weight (hagree.outcome_eq_of_id ▸ hok)).trans hq'⟩
  | enumeration =>
    have hagree := Enumeration.agree_solve_shifted (n := n) goal hfinite c
    exact ⟨hagree.outcome_eq_of_id.symm, hagree.source_eq.symm, hagree.dest_eq.symm, hagree.weight_of_ok, hagree.weight_of_ne_ok,
      nofun⟩

/-- With three edges of the weights `3`, `1` and `2`, each increased by `5 / 2`, the only perfect matching gains `5`. -/
theorem solve_shifted_two :
    let w : Weights Exact := ⟨2, #v[some (.finite 3), some (.finite 1), some (.finite 2), none]⟩
    let r := (new .enumeration 2 : Solver Exact 2).solve .min w
    let r' := (new .enumeration 2 : Solver Exact 2).solve .min (w.shifted (.finite (5 / 2)))
    w.IsFinite ∧ r.outcome = .ok () ∧ r'.outcome = r.outcome ∧
      ∃ q : ℚ, r.matcher.assignment.weight = .finite q ∧ r'.matcher.assignment.weight = .finite (q + (2 : ℕ) * (5 / 2)) := by
  intro w r r'
  have hfinite : w.IsFinite := by
    unfold Weights.IsFinite
    decide +kernel
  have hok : r.outcome = .ok () := by decide +kernel
  obtain ⟨houtcome, _, _, hweight, _⟩ := solve_shifted .enumeration 2 .min w (5 / 2) hfinite
  exact ⟨hfinite, hok, houtcome, hweight hok⟩

/-- A failure gains nothing: both rows have an edge to the first column only, and both totals are zero. -/
theorem weight_of_shifted_infeasible :
    let w : Weights Exact := ⟨2, #v[some (.finite 0), none, some (.finite 0), none]⟩
    let r := (new .enumeration 2 : Solver Exact 2).solve .max w
    let r' := (new .enumeration 2 : Solver Exact 2).solve .max (w.shifted (.finite 1))
    w.IsFinite ∧ r.outcome = .error (.noPerfectMatching 1 2) ∧ r'.outcome = .error (.noPerfectMatching 1 2) ∧
      r'.matcher.assignment.weight ≠ r.matcher.assignment.weight + .finite (2 * 1) := by
  intro w r r'
  have hfinite : w.IsFinite := by
    unfold Weights.IsFinite
    decide +kernel
  exact ⟨hfinite, by decide +kernel, by decide +kernel, by decide +kernel⟩

end Solver

end PerfectMatching
