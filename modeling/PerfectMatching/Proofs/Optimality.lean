import Mathlib.Algebra.BigOperators.Fin
import PerfectMatching.Proofs.Completeness
import PerfectMatching.Proofs.Scalar.Exact

/-!
# Matching exact weights

With an arithmetic that rounds nothing, a call decides whether there is a perfect matching, and if there is one, finds one that no
other surpasses and reports its total (`PrimalDual.solve_exact`). The dual variables of the rows start with different values, so
that the usual reason for giving up a search does not apply; it is the margin of the shifted weights that makes it right
(`keepsMargin_exact`).
-/

namespace PerfectMatching

open LawfulScalar

namespace Exact

/-- A product of numbers is their product. -/
theorem finite_mul_finite (p q : ℚ) : (finite p * finite q : Exact) = finite (p * q) := rfl

/-- The sum of finite weights is the sum of their values. -/
theorem sum_map_finite {n : ℕ} (f : Fin n → ℚ) : Scalar.sum ((List.finRange n).map fun i => finite (f i)) = finite (∑ i, f i) := by
  rw [Fin.sum_univ_def, ← sum_finite, List.map_map]
  rfl

end Exact

namespace Goal

/-- A number as the goal sees it. -/
def signedValue : Goal → ℚ → ℚ
  | .max, q => q
  | .min, q => -q

/-- A finite weight as the goal sees it. -/
theorem signed_finite (goal : Goal) (q : ℚ) : goal.signed (Exact.finite q) = .finite (goal.signedValue q) := by
  cases goal <;> rfl

/-- The goal sees a number as it is when it sees it twice. -/
theorem signedValue_signedValue (goal : Goal) (q : ℚ) : goal.signedValue (goal.signedValue q) = q := by
  cases goal with
  | max => rfl
  | min => exact neg_neg q

/-- A sum as the goal sees it. -/
theorem sum_signedValue (goal : Goal) {n : ℕ} (f : Fin n → ℚ) : ∑ i, goal.signedValue (f i) = goal.signedValue (∑ i, f i) := by
  cases goal with
  | max => rfl
  | min => exact Finset.sum_neg_distrib f

end Goal

namespace PrimalDual

open Relation State

variable {n : ℕ} {goal : Goal} {w : Weights Exact} {offset least greatest : Exact}

/-- The margin of exact weights. -/
theorem exists_margin (hn : 0 < w.n) {p q : ℚ} (hpq : p ≤ q) :
    ∃ m : ℚ, offsetOf w (.finite p) (.finite q) = .finite (p - m) ∧ 0 < m ∧
      (w.anyForbidden = true → (w.n - 1) * (q - p) < m) := by
  have hcast : ((w.n - 1 : ℕ) : ℚ) = w.n - 1 := Nat.cast_pred hn
  have hone : (1 : ℚ) ≤ w.n := Nat.one_le_cast.2 hn
  have hspan : 0 ≤ (w.n - 1) * (q - p) := mul_nonneg (by linarith) (by linarith)
  rw [offsetOf, margin]
  split
  · rename_i hforbidden
    refine ⟨(w.n - 1) * (q - p) + 1, ?_, by linarith, fun _ => by linarith⟩
    rw [Scalar.one, Exact.ofNat_eq, Exact.ofNat_eq, Exact.finite_sub_finite, Exact.finite_mul_finite, Exact.finite_add_finite,
      Exact.finite_sub_finite, hcast, Nat.cast_one]
  · rename_i hforbidden
    refine ⟨1, ?_, one_pos, fun h => absurd h hforbidden⟩
    rw [Scalar.one, Exact.ofNat_eq, Exact.finite_sub_finite, Nat.cast_one]

/-- Exact weights of which the least is shifted to a margin of more than `n - 1` spans keep it. -/
theorem keepsMargin_exact {p q m : ℚ} (hpq : p ≤ q) (hm : 0 < m) (hmargin : (n - 1) * (q - p) < m) :
    KeepsMargin Exact n m (q - (p - m)) where
  steady := steady_exact (by linarith) _
  outweighs := by
    rw [leeway_exact]
    linarith

/-- A perfect matching on finite weights has a total. -/
theorem exists_total (hfinite : w.IsFinite) {e : Equiv.Perm (Fin w.n)} (he : ∀ i, ∃ x, w.edge i (e i) = some x) :
    ∃ x : Fin w.n → ℚ, (∀ i, w.edge i (e i) = some (.finite (x i))) ∧
      w.total? (columnsOf e) = some (some (.finite (∑ i, x i))) := by
  choose weight hweight using he
  have hx : ∀ i, w.edge i (e i) = some (.finite (value (weight i))) := fun i =>
    (hweight i).trans (congrArg some (Exact.eq_finite_of_isFinite (hfinite _ (Weights.mem_allowed_of_edge (hweight i)))))
  exact ⟨fun i => value (weight i), hx, by rw [Weights.total?_columnsOf hx, Exact.sum_map_finite]⟩

/-- The shifted weight of an edge of finite weight. -/
theorem get_shift_finite {offset x : ℚ} {i j : Fin w.n} (hx : w.edge i j = some (.finite x)) :
    ((shift goal (.finite offset) w rfl).get i).get j = some (.finite (goal.signedValue x - offset)) := by
  rw [get_shift]
  exact (congrArg (Option.map _) hx).trans (by rw [Option.map_some, Goal.signed_finite, Exact.finite_sub_finite])

/-- The shift changes the total of every perfect matching by the same amount. -/
theorem sum_shifted (goal : Goal) (offset : ℚ) (x : Fin n → ℚ) :
    ∑ i, value (Exact.finite (goal.signedValue (x i) - offset)) = goal.signedValue (∑ i, x i) - n * offset := by
  change ∑ i, (goal.signedValue (x i) - offset) = _
  rw [Finset.sum_sub_distrib, Goal.sum_signedValue, Fin.sum_const, nsmul_eq_mul]

/-- A search on exact weights that succeeds has found a best perfect matching, and reports its total. -/
theorem Ended.best_exact {offset p q : ℚ} {r : Solved Exact (PrimalDual Exact w.n)}
    (hwork : Between (shift goal (.finite offset) w rfl) p q) (hp : 0 ≤ p) (hq : 0 ≤ q) (hn : 0 < w.n) (hfinite : w.IsFinite)
    (hr : Ended (shift goal (.finite offset) w rfl) (.finite offset) goal r) (hok : r.outcome = .ok ()) :
    w.IsBest goal r.matcher.result.source ∧
      w.total? r.matcher.result.source = some (some r.matcher.result.weight) := by
  cases hr with
  | abandoned _ _ _ _ herror _ _ => exact nomatch hok.symm.trans herror
  | @perfect s t u effort j e weight hstage hst hr hrow hweight _ _ _ hresult =>
    have hv := hstage.valid hwork hq hn
    have hedge : ∀ i, ∃ x, w.edge i (e i) = some x := fun i =>
      exists_edge_of_hasEdge rfl (hr.hasEdge (hv.of_steps hst).grown i (e i) (hrow i))
    obtain ⟨x, hx, hsum⟩ := exists_total hfinite hedge
    have hreport : r.matcher.result.weight = .finite (∑ i, x i) := by
      rw [hresult, ← Exact.sum_map_finite]
      refine congrArg Scalar.sum (List.map_congr_left fun i _ => ?_)
      have hshifted := Option.some.inj ((hweight i).symm.trans (get_shift_finite (hx i)))
      rw [hshifted, Exact.finite_add_finite, sub_add_cancel, Goal.signed_finite, Goal.signedValue_signedValue]
    rw [hreport, show r.matcher.result.source = columnsOf e by rw [hresult]]
    refine ⟨⟨Weights.isPerfect_columnsOf hedge, fun other a b hother ha hb => ?_⟩, hsum⟩
    obtain ⟨e', rfl, hedge'⟩ := hother.exists_perm
    obtain ⟨x', hx', hsum'⟩ := exists_total hfinite hedge'
    obtain rfl : _ = a := Option.some.inj (Option.some.inj (hsum.symm.trans ha))
    obtain rfl : _ = b := Option.some.inj (Option.some.inj (hsum'.symm.trans hb))
    -- The dual variables at the end bound both totals, without leeway.
    obtain ⟨spent, hnear⟩ := hstage.near_of_steps hwork hp hn (steady_exact hq _) hst
    have hle := hnear.sum_le (hv.of_steps hst) hr hrow (fun i => get_shift_finite (hx i)) fun i =>
      ⟨get_shift_finite (hx' i), le_self_of_isFinite rfl⟩
    rw [sum_shifted, sum_shifted, leeway_exact, mul_zero, mul_zero, add_zero, sub_le_sub_iff_right] at hle
    rw [Goal.signed_finite, Goal.signed_finite, le_iff rfl rfl]
    exact hle

/-- Exact weights of which at least one edge is allowed pass the range check and keep their margin. -/
theorem exists_search (hfinite : w.IsFinite) (hedge : w.allowed ≠ []) (goal : Goal) :
    ∃ least greatest offset : ℚ, bounds? goal w = some (.finite least, .finite greatest) ∧
      offsetOf w (.finite least) (.finite greatest) = .finite offset ∧
      isShiftable (.finite least) (.finite greatest) (offsetOf w (.finite least) (.finite greatest)) = true ∧
      (w.anyForbidden = false ∨ KeepsMargin Exact w.n (least - offset) (greatest - offset)) := by
  obtain ⟨least, greatest, hbounds, hleast, hgreatest, hpq⟩ := exists_bounds hfinite hedge goal
  obtain ⟨p, rfl⟩ : ∃ p, least = .finite p := ⟨_, Exact.eq_finite_of_isFinite hleast⟩
  obtain ⟨q, rfl⟩ : ∃ q, greatest = .finite q := ⟨_, Exact.eq_finite_of_isFinite hgreatest⟩
  change p ≤ q at hpq
  obtain ⟨margin, hoffset, hpos, hmargin⟩ := exists_margin (pos_of_bounds hbounds) hpq
  refine ⟨p, q, p - margin, hbounds, hoffset, ?_, ?_⟩
  · rw [isShiftable, hoffset, Exact.finite_sub_finite, Exact.finite_sub_finite, Bool.and_eq_true, positive_iff rfl]
    exact ⟨by change 0 < p - (p - margin); linarith, rfl⟩
  · cases hforbidden : w.anyForbidden with
    | false => exact Or.inl rfl
    | true =>
      rw [sub_sub_cancel]
      exact Or.inr (keepsMargin_exact hpq hpos (hmargin hforbidden))

/-- A call on exact weights succeeds exactly if there is a perfect matching. -/
theorem solve_iff_exact (m : PrimalDual Exact n) (goal : Goal) (h : w.n = n) (hn : 0 < n) (hfinite : w.IsFinite)
    (hedge : w.allowed ≠ []) :
    ((m.solve goal w).outcome = .ok () ↔ w.HasPerfect) ∧
      ((∃ k, (m.solve goal w).outcome = .error (.noPerfectMatching k n)) ↔ ¬w.HasPerfect) := by
  obtain ⟨least, greatest, offset, hbounds, hoffset, hshift, hkeeps⟩ := exists_search hfinite hedge goal
  subst h
  refine solve_iff m rfl hn hfinite hbounds hshift ?_
  rw [hoffset]
  exact hkeeps

/-- A call on exact weights that succeeds has found a best perfect matching, and reports its total. -/
theorem best_of_solve_exact (m : PrimalDual Exact n) (goal : Goal) (h : w.n = n) (hfinite : w.IsFinite) (hedge : w.allowed ≠ [])
    (hok : (m.solve goal w).outcome = .ok ()) :
    w.IsBest goal (m.solve goal w).matcher.result.source ∧
      w.total? (m.solve goal w).matcher.result.source = some (some (m.solve goal w).matcher.result.weight) := by
  obtain ⟨least, greatest, offset, hbounds, hoffset, hshift, _⟩ := exists_search hfinite hedge goal
  have hn := pos_of_bounds hbounds
  subst h
  obtain ⟨hwork, _, hpos, hle⟩ := between_shift hbounds hshift rfl
  have hended := ended_searchTable hwork (hpos.le.trans hle) hn goal (offsetOf w (.finite least) (.finite greatest))
  rw [← solve_eq_searchTable m rfl hn hbounds hshift] at hended
  rw [hoffset] at hwork hended hpos hle
  exact hended.best_exact hwork hpos.le (hpos.le.trans hle) hn hfinite hok

/-- Every perfect matching on finite weights has a total. -/
theorem total_of_isPerfect (hfinite : w.IsFinite) {columns : List ℕ} (h : w.IsPerfect columns) :
    ∃ y, w.total? columns = some (some y) := by
  obtain ⟨e, rfl, he⟩ := h.exists_perm
  obtain ⟨x, _, hx⟩ := exists_total hfinite he
  exact ⟨_, hx⟩

/-- On exact weights of which at least one edge is allowed, a call succeeds exactly if there is a perfect matching, and else finds
that there is none. If it succeeds, its matching is one that no other perfect matching surpasses in the direction of the goal, and
the weight that it reports is the total of the matching. -/
theorem solve_exact (m : PrimalDual Exact n) (goal : Goal) (w : Weights Exact) (h : w.n = n) (hn : 0 < n) (hfinite : w.IsFinite)
    (hedge : w.allowed ≠ []) :
    let r := m.solve goal w
    (r.outcome = .ok () ↔ w.HasPerfect) ∧
      ((∃ k, r.outcome = .error (.noPerfectMatching k n)) ↔ ¬w.HasPerfect) ∧
      (r.outcome = .ok () → w.IsBest goal r.matcher.result.source ∧
        w.total? r.matcher.result.source = some (some r.matcher.result.weight) ∧
        ∀ other, w.IsPerfect other → ∃ y, w.total? other = some (some y)) := by
  intro r
  obtain ⟨hok, hnone⟩ := solve_iff_exact m goal h hn hfinite hedge
  refine ⟨hok, hnone, fun hsuccess => ?_⟩
  obtain ⟨hbest, htotal⟩ := best_of_solve_exact m goal h hfinite hedge hsuccess
  exact ⟨hbest, htotal, fun other => total_of_isPerfect hfinite⟩

/-- With three edges of the weights `3`, `1` and `2` the only perfect matching is found and its total is reported. -/
theorem solve_exact_two :
    let w : Weights Exact := ⟨2, #v[some (.finite 3), some (.finite 1), some (.finite 2), none]⟩
    let r := (new 2 : PrimalDual Exact 2).solve .max w
    r.outcome = .ok () ∧ w.HasPerfect ∧ w.IsBest .max r.matcher.result.source ∧
      w.total? r.matcher.result.source = some (some r.matcher.result.weight) := by
  intro w r
  have hfinite : w.IsFinite := by
    unfold Weights.IsFinite
    decide
  have hok : r.outcome = .ok () := by decide +kernel
  obtain ⟨hperfect, _, hbest⟩ := solve_exact (new 2) .max w rfl two_pos hfinite (by decide)
  exact ⟨hok, hperfect.1 hok, (hbest hok).1, (hbest hok).2.1⟩

end PrimalDual

end PerfectMatching
