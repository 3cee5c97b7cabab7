import PerfectMatching.Proofs.Optimality

/-!
# The primal-dual invariant

With an arithmetic that rounds nothing, the matching uses tight edges only and the dual variables bound the weight of every
matching, whenever the trees of a search are complete and whenever they have just been cleared (`PrimalDual.solve_invariant`). A
dual update keeps this since the rows reached are the mates of the tight columns and the rows that are not matched: what it lowers
at the ends of matched edges it raises at the other ends, and the sum of the dual variables falls by the amount once for every row
that is not matched (`PrimalDual.State.dualSum_update`).
-/

namespace PerfectMatching

open LawfulScalar

namespace PrimalDual

open Relation State

variable {n : ℕ} {work : Table Exact n} {s t u : State Exact n} {least greatest spent : ℚ} {updates : ℕ}

/-! ## Sums of dual variables -/

/-- What is not negative adds up to at most as much over some of the places as over all. -/
theorem sum_map_le_sum {f : Fin n → ℚ} (hf : ∀ i, 0 ≤ f i) {places : List (Fin n)} (h : places.Nodup) :
    (places.map f).sum ≤ ∑ i, f i := by
  rw [← List.sum_toFinset f h]
  exact Finset.sum_le_univ_sum_of_nonneg hf

/-- Numbers for the rows and the columns that are at least `-t`, and that no edge of a matching outweighs by more than `t`, bound the
weight of the matching, up to `t` for each of its edges and each node that it leaves out. -/
theorem sum_le_add_mul {row col : Fin n → ℚ} {t : ℚ} (hrow : ∀ i, -t ≤ row i) (hcol : ∀ j, -t ≤ col j)
    {edges : List (Fin n × Fin n)} {weights : List Exact} (h : IsMatching work edges weights) {weight : Fin n × Fin n → ℚ}
    (hle : ∀ e ∈ edges, weight e ≤ row e.1 + col e.2 + t) :
    (edges.map weight).sum ≤ ∑ i, row i + ∑ j, col j + (2 * n - edges.length) * t := by
  calc (edges.map weight).sum ≤ (edges.map fun e => row e.1 + t + (col e.2 + t) + -t).sum :=
        List.sum_le_sum fun e he => (hle e he).trans_eq (by ring)
    _ = ((edges.map Prod.fst).map fun i => row i + t).sum + ((edges.map Prod.snd).map fun j => col j + t).sum -
          edges.length * t := by
        rw [List.sum_map_add, List.sum_map_add, List.map_map, List.map_map, List.map_const', List.sum_replicate, nsmul_eq_mul,
          mul_neg, ← sub_eq_add_neg]
        rfl
    _ ≤ ∑ i, (row i + t) + ∑ j, (col j + t) - edges.length * t :=
        sub_le_sub_right (add_le_add (sum_map_le_sum (fun i => neg_le_iff_add_nonneg.1 (hrow i)) h.rows_nodup)
          (sum_map_le_sum (fun j => neg_le_iff_add_nonneg.1 (hcol j)) h.cols_nodup)) _
    _ = ∑ i, row i + ∑ j, col j + (2 * n - edges.length) * t := by
        simp only [Finset.sum_add_distrib, Finset.sum_const, Finset.card_univ, Fintype.card_fin, nsmul_eq_mul]
        ring

/-- The sum of finite dual variables. -/
theorem State.dualSum_eq {row col : Fin n → ℚ} (hrow : ∀ i, s.rowDual.get i = .finite (row i))
    (hcol : ∀ j, s.colDual.get j = .finite (col j)) : s.dualSum = .finite (∑ i, row i + ∑ j, col j) := by
  have hlist : s.rowDual.toList ++ s.colDual.toList =
      ((List.finRange n).map row ++ (List.finRange n).map col).map Exact.finite := by
    rw [toList_eq_map_get, toList_eq_map_get, List.map_append, List.map_map, List.map_map, funext hrow, funext hcol]
    rfl
  rw [dualSum, hlist, Exact.sum_finite, List.sum_append, Fin.sum_univ_def, Fin.sum_univ_def]

/-- A matching of finite weights. -/
theorem IsMatching.exists_weights {edges : List (Fin n × Fin n)} {weights : List Exact} (h : IsMatching work edges weights)
    (hfinite : ∀ i j x, (work.get i).get j = some x → Scalar.isFinite x = true) :
    ∃ weight : Fin n × Fin n → ℚ, weights = (edges.map weight).map Exact.finite ∧
      ∀ e ∈ edges, (work.get e.1).get e.2 = some (.finite (weight e)) := by
  let weight : Fin n × Fin n → ℚ := fun e => ((work.get e.1).get e.2).elim 0 value
  have hedge : ∀ e ∈ edges, (work.get e.1).get e.2 = some (.finite (weight e)) := by
    intro e he
    have hmem : (work.get e.1).get e.2 ∈ weights.map some := h.weights_eq ▸ List.mem_map_of_mem he
    obtain ⟨x, _, hx⟩ := List.mem_map.1 hmem
    simp only [weight, ← hx, Option.elim_some]
    exact congrArg some (Exact.eq_finite_of_isFinite (hfinite _ _ x hx.symm))
  refine ⟨weight, ?_, hedge⟩
  have hsome : weights.map some = ((edges.map weight).map Exact.finite).map some := by
    rw [← h.weights_eq, List.map_map, List.map_map]
    exact List.map_congr_left hedge
  exact (List.map_injective_iff.2 (Option.some_injective _)) hsome

/-- Dual variables that cover every edge bound the weight of every matching. -/
theorem State.Covers.sum_le {row col : Fin n → ℚ} (h : s.Covers work)
    (hfinite : ∀ i j x, (work.get i).get j = some x → Scalar.isFinite x = true)
    (hrow : ∀ i, s.rowDual.get i = .finite (row i)) (hcol : ∀ j, s.colDual.get j = .finite (col j))
    {edges : List (Fin n × Fin n)} {weights : List Exact} (hmatching : IsMatching work edges weights) :
    Scalar.le (Scalar.sum weights) s.dualSum = true := by
  obtain ⟨weight, rfl, hedge⟩ := hmatching.exists_weights hfinite
  have hrow0 : ∀ i, 0 ≤ row i := fun i => by
    have := h.row_nonneg i
    rw [hrow, le_iff isFinite_zero rfl, value_zero] at this
    exact this
  have hcol0 : ∀ j, 0 ≤ col j := fun j => by
    have := h.col_nonneg j
    rw [hcol, le_iff isFinite_zero rfl, value_zero] at this
    exact this
  have hle : ∀ e ∈ edges, weight e ≤ row e.1 + col e.2 := fun e he => by
    have := h.edge_le e.1 e.2 _ (hedge e he)
    rw [hrow, hcol, Exact.finite_add_finite, le_iff rfl rfl] at this
    exact this
  have hsum := sum_le_add_mul (t := 0) (by simpa using hrow0) (by simpa using hcol0) hmatching (by simpa using hle)
  rw [mul_zero, add_zero] at hsum
  rw [Exact.sum_finite, dualSum_eq hrow hcol, le_iff rfl rfl]
  exact hsum

/-- A dual update lowers the sum of the dual variables by its amount for every row that is not matched. -/
theorem State.dualSum_update (hgrown : Grown work t) (hex : Exhausted t) {row col : Fin n → ℚ}
    (hrow : ∀ i, t.rowDual.get i = .finite (row i)) (hcol : ∀ j, t.colDual.get j = .finite (col j)) (amount : ℚ) :
    (t.update (.finite amount)).dualSum = t.dualSum - .finite amount * Scalar.ofNat (n - t.matched) := by
  have hrow' : ∀ i, (t.update (.finite amount)).rowDual.get i =
      .finite (row i - if (t.rowLabel.get i).isReached = true then amount else 0) := by
    intro i
    rw [get_rowDual_update, hrow]
    split
    · rfl
    · rw [sub_zero]
  have hcol' : ∀ j, (t.update (.finite amount)).colDual.get j =
      .finite (col j + if Scalar.positive (t.slack.get j) = false then amount else 0) := by
    intro j
    rw [get_colDual_update, hcol]
    cases Scalar.positive (t.slack.get j) with
    | true => rw [if_pos rfl, if_neg Bool.noConfusion, add_zero]
    | false => rfl
  have hcard := congrArg (Nat.cast (R := ℚ)) (hgrown.card_reached hex)
  rw [Nat.cast_add] at hcard
  rw [dualSum_eq hrow' hcol', dualSum_eq hrow hcol, Exact.ofNat_eq, Exact.finite_mul_finite, Exact.finite_sub_finite,
    Finset.sum_sub_distrib, Finset.sum_add_distrib, ← Finset.sum_filter, ← Finset.sum_filter, Finset.sum_const,
    Finset.sum_const, nsmul_eq_mul, nsmul_eq_mul, hcard]
  change Exact.finite (_ - _ * amount + (_ + (t.tightCount : ℚ) * amount)) = _
  congr 1
  ring

/-! ## The invariant -/

/-- If the numbers do not drift, an edge is tight unless the dual variables at its ends add up to more than its weight. -/
theorem State.Near.isTight_of_le (h : Near work greatest spent updates s) (hwork : Between work least greatest)
    (hproper : Proper s) {i j : Fin n} {x : Exact} (hx : (work.get i).get j = some x)
    (hle : value (s.rowDual.get i) + value (s.colDual.get j) ≤ value x) : s.IsTight work i j := by
  obtain ⟨hfin, hsum⟩ := Exact.value_add (hproper.rowDual i).1 (h.colDual j).1
  have hge := h.feasible i j x hx (Exact.le_refl x)
  rw [leeway_exact, add_zero, ← hsum] at hge
  rw [← hsum] at hle
  exact hx.trans (congrArg some (Exact.eq_of_value_eq (hwork i j x hx (Exact.le_refl x)).1 hfin (hge.antisymm hle)))

/-- If the numbers do not drift, they satisfy the invariant. -/
theorem State.Near.invariant (h : Near work greatest spent updates s) (hwork : Between work least greatest)
    (hproper : Proper s) (hagree : s.MatesAgree) (hedge : ∀ i j, s.rowMate.get i = some j → HasEdge work i j) :
    s.Invariant work := by
  have hfinite : ∀ i j x, (work.get i).get j = some x → Scalar.isFinite x = true := fun i j x hx =>
    (hwork i j x hx (Exact.le_refl x)).1
  have hcovers : s.Covers work := by
    refine ⟨fun i => ?_, fun j => ?_, fun i j x hx => ?_⟩
    · rw [le_iff isFinite_zero (hproper.rowDual i).1, value_zero]
      exact (hproper.rowDual i).2
    · rw [le_iff isFinite_zero (h.colDual j).1, value_zero]
      exact (h.colDual j).2.1
    · obtain ⟨hfin, hsum⟩ := Exact.value_add (hproper.rowDual i).1 (h.colDual j).1
      rw [le_iff (hfinite i j x hx) hfin, hsum]
      have := h.feasible i j x hx (Exact.le_refl x)
      rwa [leeway_exact, add_zero] at this
  refine ⟨hagree, fun i j hij => ?tight, hcovers, fun j hj => ?unmatched, fun edges weights => ?sum_le⟩
  case tight =>
    obtain ⟨x, hx, _⟩ := hedge i j hij
    have hle := h.matched i j x hij hx
    rw [leeway_exact, add_zero] at hle
    exact h.isTight_of_le hwork hproper hx hle
  case unmatched =>
    exact Exact.eq_of_value_eq (h.colDual j).1 isFinite_zero ((h.colDual_unmatched j hj).trans value_zero.symm)
  case sum_le =>
    exact hcovers.sum_le hfinite (fun i => Exact.eq_finite_of_isFinite (hproper.rowDual i).1) fun j =>
      Exact.eq_finite_of_isFinite (h.colDual j).1

/-- The invariant says nothing of the stacks. -/
theorem State.Invariant.of_colStack {cols : List (Fin n)} (h : Invariant work { s with colStack := cols }) :
    s.Invariant work :=
  ⟨h.agree, h.tight, ⟨h.covers.row_nonneg, h.covers.col_nonneg, h.covers.edge_le⟩, h.unmatched, h.sum_le⟩

section Stages

variable (hwork : Between work least greatest) (hleast : 0 ≤ least) (hgreatest : 0 ≤ greatest) (hn : 0 < n)
  {effort : Effort}

include hwork hleast hgreatest hn

/-- When nothing is left to search, the invariant holds. -/
theorem Stage.invariant_of_steps (hstage : Stage work s effort) (hst : ReflTransGen (Step work) s t) : t.Invariant work := by
  have ht := (hstage.valid hwork hgreatest hn).of_steps hst
  obtain ⟨spent, hnear⟩ := hstage.near_of_steps hwork hleast hn (steady_exact hgreatest _) hst
  exact hnear.invariant hwork ht.proper ht.grown.agree ht.grown.mate_edge

/-- When the matching has been augmented, the invariant holds. -/
theorem Stage.invariant_of_reaching (hstage : Stage work s effort) (hst : ReflTransGen (Step work) s t) {j : Fin n}
    (hr : Reaching t j u) : u.reseed.Invariant work := by
  have ht := (hstage.valid hwork hgreatest hn).of_steps hst
  obtain ⟨spent, hnear⟩ := hstage.near_of_steps hwork hleast hn (steady_exact hgreatest _) hst
  refine ((hnear.augment ht hr).invariant hwork ⟨fun i => ?_, fun i k hik => ?_⟩ hr.flipped.agree
    fun i k hik => hr.hasEdge ht.grown i k hik).of_colStack
  · have hrow := ht.proper.rowDual i
    rw [← hr.flipped.rowDual_eq] at hrow
    exact hrow
  · exact nomatch ((fresh_reseed _).colLabel_eq k).symm.trans hik

/-- At every stable point of a search on exact weights the invariant holds. -/
theorem StablePoint.invariant (h : StablePoint work t) : t.Invariant work := by
  cases h with
  | searched hstage hsearch =>
    exact hstage.invariant_of_steps hwork hleast hgreatest hn (exhausted_of_search hsearch).1
  | augmented hstage hsearch hflip =>
    obtain ⟨r, u, events, hst, hr, hflip'⟩ := (hstage.valid hwork hgreatest hn).reaching_of_search hsearch
    obtain ⟨rfl, -⟩ : _ = u ∧ _ = events := by simpa [hflip] using hflip'
    exact hstage.invariant_of_reaching hwork hleast hgreatest hn hst hr

/-- A dual update on exact weights lowers the sum of the dual variables by the least slack for every row that is not matched. -/
theorem Stage.dualSum_relax (hstage : Stage work s effort) (hsearch : s.search work = (none, t))
    (hupdated : (t.relax effort).verdict = .unfinished) :
    (t.relax effort).state.dualSum = t.dualSum - t.leastSlack * Scalar.ofNat (n - t.matched) := by
  obtain ⟨hst, hex⟩ := exhausted_of_search hsearch
  have ht := (hstage.valid hwork hgreatest hn).of_steps hst
  obtain ⟨spent, hnear⟩ := hstage.near_of_steps hwork hleast hn (steady_exact hgreatest _) hst
  unfold relax at hupdated ⊢
  split at hupdated
  · exact nomatch hupdated
  · rename_i hlt
    obtain ⟨i, _, hi⟩ := ht.exists_reached
    have hamount := Exact.eq_finite_of_isFinite (ht.proper.admissible_leastSlack hi hlt).finite
    rw [if_neg hlt, hamount]
    exact dualSum_update ht.grown hex (fun i => Exact.eq_finite_of_isFinite (ht.proper.rowDual i).1)
      (fun j => Exact.eq_finite_of_isFinite (hnear.colDual j).1) _

end Stages

/-- If exact weights pass the range check, then whenever the trees of the search are complete or have just been cleared, and at its
end, the mates agree, matched edges are tight, the dual variables cover every edge and are zero at the columns that are not
matched, and no matching weighs more than their sum; and every dual update lowers this sum by its amount for every row that is not
matched. -/
theorem solve_invariant (m : PrimalDual Exact n) {goal : Goal} {w : Weights Exact} (h : w.n = n)
    {least greatest : Exact} (hbounds : bounds? goal w = some (least, greatest))
    (hshift : isShiftable least greatest (offsetOf w least greatest) = true) :
    let work := shift goal (offsetOf w least greatest) w h
    m.solve goal w = searchTable goal (offsetOf w least greatest) work ∧
      StablePoint work (m.solve goal w).matcher.state ∧ (∀ t, StablePoint work t → t.Invariant work) ∧
      ∀ s t effort, Stage work s effort → s.search work = (none, t) → (t.relax effort).verdict = .unfinished →
        (t.relax effort).state.dualSum = t.dualSum - t.leastSlack * Scalar.ofNat (n - t.matched) := by
  intro work
  obtain ⟨hwork, _, hpos, hle⟩ := between_shift hbounds hshift h
  have hgreatest := hpos.le.trans hle
  have hn : 0 < n := h ▸ pos_of_bounds hbounds
  have hsolve := solve_eq_searchTable m h hn hbounds hshift
  refine ⟨hsolve, ?_, fun t ht => ht.invariant hwork hpos.le hgreatest hn, fun s t effort hstage =>
    hstage.dualSum_relax hwork hpos.le hgreatest hn⟩
  rw [hsolve, (searched_searchTable _ _ _).state_eq]
  exact stablePoint_complete hwork hgreatest hn

/-- With three edges of the weights `3`, `1` and `2` the invariant holds at the end. -/
theorem solve_invariant_two :
    let w : Weights Exact := ⟨2, #v[some (.finite 3), some (.finite 1), some (.finite 2), none]⟩
    let offset := offsetOf w (.finite 1) (.finite 3)
    bounds? .max w = some (.finite 1, .finite 3) ∧ isShiftable (.finite 1) (.finite 3) offset = true ∧
      ((new 2 : PrimalDual Exact 2).solve .max w).matcher.state.Invariant (shift .max offset w rfl) := by
  intro w offset
  have hbounds : bounds? .max w = some (.finite 1, .finite 3) := by decide +kernel
  have hshift : isShiftable (.finite 1) (.finite 3) offset = true := by decide +kernel
  obtain ⟨_, hpoint, hinvariant, _⟩ := solve_invariant (new 2) rfl hbounds hshift
  exact ⟨hbounds, hshift, hinvariant _ hpoint⟩

end PrimalDual

end PerfectMatching
