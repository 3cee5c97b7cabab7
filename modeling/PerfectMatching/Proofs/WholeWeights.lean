import PerfectMatching.Proofs.Certified
import PerfectMatching.Proofs.Invariant
import PerfectMatching.Proofs.WholeShift

/-!
# Matching whole weights

On whole weights a call on binary64 numbers rounds nothing: it goes in lockstep with the call on the same weights as exact ones, and so
decides, optimizes and certifies as that one does (`PrimalDual.solve_whole`). The certificate compares the same whole number with itself,
because the dual variables of a perfect matching attain its weight (`Attained.primal`, `Attained.dual`).
-/

namespace PerfectMatching

open Binary64 LawfulScalar

namespace PrimalDual

open Relation State

variable {n : ℕ} {goal : Goal} {w : Weights Float} {least greatest : Float} {span size : ℚ}

/-! ## The call -/

section Spread

variable (h : Spread goal w least greatest span size)

include h

/-- The search of the shifted table is the search of the exact table. -/
theorem Spread.complete_map (hn : w.n = n) :
    (complete (shift goal (offsetOf w least greatest) w hn)).map Exact.ofFloat =
      complete (mapTable Exact.ofFloat (shift goal (offsetOf w least greatest) w hn)) := by
  have hwork := h.wholeTable hn
  have hstart : Stage (shift goal (offsetOf w least greatest) w hn) (start _) ⟨0, 0⟩ := .start
  have hrun := (hstart.run_map hwork (hn ▸ pos_of_bounds h.bounds) (rounds n)).1
  rwa [(start_map faithful_ofFloat fun i j x hx => Or.inl (hwork.whole i j x hx).1).1] at hrun

/-- A call on whole weights is the call on exact ones. -/
theorem Spread.solve_map (m : PrimalDual Float n) (hn : w.n = n) :
    (m.solve goal w).map Exact.ofFloat = (m.map Exact.ofFloat).solve goal (w.map Exact.ofFloat) := by
  have hpos : 0 < n := hn ▸ pos_of_bounds h.bounds
  have hn' : (w.map Exact.ofFloat).n = n := hn
  obtain ⟨hshift, hshift'⟩ := h.isShiftable
  rw [solve_eq_searchTable m hn hpos h.bounds hshift, solve_eq_searchTable _ hn' hpos h.bounds_exact hshift',
    ← h.shift_exact hn hn', ← h.offset.2.2.2]
  exact searchTable_map faithful_ofFloat (h.complete_map hn) (h.unshiftedTotal hn)

/-- A call on whole weights searches the shifted table. -/
theorem Spread.searched (m : PrimalDual Float n) (hn : w.n = n) :
    Searched (shift goal (offsetOf w least greatest) w hn) (offsetOf w least greatest) goal (m.solve goal w).matcher := by
  rw [solve_eq_searchTable m hn (hn ▸ pos_of_bounds h.bounds) h.bounds h.isShiftable.1]
  exact searched_searchTable _ _ _

/-- A call on whole weights leaves a state in which the exact weights satisfy the primal-dual invariant. -/
theorem Spread.invariant (m : PrimalDual Float n) (hn : w.n = n) :
    State.Invariant (mapTable Exact.ofFloat (m.solve goal w).matcher.work) ((m.solve goal w).matcher.state.map Exact.ofFloat) := by
  have hpos : 0 < n := hn ▸ pos_of_bounds h.bounds
  have hwork := h.wholeTable hn
  have hpoint := stablePoint_complete hwork.between hwork.nonneg hpos
  have hinvariant := hpoint.invariant hwork.between le_rfl hwork.nonneg hpos
  rw [← h.complete_map hn] at hinvariant
  rw [(h.searched m hn).work_eq, (h.searched m hn).state_eq]
  exact hinvariant

end Spread

/-! ## The result -/

/-- The dual variables are whole numbers and at most `greatest`, they cover every edge, and the edges of the result are tight. -/
structure Attained (m : PrimalDual Float n) (greatest : ℚ) (e : Equiv.Perm (Fin n)) (weight : Fin n → Float) : Prop where
  table : WholeTable m.work greatest
  range : n * greatest ≤ 2 ^ 52
  source_eq : m.result.source = columnsOf e
  dest_eq : m.result.dest = columnsOf e.symm
  edge : ∀ i, (m.work.get i).get (e i) = some (weight i)
  rowDual : ∀ i, Whole (m.state.rowDual.get i) ∧ 0 ≤ Binary64.value (m.state.rowDual.get i) ∧
    Binary64.value (m.state.rowDual.get i) ≤ greatest
  colDual : ∀ j, Whole (m.state.colDual.get j) ∧ 0 ≤ Binary64.value (m.state.colDual.get j) ∧
    Binary64.value (m.state.colDual.get j) ≤ greatest
  feasible : ∀ i j x, (m.work.get i).get j = some x →
    Binary64.value x ≤ Binary64.value (m.state.rowDual.get i) + Binary64.value (m.state.colDual.get j)
  tight : ∀ i, Binary64.value (weight i) =
    Binary64.value (m.state.rowDual.get i) + Binary64.value (m.state.colDual.get (e i))

section Attained

variable {m : PrimalDual Float n} {greatest : ℚ} {e : Equiv.Perm (Fin n)} {weight : Fin n → Float}
  (h : Attained m greatest e weight)

include h

/-- The shifted weights of the result add up to a whole number. -/
theorem Attained.primal : Whole (Scalar.sum ((List.finRange n).map weight)) ∧
    Binary64.value (Scalar.sum ((List.finRange n).map weight)) = ∑ i, Binary64.value (weight i) := by
  have hall : ∀ x ∈ (List.finRange n).map weight, Whole x ∧ |Binary64.value x| ≤ greatest := by
    intro x hx
    obtain ⟨i, _, rfl⟩ := List.mem_map.1 hx
    obtain ⟨hwhole, h0, hle⟩ := h.table.whole i (e i) _ (h.edge i)
    exact ⟨hwhole, by rwa [abs_of_nonneg h0]⟩
  have hrange := h.range
  obtain ⟨hwhole, hval⟩ := whole_sum hall (by rw [List.length_map, List.length_finRange]; linarith)
  refine ⟨hwhole, hval.trans ?_⟩
  rw [List.map_map, Fin.sum_univ_def]
  rfl

/-- The dual variables add up to the same whole number. -/
theorem Attained.dual :
    Whole (Scalar.sum m.duals) ∧ Binary64.value (Scalar.sum m.duals) = ∑ i, Binary64.value (weight i) := by
  rw [duals_eq_map]
  have hall : ∀ x ∈ (List.finRange n).map m.state.rowDual.get ++ (List.finRange n).map m.state.colDual.get,
      Whole x ∧ |Binary64.value x| ≤ greatest := by
    intro x hx
    rcases List.mem_append.1 hx with hx | hx <;> obtain ⟨i, _, rfl⟩ := List.mem_map.1 hx
    · exact ⟨(h.rowDual i).1, by rw [abs_of_nonneg (h.rowDual i).2.1]; exact (h.rowDual i).2.2⟩
    · exact ⟨(h.colDual i).1, by rw [abs_of_nonneg (h.colDual i).2.1]; exact (h.colDual i).2.2⟩
  have hrange := h.range
  obtain ⟨hwhole, hval⟩ := whole_sum hall (by
    rw [List.length_append, List.length_map, List.length_map, List.length_finRange, Nat.cast_add]
    linarith)
  refine ⟨hwhole, hval.trans ?_⟩
  -- Every edge of the result is tight, so its ends add up to its weight.
  have hends := sum_ends (fun i => Binary64.value (m.state.rowDual.get i)) (fun j => Binary64.value (m.state.colDual.get j)) e 0
  simp only [mul_zero, add_zero] at hends
  rw [Finset.sum_congr rfl fun i _ => h.tight i, hends, List.map_append, List.sum_append, List.map_map, List.map_map,
    Fin.sum_univ_def, Fin.sum_univ_def]
  rfl

/-- The certificate is accepted. -/
theorem Attained.certify : m.certify = .ok () := by
  obtain ⟨hsfin, hsone, _, _⟩ := scale_spec fun i j x hx => ⟨(h.table.whole i j x hx).1.finite, (h.table.whole i j x hx).2.1⟩
  obtain ⟨htfin, htlow, _⟩ := tolerance_spec hsfin hsone
  have ht0 : 0 ≤ Binary64.value m.tolerance := le_trans (by positivity) htlow
  obtain ⟨hprimal, hprimalval⟩ := h.primal
  obtain ⟨hdual, hdualval⟩ := h.dual
  refine certify_eq_ok h.source_eq h.dest_eq h.edge (fun i => ?_) (fun j => ?_) (fun i j x hx => ?_) ?_
  · exact dual_accepted htfin ht0 (h.rowDual i).1.finite (h.rowDual i).2.1
  · exact dual_accepted htfin ht0 (h.colDual j).1.finite (h.colDual j).2.1
  · exact edge_accepted htfin (h.rowDual i).1.finite (h.colDual j).1.finite (h.table.whole i j x hx).1.finite
      ((h.feasible i j x hx).trans (le_add_of_nonneg_right ht0))
  · have hsame : Binary64.value (Scalar.sum ((List.finRange n).map weight)) - Binary64.value (Scalar.sum m.duals) = 0 := by
      rw [hprimalval, hdualval, sub_self]
    refine objective_accepted htfin hprimal.finite hdual.finite (hsame.symm ▸ ?_) (hsame.symm ▸ ?_)
    · rw [abs_zero]
      positivity
    · rw [abs_zero, zero_mul]
      exact mul_nonneg ht0 (zero_le_one.trans (le_max_right _ _))

/-- The bound of the dual variables before the shift. -/
theorem Attained.ofFloat_dualObjective (hn : n < 2 ^ 53) (hoffset : Whole m.offset)
    (hsmall : n * |Binary64.value m.offset| ≤ 2 ^ 52) :
    Exact.ofFloat m.dualObjective =
      .finite (m.goal.signedValue (∑ i, Binary64.value (weight i) + n * Binary64.value m.offset)) := by
  obtain ⟨hdual, hdualval⟩ := h.dual
  obtain ⟨hcount, hcountval, _⟩ := whole_ofNat hn
  have hproduct : |Binary64.value (Scalar.ofNat n) * Binary64.value m.offset| ≤ 2 ^ 52 := by
    rwa [hcountval, abs_mul, Nat.abs_cast]
  obtain ⟨hmul, hmulval⟩ := hcount.mul hoffset (hproduct.trans (by norm_num))
  have hsum : |Binary64.value (Scalar.sum m.duals)| ≤ 2 ^ 52 := by
    have hall : ∀ i, 0 ≤ Binary64.value (weight i) ∧ Binary64.value (weight i) ≤ greatest := fun i =>
      (h.table.whole i (e i) _ (h.edge i)).2
    rw [hdualval, abs_of_nonneg (Finset.sum_nonneg fun i _ => (hall i).1)]
    exact (sum_le_mul fun i => (hall i).2).trans h.range
  obtain ⟨hadd, haddval⟩ := hdual.add hmul (by
    rw [hmulval]
    linarith [abs_add_le (Binary64.value (Scalar.sum m.duals)) (Binary64.value (Scalar.ofNat n) * Binary64.value m.offset)])
  rw [dualObjective, signed_map ofFloat_neg, ofFloat_of_isFinite hadd.finite, Goal.signed_finite, haddval, hmulval, hcountval,
    hdualval]

end Attained

/-- The edge of a mate is tight in value if it is tight for the exact weights. -/
theorem Exactly.tight {spent greatest : ℚ} {updates : ℕ} {work : Table Float n} {s u : State Float n}
    (h : Exactly work greatest spent updates s) (hrows : u.rowDual = s.rowDual) (hcols : u.colDual = s.colDual)
    (hinvariant : State.Invariant (mapTable Exact.ofFloat work) (u.map Exact.ofFloat)) {i j : Fin n} {x : Float}
    (hmate : u.rowMate.get i = some j) (hx : (work.get i).get j = some x) :
    Binary64.value x = Binary64.value (s.rowDual.get i) + Binary64.value (s.colDual.get j) := by
  have htight := hinvariant.tight i j hmate
  rw [IsTight, get_mapTable, hx, get_rowDual_map, get_colDual_map, hrows, hcols, Option.map_some, Option.some.injEq] at htight
  have hsum := (Exact.value_add ((isFinite_ofFloat _).trans (h.rowDual i).1.finite)
    ((isFinite_ofFloat _).trans (h.colDual j).1.finite)).2
  rwa [← htight, value_ofFloat, value_ofFloat, value_ofFloat] at hsum

/-- A call on whole weights that succeeds leaves dual variables that attain the weight of its result. -/
theorem Spread.exists_attained (h : Spread goal w least greatest span size) (m : PrimalDual Float n) (hn : w.n = n)
    (hok : (m.solve goal w).outcome = .ok ()) :
    ∃ e weight, Attained (m.solve goal w).matcher (w.n * span + 1) e weight ∧
      (m.solve goal w).matcher.result.weight =
        Scalar.sum ((List.finRange n).map fun i => goal.signed (weight i + offsetOf w least greatest)) := by
  have hpos : 0 < n := hn ▸ pos_of_bounds h.bounds
  have hwork := h.wholeTable hn
  obtain ⟨hshift, _⟩ := h.isShiftable
  obtain ⟨hbetween, _, hpos', hle⟩ := between_shift h.bounds hshift hn
  have hended := ended_searchTable hbetween (hpos'.le.trans hle) hpos goal (offsetOf w least greatest)
  have hsearched := h.searched m hn
  have hinvariant := h.invariant m hn
  rw [solve_eq_searchTable m hn hpos h.bounds hshift] at hok hsearched hinvariant ⊢
  generalize searchTable goal (offsetOf w least greatest) (shift goal (offsetOf w least greatest) w hn) = r at *
  cases hended with
  | abandoned _ _ _ _ herror _ _ => exact nomatch hok.symm.trans herror
  | @perfect s t u effort j e weight hstage hst hr hrow hweight _ _ hstate hresult =>
    refine ⟨e, weight, ?_, by rw [hresult]⟩
    -- The dual variables are those at the beginning of the last round.
    have hrows : r.matcher.state.rowDual = s.rowDual := by
      rw [hstate]
      exact hr.flipped.rowDual_eq.trans (framed_of_steps hst).rowDual_eq
    have hcols : r.matcher.state.colDual = s.colDual := by
      rw [hstate]
      exact hr.flipped.colDual_eq.trans (framed_of_steps hst).colDual_eq
    obtain ⟨hexact, hnumbers⟩ := hstage.lockstep hwork hpos
    obtain ⟨spent, hexactly⟩ := Stage.exactly hwork hpos hnumbers hexact
    rw [← hsearched.work_eq] at hwork hweight hexactly
    have hmate : ∀ i, r.matcher.state.rowMate.get i = some (e i) := by
      rw [hstate]
      exact hrow
    refine ⟨hwork, ?range, by rw [hresult], by rw [hresult], hweight, ?row, ?col, ?feasible, ?tight⟩
    case range =>
      obtain ⟨_, _, hsize, _, _⟩ := h.sizes
      have := mul_le_mul_of_nonneg_left (show w.n * span + 1 ≤ w.n * span + 1 + size by linarith) (Nat.cast_nonneg (α := ℚ) w.n)
      rw [← hn]
      exact this.trans h.range
    case row => exact hrows ▸ hexactly.rowDual
    case col => exact hcols ▸ hexactly.colDual
    case feasible =>
      rw [hrows, hcols]
      exact fun i j x => hexactly.feasible
    case tight =>
      rw [hrows, hcols]
      exact fun i => hexactly.tight (by rw [← hrows]) (by rw [← hcols]) hinvariant (hmate i) (hweight i)

/-- A call on whole weights that succeeds reports the same whole number as the bound of its dual variables, and is certified. -/
theorem Spread.objectives (h : Spread goal w least greatest span size) (m : PrimalDual Float n) (hn : w.n = n)
    (hok : (m.solve goal w).outcome = .ok ()) :
    (∃ total : ℤ, Exact.ofFloat (m.solve goal w).matcher.result.weight = .finite total ∧
      Exact.ofFloat (m.solve goal w).matcher.dualObjective = .finite total) ∧
    (m.solve goal w).matcher.certify = .ok () := by
  obtain ⟨e, weight, hattained, hresult⟩ := h.exists_attained m hn hok
  have hsearched := h.searched m hn
  obtain ⟨_, hcount, hsize, hspan, _⟩ := h.sizes
  obtain ⟨hoffset, _, hle, _⟩ := h.offset
  have hsmall : n * |Binary64.value (offsetOf w least greatest)| ≤ 2 ^ 52 := by
    rw [← hn]
    exact (mul_le_mul_of_nonneg_left hle (Nat.cast_nonneg _)).trans h.range
  have hweight := hattained.edge
  rw [hsearched.work_eq] at hweight
  obtain ⟨hwhole, htotal⟩ := h.total hn hweight
  have hdual := hattained.ofFloat_dualObjective (hn ▸ hcount) (by rwa [hsearched.offset_eq]) (by rwa [hsearched.offset_eq])
  rw [hsearched.offset_eq, hsearched.goal_eq, ← htotal] at hdual
  obtain ⟨total, hvalue⟩ := hwhole.whole
  have hexact := ofFloat_of_isFinite hwhole.finite
  rw [hvalue] at hexact
  exact ⟨⟨total, by rw [hresult, hexact], hdual.trans hexact⟩, hattained.certify⟩

/-- On whole weights of which at least one edge is allowed, a call on binary64 numbers rounds nothing: it is the call on the same weights as
exact ones, and every state in which a round begins, every step of its search and every round is the one of the exact call, whose
numbers are whole or infinite. So it succeeds exactly if there is a perfect matching, and else finds that there is none. If it succeeds,
its matching is best, the weight that it reports and the bound of the dual variables are its exact total, a whole number, and the result
is certified. -/
theorem solve_whole (m : PrimalDual Float n) (goal : Goal) (w : Weights Float) (h : w.n = n) (hwhole : w.IsWhole)
    (hedge : w.allowed ≠ []) :
    let exact := w.map Exact.ofFloat
    let r := m.solve goal w
    let work := mapTable Exact.ofFloat r.matcher.work
    r.map Exact.ofFloat = (m.map Exact.ofFloat).solve goal exact ∧
      (∀ s effort, Stage r.matcher.work s effort →
        Numbers WholeOrInfinite s ∧ Stage work (s.map Exact.ofFloat) effort ∧
        (∀ steps, (s.map Exact.ofFloat).searchFor work steps = (s.searchFor r.matcher.work steps).map id (State.map Exact.ofFloat)) ∧
        (s.map Exact.ofFloat).round work effort = (s.round r.matcher.work effort).map Exact.ofFloat) ∧
      (r.outcome = .ok () ↔ w.HasPerfect) ∧
      ((∃ k, r.outcome = .error (.noPerfectMatching k n)) ↔ ¬w.HasPerfect) ∧
      (r.outcome = .ok () → exact.IsBest goal r.matcher.result.source ∧
        (∀ other, exact.IsPerfect other → ∃ y, exact.total? other = some (some y)) ∧
        (∃ total : ℤ, exact.total? r.matcher.result.source = some (some (.finite total)) ∧
          Exact.ofFloat r.matcher.result.weight = .finite total ∧ Exact.ofFloat r.matcher.dualObjective = .finite total) ∧
        r.matcher.certify = .ok ()) := by
  intro exact r work
  obtain ⟨least, greatest, span, size, hspread⟩ := exists_spread hwhole hedge goal
  have hn : 0 < n := h ▸ pos_of_bounds hspread.bounds
  have hmap : r.map Exact.ofFloat = (m.map Exact.ofFloat).solve goal exact := hspread.solve_map m h
  have hwork : WholeTable r.matcher.work (w.n * span + 1) := (hspread.searched m h).work_eq ▸ hspread.wholeTable h
  have hfinite := hwhole.isFinite_map
  have hedge' : exact.allowed ≠ [] := by
    rw [Weights.allowed_map]
    exact fun hnil => hedge (List.map_eq_nil_iff.1 hnil)
  obtain ⟨hsuccess, hnone⟩ := solve_iff_exact (m.map Exact.ofFloat) goal h hn hfinite hedge'
  rw [← hmap, Weights.hasPerfect_map] at hsuccess hnone
  rw [Solved.map_eq_ok] at hsuccess
  simp only [Solved.map_eq_noPerfectMatching] at hnone
  refine ⟨hmap, fun s effort hstage => ?_, hsuccess, hnone, fun hok => ?_⟩
  · obtain ⟨hexact, hnumbers⟩ := hstage.lockstep hwork hn
    exact ⟨hnumbers, hexact, hstage.searchFor_map hwork hn, (hstage.round_map hwork hn).1.symm⟩
  · obtain ⟨⟨total, hweight, hdual⟩, hcertify⟩ := hspread.objectives m h hok
    obtain ⟨hbest, htotal⟩ := best_of_solve_exact (m.map Exact.ofFloat) goal h hfinite hedge'
      (hmap ▸ (Solved.map_eq_ok _ _).2 hok)
    rw [← hmap] at hbest htotal
    refine ⟨hbest, fun other => total_of_isPerfect hfinite, ⟨total, ?_, hweight, hdual⟩, hcertify⟩
    rw [← hweight]
    exact htotal

/-- With three edges of the weights `3`, `1` and `2` nothing is rounded, and the only perfect matching is found and certified. -/
theorem solve_whole_two :
    let w : Weights Float := ⟨2, #v[some (Float.ofBits 0x4008000000000000), some (Float.ofBits 0x3ff0000000000000),
      some (Float.ofBits 0x4000000000000000), none]⟩
    let r := (new 2 : PrimalDual Float 2).solve .max w
    w.IsWhole ∧ w.HasPerfect ∧ r.outcome = .ok () ∧
      r.map Exact.ofFloat = ((new 2 : PrimalDual Float 2).map Exact.ofFloat).solve .max (w.map Exact.ofFloat) ∧
      (w.map Exact.ofFloat).IsBest .max r.matcher.result.source ∧ r.matcher.certify = .ok () := by
  intro w r
  have hwhole : w.IsWhole := by
    refine ⟨fun x hx => ?_, by decide +kernel⟩
    have hall : ∀ x ∈ w.allowed, x.isFinite = true ∧ Binary64.value x = (Binary64.value x).num := by decide +kernel
    exact ⟨(hall x hx).1, _, (hall x hx).2⟩
  have hperfect : w.HasPerfect := by
    refine ⟨[1, 0], by decide, ?_⟩
    unfold Weights.Allows
    decide +kernel
  obtain ⟨hmap, _, hsuccess, _, hbest⟩ := solve_whole (new 2) .max w rfl hwhole (by decide)
  have hok := hsuccess.2 hperfect
  exact ⟨hwhole, hperfect, hok, hmap, (hbest hok).1, (hbest hok).2.2.2⟩

end PrimalDual

end PerfectMatching
