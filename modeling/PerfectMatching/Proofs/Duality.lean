import PerfectMatching.Proofs.Certificate
import PerfectMatching.Proofs.Histories
import PerfectMatching.Proofs.Invariant

/-!
# Strong duality and certificates over histories

With an arithmetic that rounds nothing, the dual variables of a search that succeeds add up to the weight of its matching
(`PrimalDual.Optimal.sum_duals`). So the bound that they give is the total that is reported, and the certificate is accepted. A call
that fails leaves no result, and a matrix of another size leaves the matcher as it was; so at any time the certificate is accepted
exactly if the last call that was not refused for the size of its matrix succeeded (`PrimalDual.certify_after_iff`).
-/

namespace PerfectMatching

open LawfulScalar

variable {n : ℕ}

namespace PrimalDual

/-! ## Histories -/

section Histories

variable {α : Type} [Scalar α]

/-- A search that fails leaves no result. -/
theorem result_of_searchTable_eq_error {goal : Goal} {offset : α} {work : Table α n} {e : Failure α}
    (h : (searchTable goal offset work).outcome = .error e) : (searchTable goal offset work).matcher.result = .empty := by
  rw [searchTable_eq, conclude] at h ⊢
  generalize complete work = found at h ⊢
  obtain ⟨s, effort, verdict, events⟩ := found
  cases verdict with
  | perfect =>
    cases hpublish : publish work offset goal s with
    | ok result =>
      simp only [hpublish] at h
      cases h
    | error cause => rfl
  | infeasible => rfl
  | broken cause => rfl
  | unfinished => rfl

variable [LawfulScalar α]

/-- A call that is refused for the size of its matrix leaves the matcher as it was. -/
theorem matcher_of_isMismatch (m : PrimalDual α n) (goal : Goal) (w : Weights α)
    (h : isMismatch (m.solve goal w).outcome = true) : (m.solve goal w).matcher = m := by
  have hcalled := called_solve m goal w
  generalize m.solve goal w = r at h hcalled
  cases hcalled with
  | mismatched _ => rfl
  | trivial _ _ => exact nomatch h
  | noEdge _ _ _ => exact nomatch h
  | unshiftable _ _ _ _ => exact nomatch h
  | searched _ _ _ _ hended =>
    cases hended with
    | perfect _ _ _ _ _ hok _ _ _ => rw [hok] at h; exact nomatch h
    | abandoned _ _ _ _ herror _ _ => rw [herror] at h; exact nomatch h

/-- A matcher is new if no call was heard, and else what the last call that was heard has left. -/
theorem after_eq (calls : List (Call α)) :
    (lastHeard? n calls = none ∧ (after calls : PrimalDual α n) = new n) ∨
      ∃ (m : PrimalDual α n) (goal : Goal) (w : Weights α),
        lastHeard? n calls = some ((goal, w), (m.solve goal w).outcome) ∧
          isMismatch (m.solve goal w).outcome = false ∧ (after calls : PrimalDual α n) = (m.solve goal w).matcher :=
  afterCalls_eq PrimalDual.solve matcher_of_isMismatch (new n) calls

end Histories

open Relation State

/-! ## Strong duality -/

/-- The dual variables cover every edge of the table, and the edges of the result are tight. -/
structure Optimal (m : PrimalDual Exact n) (e : Equiv.Perm (Fin n)) (row col : Fin n → ℚ) : Prop where
  source_eq : m.result.source = columnsOf e
  dest_eq : m.result.dest = columnsOf e.symm
  work : ∀ i j x, (m.work.get i).get j = some x → Scalar.isFinite x = true ∧ 0 ≤ value x
  rowDual_eq : ∀ i, m.state.rowDual.get i = .finite (row i)
  colDual_eq : ∀ j, m.state.colDual.get j = .finite (col j)
  covers : m.state.Covers m.work
  tight : ∀ i, (m.work.get i).get (e i) = some (.finite (row i + col (e i)))

section Optimal

variable {m : PrimalDual Exact n} {e : Equiv.Perm (Fin n)} {row col : Fin n → ℚ} (h : Optimal m e row col)

include h

/-- The dual variables add up to the shifted weight of the result. -/
theorem Optimal.sum_duals : Scalar.sum m.duals = .finite (∑ i, (row i + col (e i))) := by
  have hsum : Scalar.sum m.duals = .finite (∑ i, row i + ∑ j, col j) := dualSum_eq h.rowDual_eq h.colDual_eq
  rw [hsum, Finset.sum_add_distrib, Equiv.sum_comp e col]

/-- The certificate is accepted. -/
theorem Optimal.certify : m.certify = .ok () := by
  obtain ⟨hsfin, hsone, _, _⟩ := scale_spec h.work
  obtain ⟨tolerance, htol, htol0⟩ : ∃ q : ℚ, m.tolerance = .finite q ∧ 0 ≤ q := by
    refine ⟨1e-9 * value m.scale, ?_, mul_nonneg (by norm_num) (zero_le_one.trans hsone)⟩
    rw [PrimalDual.tolerance, Exact.eq_finite_of_isFinite hsfin]
    rfl
  have hdual0 : ∀ {q : ℚ}, Scalar.le Scalar.zero (Exact.finite q) = true → Scalar.lt (Exact.finite q) (-.finite tolerance) = false :=
    fun hle => by
      rw [le_iff isFinite_zero rfl, value_zero] at hle
      exact Exact.lt_finite_eq_false_iff.2 ((neg_nonpos.2 htol0).trans hle)
  refine certify_eq_ok h.source_eq h.dest_eq h.tight (fun i => ?row) (fun j => ?col) (fun i j x hx => ?edge) ?objective
  case row =>
    have hnonneg := h.covers.row_nonneg i
    rw [h.rowDual_eq] at hnonneg ⊢
    rw [htol]
    exact hdual0 hnonneg
  case col =>
    have hnonneg := h.covers.col_nonneg j
    rw [h.colDual_eq] at hnonneg ⊢
    rw [htol]
    exact hdual0 hnonneg
  case edge =>
    have hle := h.covers.edge_le i j x hx
    obtain ⟨y, rfl⟩ : ∃ y : ℚ, x = .finite y := ⟨_, Exact.eq_finite_of_isFinite (h.work i j x hx).1⟩
    rw [h.rowDual_eq, h.colDual_eq, Exact.finite_add_finite] at hle ⊢
    rw [le_iff rfl rfl] at hle
    rw [htol, Exact.finite_sub_finite]
    exact Exact.lt_finite_eq_false_iff.2 ((sub_le_self y htol0).trans hle)
  case objective =>
    rw [h.sum_duals, Exact.sum_map_finite, Exact.finite_sub_finite, sub_self, htol, Exact.abs_finite, Exact.abs_finite, abs_zero,
      Exact.max_one, Exact.finite_mul_finite]
    exact Exact.lt_finite_eq_false_iff.2 (mul_nonneg htol0 (zero_le_one.trans (le_max_right _ _)))

/-- The bound of the dual variables is the total that is reported. -/
theorem Optimal.dualObjective_eq {offset : ℚ} (hoffset : m.offset = .finite offset)
    (hweight : m.result.weight =
      Scalar.sum ((List.finRange n).map fun i => m.goal.signed (.finite (row i + col (e i)) + m.offset))) :
    m.dualObjective = m.result.weight := by
  have hsum : ∑ i, (row i + col (e i) + offset) = ∑ i, (row i + col (e i)) + n * offset := by
    simp [Finset.sum_add_distrib]
  rw [hweight, dualObjective, h.sum_duals, hoffset, Exact.ofNat_eq, Exact.finite_mul_finite, Exact.finite_add_finite,
    Goal.signed_finite, ← hsum, ← Goal.sum_signedValue, ← Exact.sum_map_finite]
  refine congrArg Scalar.sum (List.map_congr_left fun i _ => ?_)
  rw [Exact.finite_add_finite, Goal.signed_finite]

end Optimal

/-- A search on exact weights that succeeds leaves dual variables that prove its result best. -/
theorem Ended.exists_optimal {work : Table Exact n} {offset : Exact} {goal : Goal} {least greatest : ℚ}
    {r : Solved Exact (PrimalDual Exact n)} (hr : Ended work offset goal r) (hm : r.matcher.work = work)
    (hwork : Between work least greatest) (hleast : 0 ≤ least) (hgreatest : 0 ≤ greatest) (hn : 0 < n)
    (hok : r.outcome = .ok ()) :
    ∃ e row col, Optimal r.matcher e row col ∧ r.matcher.result.weight =
      Scalar.sum ((List.finRange n).map fun i => goal.signed (.finite (row i + col (e i)) + offset)) := by
  cases hr with
  | abandoned _ _ _ _ herror _ _ => exact nomatch hok.symm.trans herror
  | @perfect s t u effort j e weight hstage hst hr hrow hweight _ _ hstate hresult =>
    have hinvariant : r.matcher.state.Invariant r.matcher.work := by
      rw [hstate, hm]
      exact hstage.invariant_of_reaching hwork hleast hgreatest hn hst hr
    have hfinite : ∀ i j x, (r.matcher.work.get i).get j = some x → Scalar.isFinite x = true ∧ 0 ≤ value x := by
      rw [hm]
      intro i j x hx
      obtain ⟨hfin, hle, _⟩ := hwork i j x hx (Exact.le_refl x)
      exact ⟨hfin, hleast.trans hle⟩
    have htight : ∀ i, (r.matcher.work.get i).get (e i) =
        some (r.matcher.state.rowDual.get i + r.matcher.state.colDual.get (e i)) := fun i =>
      hinvariant.tight i (e i) (by rw [hstate]; exact hrow i)
    -- A matched edge is tight, and a sum is finite only if both dual variables are.
    have hdual : ∀ i, Scalar.isFinite (r.matcher.state.rowDual.get i) = true ∧
        Scalar.isFinite (r.matcher.state.colDual.get (e i)) = true := fun i =>
      isFinite_of_add (hfinite i (e i) _ (htight i)).1
    have hrowDual : ∀ i, r.matcher.state.rowDual.get i = .finite (value (r.matcher.state.rowDual.get i)) := fun i =>
      Exact.eq_finite_of_isFinite (hdual i).1
    have hcolDual : ∀ j, r.matcher.state.colDual.get j = .finite (value (r.matcher.state.colDual.get j)) := fun j => by
      have hcol := (hdual (e.symm j)).2
      rw [Equiv.apply_symm_apply] at hcol
      exact Exact.eq_finite_of_isFinite hcol
    refine ⟨e, fun i => value (r.matcher.state.rowDual.get i), fun j => value (r.matcher.state.colDual.get j),
      ⟨by rw [hresult], by rw [hresult], hfinite, hrowDual, hcolDual, hinvariant.covers, fun i => ?_⟩, ?_⟩
    · rw [htight i, hrowDual i, hcolDual (e i)]
      rfl
    · rw [hresult]
      refine congrArg Scalar.sum (List.map_congr_left fun i _ => ?_)
      have hsum := Option.some.inj ((hweight i).symm.trans (hm ▸ htight i))
      rw [hsum, hrowDual i, hcolDual (e i)]
      rfl

/-! ## Certificates over histories -/

/-- The certificate of a matcher with rows but without a result is refused. -/
theorem certify_ne_ok_of_empty {α : Type} [Scalar α] {m : PrimalDual α n} (hn : 0 < n) (h : m.result = .empty) :
    m.certify ≠ .ok () := by
  have hsource : m.result.source.length ≠ n := by
    rw [h]
    exact hn.ne
  simp only [certify, if_pos (Or.inl hsource), ne_eq, reduceCtorEq, not_false_eq_true]

/-- The certificate of a matcher without rows and without a result is accepted. -/
theorem certify_eq_ok_of_empty {m : PrimalDual Exact 0} (h : m.result = .empty) : m.certify = .ok () := by
  have hduals : m.duals = [] := by
    rw [duals_eq_map]
    rfl
  have hscale : m.scale = Scalar.one := by
    rw [scale, toList_eq_map_get]
    rfl
  have hweight : ∀ i, (m.work.get i).get (Equiv.refl (Fin 0) i) = some (Fin.elim0 i) := fun i => i.elim0
  refine certify_eq_ok (by rw [h]; rfl) (by rw [h]; rfl) hweight (fun i => i.elim0) (fun j => j.elim0) (fun i => i.elim0) ?_
  rw [hduals, tolerance, hscale]
  decide +kernel

/-- Exact weights that pass the range check are finite. -/
theorem isFinite_of_isShiftable_exact {goal : Goal} {w : Weights Exact} {least greatest offset : Exact}
    (hbounds : bounds? goal w = some (least, greatest)) (hshift : isShiftable least greatest offset = true) : w.IsFinite := by
  obtain ⟨hleast, hgreatest, _⟩ := isFinite_of_isShiftable hbounds hshift
  intro x hx
  obtain ⟨hle, hge⟩ := (bounds_spec hbounds).2.2 x hx (Exact.le_refl _)
  rw [← isFinite_signed goal]
  exact isFinite_of_between hleast hle hge hgreatest

/-- A call on exact weights that succeeds for at least one row has finite weights of its size, leaves an accepted certificate, and
reports the total that the dual variables bound. -/
theorem certified_of_solve_exact (m : PrimalDual Exact n) (goal : Goal) (w : Weights Exact) (hn : 0 < n)
    (hok : (m.solve goal w).outcome = .ok ()) :
    (w.n = n ∧ w.IsFinite ∧ w.allowed ≠ []) ∧ (m.solve goal w).matcher.certify = .ok () ∧
      (m.solve goal w).matcher.dualObjective = (m.solve goal w).matcher.result.weight := by
  have hcalled := called_solve m goal w
  generalize m.solve goal w = r at hcalled hok
  cases hcalled with
  | mismatched _ => exact nomatch hok
  | trivial _ h => exact absurd h hn.ne'
  | noEdge _ _ _ => exact nomatch hok
  | unshiftable _ _ _ _ => exact nomatch hok
  | @searched least greatest h _ hbounds hshift hended =>
    have hedge : w.allowed ≠ [] := fun hnil => by
      have hleast := (bounds_spec hbounds).1
      rw [hnil] at hleast
      exact nomatch hleast
    obtain ⟨hwork, _, hpos, hle⟩ := between_shift hbounds hshift h
    have hsearched := searched_searchTable goal (offsetOf w least greatest) (shift goal (offsetOf w least greatest) w h)
    obtain ⟨e, row, col, hoptimal, hweight⟩ :=
      hended.exists_optimal hsearched.work_eq hwork hpos.le (hpos.le.trans hle) hn hok
    have hoffset := Exact.eq_finite_of_isFinite (isFinite_of_isShiftable hbounds hshift).2.2
    refine ⟨⟨h, isFinite_of_isShiftable_exact hbounds hshift, hedge⟩, hoptimal.certify,
      hoptimal.dualObjective_eq (hsearched.offset_eq.trans hoffset) ?_⟩
    rw [hsearched.goal_eq, hsearched.offset_eq]
    exact hweight

/-- A call that is heard and fails leaves no result. -/
theorem result_of_solve_eq_error {α : Type} [Scalar α] [LawfulScalar α] (m : PrimalDual α n) (goal : Goal) (w : Weights α)
    {e : Failure α} (hheard : isMismatch (m.solve goal w).outcome = false) (h : (m.solve goal w).outcome = .error e) :
    (m.solve goal w).matcher.result = .empty := by
  have hcalled := called_solve m goal w
  generalize m.solve goal w = r at hcalled hheard h
  cases hcalled with
  | mismatched _ => exact nomatch hheard
  | trivial _ _ => exact nomatch h
  | noEdge _ _ _ => rfl
  | unshiftable _ _ _ _ => rfl
  | searched _ _ _ _ _ => exact result_of_searchTable_eq_error h

/-- A matcher without rows never holds anything but an empty result. -/
theorem result_after_zero (calls : List (Call Exact)) : (after calls : PrimalDual Exact 0).result = .empty := by
  rcases after_eq (n := 0) calls with ⟨_, hnew⟩ | ⟨m, goal, w, _, hheard, hleft⟩
  · rw [hnew]
    rfl
  · rw [hleft]
    have hcalled := called_solve m goal w
    generalize m.solve goal w = r at hcalled hheard
    cases hcalled with
    | mismatched _ => exact nomatch hheard
    | trivial _ _ => rfl
    | noEdge _ hn _ => exact absurd hn (Nat.lt_irrefl 0)
    | unshiftable _ hn _ _ => exact absurd hn (Nat.lt_irrefl 0)
    | searched _ hn _ _ _ => exact absurd hn (Nat.lt_irrefl 0)

/-- After any calls on exact weights, of any sizes and with any outcomes, the certificate is accepted exactly if there are no rows, or a
call was heard and the last one that was heard has succeeded. If it is accepted and there are rows, the bound of the dual variables is
the total that is reported, which is that of the matching on the weights of this call, and no perfect matching on these weights has a
better total in the direction of its goal. -/
theorem certify_after_iff (calls : List (Call Exact)) :
    let m := (after calls : PrimalDual Exact n)
    (m.certify = .ok () ↔ n = 0 ∨ ∃ call, lastHeard? n calls = some (call, .ok ())) ∧
      (m.certify = .ok () → 0 < n → ∃ goal w, lastHeard? n calls = some ((goal, w), .ok ()) ∧
        m.dualObjective = m.result.weight ∧ w.IsPerfect m.result.source ∧
        w.total? m.result.source = some (some m.result.weight) ∧
        ∀ other, w.IsPerfect other → ∃ y, w.total? other = some (some y) ∧
          Scalar.le (goal.signed y) (goal.signed m.result.weight) = true) := by
  intro m
  rcases Nat.eq_zero_or_pos n with rfl | hn
  · exact ⟨iff_of_true (certify_eq_ok_of_empty (result_after_zero calls)) (Or.inl rfl), fun _ h => absurd h (Nat.lt_irrefl 0)⟩
  rcases after_eq (n := n) calls with ⟨hnone, hnew⟩ | ⟨m', goal, w, hlast, hheard, hleft⟩
  · -- No call was heard.
    have hrefused : m.certify ≠ .ok () := certify_ne_ok_of_empty hn (by rw [show m = new n from hnew]; rfl)
    refine ⟨iff_of_false hrefused ?_, fun h => absurd h hrefused⟩
    rw [hnone]
    rintro (rfl | ⟨_, h⟩)
    · exact Nat.lt_irrefl 0 hn
    · exact nomatch h
  have hm : m = (m'.solve goal w).matcher := hleft
  cases hout : (m'.solve goal w).outcome with
  | error e =>
    -- The last call that was heard has failed.
    have hrefused : m.certify ≠ .ok () :=
      certify_ne_ok_of_empty hn (by rw [hm]; exact result_of_solve_eq_error m' goal w hheard hout)
    refine ⟨iff_of_false hrefused ?_, fun h => absurd h hrefused⟩
    rw [hlast, hout]
    rintro (rfl | ⟨_, h⟩)
    · exact Nat.lt_irrefl 0 hn
    · exact nomatch h
  | ok _ =>
    obtain ⟨⟨hsize, hfinite, hedge⟩, hcertify, hdual⟩ := certified_of_solve_exact m' goal w hn hout
    obtain ⟨hbest, htotal⟩ := best_of_solve_exact m' goal hsize hfinite hedge hout
    rw [hout] at hlast
    rw [hm]
    refine ⟨iff_of_true hcertify (Or.inr ⟨_, hlast⟩), fun _ _ => ⟨goal, w, hlast, hdual, hbest.perfect, htotal, ?_⟩⟩
    intro other hother
    obtain ⟨y, hy⟩ := total_of_isPerfect hfinite hother
    exact ⟨y, hy, hbest.best other _ y hother htotal hy⟩

end PrimalDual

end PerfectMatching
