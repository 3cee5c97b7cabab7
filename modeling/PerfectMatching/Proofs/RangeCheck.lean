import PerfectMatching.Proofs.Built
import PerfectMatching.Proofs.Reuse

/-!
# What the range check keeps out

The range check looks at the least and the greatest weight only, and undefined weights are passed over when these are looked for. It
would let a matrix pass in which an undefined weight stands beside finite ones, but there is none that can be built
(`Weights.Built.definedOrNotFinite`). So all weights that pass are finite (`isFinite_of_built`), the table that is searched holds finite
and positive weights in the places of the edges that are allowed (`get_shift_of_isFinite`), and what is not finite is refused before
the search (`solve_of_built`).
-/

namespace PerfectMatching.PrimalDual

open Binary64 LawfulScalar

/-- Undefined weights are undefined as the goal sees them, and no others are. -/
theorem isNaN_signed (goal : Goal) (x : Float) : (goal.signed x).isNaN = x.isNaN := by
  cases goal with
  | max => rfl
  | min => exact isNaN_neg x

/-- Weights of a matrix that can be built are finite if they pass the range check. -/
theorem isFinite_of_built {goal : Goal} {w : Weights Float} {least greatest offset : Float} (hw : w.Built)
    (h : bounds? goal w = some (least, greatest)) (hshift : isShiftable least greatest offset = true) : w.IsFinite := by
  rcases hw.definedOrNotFinite with hdefined | hnot
  · intro x hx
    have hself : Scalar.le (goal.signed x) (goal.signed x) = true := le_self_iff.2 ((isNaN_signed goal x).trans (hdefined x hx))
    rw [← isFinite_signed goal]
    exact isFinite_of_defined h hshift hx hself
  · -- The least weight is one of those that are not finite, and the check finds it finite.
    obtain ⟨x, hx, rfl⟩ := List.mem_map.1 (bounds_spec h).1
    have hleast := (isFinite_of_isShiftable h hshift).1
    rw [isFinite_signed] at hleast
    exact Bool.noConfusion ((hnot x hx).symm.trans hleast)

/-- If finite weights pass the range check, the shifted table has nothing exactly in the places of the edges that are forbidden, and
finite and positive weights in all others. -/
theorem get_shift_of_isFinite {α : Type} [Scalar α] [LawfulScalar α] {n : ℕ} {goal : Goal} {w : Weights α}
    {least greatest offset : α} (hfinite : w.IsFinite) (h : bounds? goal w = some (least, greatest))
    (hshift : isShiftable least greatest offset = true) (hn : w.n = n) (i j : Fin n) :
    (((shift goal offset w hn).get i).get j = none ↔ w.edge (i.cast hn.symm) (j.cast hn.symm) = none) ∧
      ∀ x, ((shift goal offset w hn).get i).get j = some x → Scalar.isFinite x = true ∧ Scalar.positive x = true := by
  rw [get_shift]
  refine ⟨Option.map_eq_none_iff, fun x hx => ?_⟩
  obtain ⟨y, hy, rfl⟩ := Option.map_eq_some_iff.1 hx
  have hmem := Weights.mem_allowed_of_edge hy
  have hyfin : Scalar.isFinite (goal.signed y) = true := (isFinite_signed goal y).trans (hfinite y hmem)
  obtain ⟨hxfin, hge, _⟩ := isFinite_sub_offset_of_defined h hshift hmem (le_self_of_isFinite hyfin)
  obtain ⟨_, _, hpos, _⟩ := between_shift h hshift hn
  exact ⟨hxfin, (positive_iff hxfin).2 (hpos.trans_le hge)⟩

/-- A matrix that can be built and holds a weight that is not finite is refused, and only the result of the matcher is cleared. -/
theorem solve_of_not_finite {w : Weights Float} (m : PrimalDual Float w.n) (goal : Goal) (hw : w.Built) {x : Float}
    (hx : x ∈ w.allowed) (hnot : x.isFinite = false) :
    ∃ least greatest, m.solve goal w = ⟨.error (.unshiftable least greatest), m.cleared, []⟩ := by
  have hcalled := called_solve m goal w
  generalize m.solve goal w = r at hcalled ⊢
  cases hcalled with
  | mismatched hne => exact absurd rfl hne
  | trivial _ hzero =>
    obtain ⟨i, _⟩ := Weights.exists_edge_of_mem_allowed hx
    exact absurd i.isLt (by omega)
  | noEdge _ _ hnil => simp [hnil] at hx
  | unshiftable _ _ _ _ => exact ⟨_, _, rfl⟩
  | searched _ _ hbounds hshift _ => exact Bool.noConfusion (hnot.symm.trans (isFinite_of_built hw hbounds hshift x hx))

/-- After a call that is searched for, the matcher holds the table of shifted weights that has passed the range check. -/
theorem exists_work_of_isSearched {α : Type} [Scalar α] {n : ℕ} (m : PrimalDual α n) {goal : Goal} {w : Weights α}
    (h : isSearched n (goal, w) = true) :
    ∃ least greatest, ∃ hn : w.n = n, bounds? goal w = some (least, greatest) ∧
      isShiftable least greatest (offsetOf w least greatest) = true ∧
      (m.solve goal w).matcher.work = shift goal (offsetOf w least greatest) w hn := by
  cases acts n goal w with
  | mismatched hnot _ => exact Bool.noConfusion (hnot.symm.trans h)
  | cleared _ hnot _ _ _ => exact Bool.noConfusion (hnot.symm.trans h)
  | @searched least greatest hn _ hbounds hshift heq =>
    refine ⟨least, greatest, hn, hbounds, hshift, ?_⟩
    rw [heq m]
    exact (searched_searchTable goal _ _).work_eq

/-- A call never searches weights that are not finite. If a matrix that can be built holds one, the call finds the weights out of range
and only clears the result of the matcher. If the weights pass the range check, the matcher holds nothing exactly in the places of the
edges that are forbidden, and finite and positive weights in all others. -/
theorem solve_of_built {w : Weights Float} (m : PrimalDual Float w.n) (goal : Goal) (hw : w.Built) :
    let r := m.solve goal w
    ((∃ x ∈ w.allowed, x.isFinite = false) → ∃ least greatest, r = ⟨.error (.unshiftable least greatest), m.cleared, []⟩) ∧
    (isSearched w.n (goal, w) = true → ∀ i j,
      ((r.matcher.work.get i).get j = none ↔ w.edge i j = none) ∧
        ∀ x, (r.matcher.work.get i).get j = some x → x.isFinite = true ∧ Scalar.positive x = true) := by
  intro r
  refine ⟨fun ⟨x, hx, hnot⟩ => solve_of_not_finite m goal hw hx hnot, fun hsearched i j => ?_⟩
  obtain ⟨least, greatest, hn, hbounds, hshift, hwork⟩ := exists_work_of_isSearched m hsearched
  have hfinite : w.IsFinite := isFinite_of_built hw hbounds hshift
  rw [show r.matcher.work = shift goal (offsetOf w least greatest) w hn from hwork]
  exact get_shift_of_isFinite hfinite hbounds hshift hn i j

/-- Three weights that pass the range check, and what a shift that leads one of them out of the finite numbers makes of them, turned into
opposites and shifted by infinity: undefined beside infinite ones. -/
theorem solve_of_built_infinite :
    let v : Weights Float := .ofFn 2 fun i j => if i = 0 then if j = 0 then some 1e307 else none else some (.ofNat j)
    let w := ((v.shifted 1.79e308).negated).shifted Scalar.infinity
    v.Built ∧ isSearched v.n (.min, v) = true ∧
      (∀ i j x, (((new v.n).solve .min v).matcher.work.get i).get j = some x → x.isFinite = true ∧ Scalar.positive x = true) ∧
      w.Built ∧ w.allowed.map Float.isNaN = [true, false, false] ∧
      ∀ goal, ∃ least greatest, ((new w.n).solve goal w).outcome = .error (.unshiftable least greatest) := by
  intro v w
  have hv : v.Built := ⟨v, [], .ofFn 2 _, rfl⟩
  have hw : w.Built := ⟨v, [.shift 1.79e308, .negate, .shift Scalar.infinity], .ofFn 2 _, rfl⟩
  have hsearched : isSearched v.n (.min, v) = true := by decide +kernel
  have hinfinite : ∃ x ∈ w.allowed, x.isFinite = false := by decide +kernel
  refine ⟨hv, hsearched, fun i j => ((solve_of_built (new v.n) .min hv).2 hsearched i j).2, hw, by decide +kernel, fun goal => ?_⟩
  obtain ⟨least, greatest, heq⟩ := (solve_of_built (new w.n) goal hw).1 hinfinite
  exact ⟨least, greatest, congrArg Solved.outcome heq⟩

end PerfectMatching.PrimalDual
