import PerfectMatching.PrimalDual.Certificate
import PerfectMatching.Proofs.Publish
import PerfectMatching.Proofs.Scalar.Sums
import PerfectMatching.Proofs.Search.Numbers

/-!
# When a certificate is accepted

A certificate compares the dual variables and the result of a matcher with the tolerance. Main statements: what it is accepted for, if
the result is a permutation along allowed edges (`certify_eq_ok`), and what the tolerance is taken from (`scale_spec`).
-/

namespace PerfectMatching.PrimalDual

variable {α : Type} [Scalar α] {n : ℕ}

/-! ## The checks -/

omit [Scalar α] in
/-- The shifted weight of an edge between a row and a column of the graph. -/
theorem workAt_eq (m : PrimalDual α n) (i j : Fin n) : m.workAt i j = (m.work.get i).get j := by
  simp [workAt, get_eq_getElem]

/-- The places of the list of a permutation, with their entries. -/
theorem zipIdx_columnsOf (e : Equiv.Perm (Fin n)) :
    (columnsOf e).zipIdx = (List.finRange n).map fun i => ((e i).val, i.val) := by
  refine List.ext_getElem (by simp) fun i hi _ => ?_
  simp [columnsOf]

/-- The shifted weight of a result that is a permutation along allowed edges. -/
theorem primalObjective_eq {m : PrimalDual α n} {e : Equiv.Perm (Fin n)} {weight : Fin n → α}
    (hsource : m.result.source = columnsOf e) (hweight : ∀ i, (m.work.get i).get (e i) = some (weight i)) :
    m.primalObjective = Scalar.sum ((List.finRange n).map weight) := by
  rw [primalObjective, hsource, zipIdx_columnsOf, List.filterMap_map, ← List.filterMap_eq_map]
  congr 2
  funext i
  simp [workAt_eq, hweight]

omit [Scalar α] in
/-- The dual variables of a matcher are those of the rows and those of the columns. -/
theorem duals_eq_map (m : PrimalDual α n) :
    m.duals = (List.finRange n).map m.state.rowDual.get ++ (List.finRange n).map m.state.colDual.get := by
  rw [duals, toList_eq_map_get, toList_eq_map_get]

/-- The certificate of a permutation along allowed edges is accepted if no dual variable is too small, no edge outweighs those at
its ends too much, and the weight of the result reaches the bound up to the tolerance. -/
theorem certify_eq_ok {m : PrimalDual α n} {e : Equiv.Perm (Fin n)} {weight : Fin n → α}
    (hsource : m.result.source = columnsOf e) (hdest : m.result.dest = columnsOf e.symm)
    (hweight : ∀ i, (m.work.get i).get (e i) = some (weight i))
    (hrow : ∀ i, Scalar.lt (m.state.rowDual.get i) (-m.tolerance) = false)
    (hcol : ∀ j, Scalar.lt (m.state.colDual.get j) (-m.tolerance) = false)
    (hedge : ∀ i j w, (m.work.get i).get j = some w →
      Scalar.lt (m.state.rowDual.get i + m.state.colDual.get j) (w - m.tolerance) = false)
    (hobjective : Scalar.lt (m.tolerance * Scalar.max (Scalar.abs (Scalar.sum m.duals)) Scalar.one)
      (Scalar.abs (Scalar.sum ((List.finRange n).map weight) - Scalar.sum m.duals)) = false) :
    m.certify = .ok () := by
  have hinverse : Assignment.areInverse m.result.source m.result.dest = true := by
    rw [hsource, hdest]
    exact areInverse_columnsOf e
  have hduals : (m.duals.any fun x => Scalar.lt x (-m.tolerance)) = false := by
    rw [duals_eq_map, List.any_append, List.any_map, List.any_map, Bool.or_eq_false_iff,
      List.any_eq_false, List.any_eq_false]
    exact ⟨fun i _ => Bool.eq_false_iff.1 (hrow i), fun j _ => Bool.eq_false_iff.1 (hcol j)⟩
  have hfeasible : m.isFeasible m.tolerance = true := by
    simp only [isFeasible, List.all_eq_true, Option.all_eq_true, Bool.not_eq_true']
    exact fun i _ j _ w => hedge i j w
  have hlength : m.result.source.length = n := by rw [hsource, length_columnsOf]
  rw [← primalObjective_eq hsource hweight] at hobjective
  simp [certify, hlength, hinverse, hduals, hfeasible, hobjective]

/-! ## The tolerance -/

omit [Scalar α] in
/-- The weights in a table. -/
theorem mem_entries {work : Table α n} {x : α} :
    x ∈ (work.toList.flatMap Vector.toList).filterMap id ↔ ∃ i j, (work.get i).get j = some x := by
  simp only [toList_eq_map_get, List.mem_filterMap, List.mem_flatMap, List.mem_map, id]
  constructor
  · rintro ⟨_, ⟨_, ⟨i, _, rfl⟩, j, _, rfl⟩, hx⟩
    exact ⟨i, j, hx⟩
  · rintro ⟨i, j, hx⟩
    exact ⟨_, ⟨_, ⟨i, List.mem_finRange i, rfl⟩, j, List.mem_finRange j, rfl⟩, hx⟩

variable [LawfulScalar α]

open LawfulScalar

/-- The largest weight of a table of finite weights, none of which is negative; one if that is larger. -/
theorem scale_spec {m : PrimalDual α n}
    (hfinite : ∀ i j x, (m.work.get i).get j = some x → Scalar.isFinite x = true ∧ 0 ≤ value x) :
    Scalar.isFinite m.scale = true ∧ 1 ≤ value m.scale ∧
      (∀ i j x, (m.work.get i).get j = some x → value x ≤ value m.scale) ∧
      (value m.scale = 1 ∨ ∃ i j x, (m.work.get i).get j = some x ∧ value m.scale = value x) := by
  have hscale : m.scale = (((m.work.toList.flatMap Vector.toList).filterMap id).map Scalar.abs).foldl Scalar.max Scalar.one :=
    List.foldl_map.symm
  have habs : ∀ i j x, (m.work.get i).get j = some x → Scalar.isFinite (Scalar.abs x) = true ∧ value (Scalar.abs x) = value x := by
    intro i j x hx
    obtain ⟨hfin, hval⟩ := abs_spec (hfinite i j x hx).1
    exact ⟨hfin, hval.trans (abs_of_nonneg (hfinite i j x hx).2)⟩
  have hor : m.scale = Scalar.one ∨ ∃ i j x, (m.work.get i).get j = some x ∧ m.scale = Scalar.abs x := by
    rw [hscale]
    refine (List.mem_cons.1 (foldl_mem max_eq_or _ Scalar.one)).imp_right fun h => ?_
    obtain ⟨x, hx, heq⟩ := List.mem_map.1 h
    obtain ⟨i, j, hij⟩ := mem_entries.1 hx
    exact ⟨i, j, x, hij, heq.symm⟩
  have hfin : Scalar.isFinite m.scale = true := by
    rcases hor with h | ⟨i, j, x, hx, h⟩
    · rw [h]
      exact isFinite_one
    · rw [h]
      exact (habs i j x hx).1
  have hle : ∀ {y : α}, Scalar.isFinite y = true →
      y ∈ Scalar.one :: ((m.work.toList.flatMap Vector.toList).filterMap id).map Scalar.abs → value y ≤ value m.scale := by
    intro y hy hmem
    have := le_foldl_max (le_self_of_isFinite hy) hmem
    rwa [← hscale, le_iff hy hfin] at this
  refine ⟨hfin, ?_, fun i j x hx => ?_, hor.imp (fun h => ?_) fun ⟨i, j, x, hx, h⟩ => ⟨i, j, x, hx, ?_⟩⟩
  · rw [← value_one (α := α)]
    exact hle isFinite_one List.mem_cons_self
  · rw [← (habs i j x hx).2]
    exact hle (habs i j x hx).1 (List.mem_cons_of_mem _ (List.mem_map_of_mem (mem_entries.2 ⟨i, j, hx⟩)))
  · rw [h, value_one]
  · rw [h, (habs i j x hx).2]

end PerfectMatching.PrimalDual
