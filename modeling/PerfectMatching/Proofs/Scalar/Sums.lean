import Mathlib.Algebra.BigOperators.Group.List.Basic
import Mathlib.Algebra.Order.BigOperators.Group.List
import Mathlib.Algebra.Order.BigOperators.Group.Multiset
import Mathlib.Data.List.Induction
import Mathlib.Tactic.Ring
import PerfectMatching.Proofs.Scalar.Extrema

/-!
# Sums and magnitudes

A sum of weights is rounded once for every weight, each time by at most twice the unit of what their magnitudes add up to, as long as
there are not too many of them (`abs_sum_sub_le`; `sum_near` for weights that are not negative). A sum is finite only if its terms are
(`isFinite_of_sum`), and if these are small enough (`isFinite_sum`). The magnitude of a weight is not rounded (`abs_spec`).
-/

namespace PerfectMatching

variable {α : Type} [Scalar α]

/-- One more weight in a sum. -/
theorem Scalar.sum_concat (xs : List α) (x : α) : Scalar.sum (xs ++ [x]) = Scalar.sum xs + x := by
  simp [Scalar.sum]

namespace LawfulScalar

variable [LawfulScalar α]

/-- The magnitude of a finite weight. -/
theorem abs_spec {x : α} (h : Scalar.isFinite x = true) :
    Scalar.isFinite (Scalar.abs x) = true ∧ value (Scalar.abs x) = |value x| := by
  have hlt := lt_iff_value h isFinite_zero
  rw [value_zero] at hlt
  unfold Scalar.abs
  split
  · rename_i hneg
    exact ⟨(isFinite_neg x).trans h, by rw [value_neg h, abs_of_neg (hlt.1 hneg)]⟩
  · rename_i hneg
    exact ⟨h, (abs_of_nonneg (not_lt.1 fun h => hneg (hlt.2 h))).symm⟩

/-- The greater of two finite weights. -/
theorem max_spec {x y : α} (hx : Scalar.isFinite x = true) (hy : Scalar.isFinite y = true) :
    Scalar.isFinite (Scalar.max x y) = true ∧ value (Scalar.max x y) = max (value x) (value y) := by
  have hlt := lt_iff_value hx hy
  unfold Scalar.max
  rw [le_self_of_isFinite hx, Bool.not_true, Bool.or_false]
  split
  · rename_i h
    exact ⟨hy, (max_eq_right (hlt.1 h).le).symm⟩
  · rename_i h
    exact ⟨hx, (max_eq_left (not_lt.1 fun h' => h (hlt.2 h'))).symm⟩

/-- The terms of a finite sum are finite. -/
theorem isFinite_of_sum {xs : List α} (h : Scalar.isFinite (Scalar.sum xs) = true) : ∀ x ∈ xs, Scalar.isFinite x = true := by
  induction xs using List.reverseRecOn with
  | nil => exact nofun
  | append_singleton xs x ih =>
    rw [Scalar.sum_concat] at h
    obtain ⟨hxs, hx⟩ := isFinite_of_add h
    intro y hy
    rcases List.mem_append.1 hy with hy | hy
    · exact ih hxs y hy
    · rwa [List.mem_singleton.1 hy]

/-- A sum of weights that errs by little enough, and one more weight, together are at most twice what all magnitudes add up to. -/
theorem abs_sum_add_le {xs : List α} {x : α} {bound : ℚ} (hbound : (xs.map fun x => |value x|).sum + |value x| ≤ bound)
    (hlength : 2 * unit α * (xs.length + 1) ≤ 1)
    (herr : |value (Scalar.sum xs) - (xs.map value).sum| ≤ 2 * unit α * xs.length * bound) :
    |value (Scalar.sum xs) + value x| ≤ 2 * bound := by
  have hexact : |(xs.map value).sum| ≤ (xs.map fun x => |value x|).sum := by
    have := Multiset.abs_sum_le_sum_abs (s := (xs.map value : Multiset ℚ))
    rwa [Multiset.sum_coe, Multiset.map_coe, Multiset.sum_coe, List.map_map] at this
  have hbound0 : 0 ≤ bound := by linarith [(abs_nonneg _).trans hexact, abs_nonneg (value x)]
  have hsmall : 2 * unit α * xs.length * bound ≤ bound := by
    have := mul_le_mul_of_nonneg_right hlength hbound0
    have := mul_nonneg (unit_nonneg (α := α)) hbound0
    linarith
  calc |value (Scalar.sum xs) + value x|
      = |value (Scalar.sum xs) - (xs.map value).sum + ((xs.map value).sum + value x)| := by ring_nf
    _ ≤ |value (Scalar.sum xs) - (xs.map value).sum| + (|(xs.map value).sum| + |value x|) :=
        (abs_add_le _ _).trans (add_le_add_right (abs_add_le _ _) _)
    _ ≤ 2 * bound := by linarith

/-- A finite sum of weights is close to the exact one: rounding changes it once for every weight, each time by at most twice the
unit of what all magnitudes add up to. -/
theorem abs_sum_sub_le {xs : List α} (hfin : Scalar.isFinite (Scalar.sum xs) = true) {bound : ℚ}
    (hbound : (xs.map fun x => |value x|).sum ≤ bound) (hlength : 2 * unit α * xs.length ≤ 1) :
    |value (Scalar.sum xs) - (xs.map value).sum| ≤ 2 * unit α * xs.length * bound := by
  have hunit : 0 ≤ unit α := unit_nonneg
  induction xs using List.reverseRecOn with
  | nil =>
    rw [Scalar.sum, List.foldl_nil, value_neg isFinite_zero, value_zero]
    simp
  | append_singleton xs x ih =>
    rw [Scalar.sum_concat] at hfin ⊢
    obtain ⟨hxs, hx⟩ := isFinite_of_add hfin
    rw [List.map_append, List.sum_append, List.map_singleton, List.sum_singleton] at hbound ⊢
    rw [List.length_append, List.length_singleton, Nat.cast_add, Nat.cast_one] at hlength ⊢
    have herr := ih hxs (by linarith [abs_nonneg (value x)]) (by linarith)
    have hround := rounded_add_sub_le hxs hx
    rw [← value_add hfin] at hround
    have herr2 := abs_le.1 (hround.trans (mul_le_mul_of_nonneg_left (abs_sum_add_le hbound hlength herr) hunit))
    have herr := abs_le.1 herr
    exact abs_le.2 ⟨by linarith, by linarith⟩

/-- A sum of finite weights is finite if twice what their magnitudes add up to is in range. -/
theorem isFinite_sum {xs : List α} (hxs : ∀ x ∈ xs, Scalar.isFinite x = true) {bound : ℚ}
    (hbound : (xs.map fun x => |value x|).sum ≤ bound) (hfits : Fits α (2 * bound)) (hlength : 2 * unit α * xs.length ≤ 1) :
    Scalar.isFinite (Scalar.sum xs) = true := by
  have hunit : 0 ≤ unit α := unit_nonneg
  induction xs using List.reverseRecOn with
  | nil =>
    rw [Scalar.sum, List.foldl_nil, isFinite_neg]
    exact isFinite_zero
  | append_singleton xs x ih =>
    rw [List.map_append, List.sum_append, List.map_singleton, List.sum_singleton] at hbound
    rw [List.length_append, List.length_singleton, Nat.cast_add, Nat.cast_one] at hlength
    have hprefix : (xs.map fun x => |value x|).sum ≤ bound := by linarith [abs_nonneg (value x)]
    have hfin := ih (fun y hy => hxs y (List.mem_append_left _ hy)) hprefix (by linarith)
    have hx := hxs x (List.mem_append_right _ (List.mem_singleton_self x))
    rw [Scalar.sum_concat]
    refine (isFinite_add hfin hx).2 (fits_of_abs_le ?_ hfits)
    exact (abs_sum_add_le hbound hlength (abs_sum_sub_le hfin hprefix (by linarith))).trans (le_abs_self _)

/-- Adding finite weights that are not negative from the left keeps close to the exact sum. -/
theorem sum_near {xs : List α} (hxs : ∀ x ∈ xs, Scalar.isFinite x = true ∧ 0 ≤ value x) {bound : ℚ}
    (hbound : (xs.map value).sum ≤ bound) (hfits : Fits α (2 * bound)) (hlength : 2 * unit α * xs.length ≤ 1) :
    Scalar.isFinite (Scalar.sum xs) = true ∧
      |value (Scalar.sum xs) - (xs.map value).sum| ≤ 2 * unit α * xs.length * bound := by
  have habs : (xs.map fun x => |value x|).sum ≤ bound := by
    rwa [List.map_congr_left fun x hx => abs_of_nonneg (hxs x hx).2]
  have hfin := isFinite_sum (fun x hx => (hxs x hx).1) habs hfits hlength
  exact ⟨hfin, abs_sum_sub_le hfin habs hlength⟩
end LawfulScalar

end PerfectMatching
