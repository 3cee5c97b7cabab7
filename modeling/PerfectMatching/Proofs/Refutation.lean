import Mathlib.Data.Nat.Cast.Order.Field
import PerfectMatching.Proofs.Margin

/-!
# When there really is no perfect matching

The margin makes giving up a search right as long as rounding leaves it. The range check does not see to that: it accepts weights
so far apart that the margin is lost, and then a call may find no perfect matching although there is one
(`PrimalDual.solve_overlooks`). If the shifted weights still outweigh each other as they should, by more than rounding adds up
to in a search, a call that finds none is right (`PrimalDual.not_hasPerfect_of_solve`), and weights that are small enough always do
(`PrimalDual.solve_iff_of_abs_le`).
-/

namespace PerfectMatching.PrimalDual

open LawfulScalar

variable {n : ℕ}

/-- Shifted binary64 weights keep their margin if `n` least ones outweigh `n - 1` greatest ones by more than rounding adds up to. -/
theorem keepsMargin_of_lt {least greatest : ℚ} (hn : 0 < n) (hpos : 0 < least) (hle : least ≤ greatest)
    (hrange : greatest ≤ 2 ^ 1021)
    (houtweighs : (n - 1) * greatest + (2 * n - 1) * (n ^ 2 + n + 2) * (greatest / 2 ^ 51) < n * least) :
    KeepsMargin Float n least greatest := by
  have hcast : (1 : ℚ) ≤ n := Nat.one_le_cast.2 hn
  have hgreatest : 0 < greatest := hpos.trans_le hle
  have hupdates : ((n * (n + 1) / 2 : ℕ) : ℚ) ≤ (n ^ 2 + n) / 2 := by
    refine Nat.cast_div_le.trans (le_of_eq ?_)
    push_cast
    ring
  have hleeway : leeway Float greatest (n * (n + 1) / 2) ≤ (n ^ 2 + n + 2) * (greatest / 2 ^ 51) := by
    have := mul_le_mul_of_nonneg_left hupdates (show 0 ≤ 2 * (1 / 2 ^ 53 * (4 * greatest)) by positivity)
    rw [leeway, drift, unit_float]
    linarith
  have hscaled := mul_le_mul_of_nonneg_left hleeway (show (0 : ℚ) ≤ 2 * n - 1 by linarith)
  refine ⟨⟨hgreatest.le, fits_float ?_, ?_⟩, by linarith⟩
  · rw [abs_of_nonneg (by linarith)]
    calc 4 * greatest ≤ 4 * 2 ^ 1021 := mul_le_mul_of_nonneg_left hrange (by norm_num)
      _ = 2 ^ 1023 := by rw [show (4 : ℚ) = 2 ^ 2 by norm_num, ← pow_add]
  · -- The leeway is less than the difference of the two sides, which is at most the greatest weight.
    have hproduct : n * least ≤ n * greatest := mul_le_mul_of_nonneg_left hle (by linarith)
    have hleeway0 : 0 ≤ (n ^ 2 + n + 2) * (greatest / 2 ^ 51) := by positivity
    have hone : (n ^ 2 + n + 2) * (greatest / 2 ^ 51) ≤ (2 * n - 1) * ((n ^ 2 + n + 2) * (greatest / 2 ^ 51)) :=
      le_mul_of_one_le_left hleeway0 (by linarith)
    linarith

/-- A call that finds no perfect matching of finite binary64 weights is right, unless an edge is forbidden and the shifted weights
are out of range for the sums of a search or have lost their margin. -/
theorem not_hasPerfect_of_solve (m : PrimalDual Float n) (goal : Goal) (w : Weights Float) (hfinite : w.IsFinite) {k l : ℕ}
    (hsolve : (m.solve goal w).outcome = .error (.noPerfectMatching k l))
    (hkeeps : w.anyForbidden = true → ∀ least greatest, bounds? goal w = some (least, greatest) →
      value (greatest - offsetOf w least greatest) ≤ 2 ^ 1021 ∧
        (n - 1) * value (greatest - offsetOf w least greatest) +
            (2 * n - 1) * (n ^ 2 + n + 2) * (value (greatest - offsetOf w least greatest) / 2 ^ 51) <
          n * value (least - offsetOf w least greatest)) :
    ¬w.HasPerfect := by
  have hcalled := called_solve m goal w
  revert hsolve
  generalize hr : m.solve goal w = r at hcalled
  intro hsolve
  cases hcalled with
  | mismatched _ => exact nomatch hsolve
  | trivial _ _ => exact nomatch hsolve
  | noEdge _ _ _ => exact nomatch hsolve
  | unshiftable _ _ _ _ => exact nomatch hsolve
  | @searched least greatest h hn hbounds hshift hended =>
    obtain ⟨_, _, hpos, hle⟩ := between_shift hbounds hshift h
    have hkeeps' : w.anyForbidden = false ∨ KeepsMargin Float n (value (least - offsetOf w least greatest))
        (value (greatest - offsetOf w least greatest)) := by
      cases hforbidden : w.anyForbidden with
      | false => exact Or.inl rfl
      | true =>
        obtain ⟨hrange, houtweighs⟩ := hkeeps hforbidden least greatest hbounds
        exact Or.inr (keepsMargin_of_lt hn hpos hle hrange houtweighs)
    intro hperfect
    have hok := (solve_iff m h hn hfinite hbounds hshift hkeeps').1.2 hperfect
    rw [hr, hsolve] at hok
    exact nomatch hok

/-- In a matrix whose second column is forbidden there is no perfect matching, and the call that says so is right. -/
theorem not_hasPerfect_of_solve_column :
    let w : Weights Float := ⟨2, #v[some (Float.ofBits 0x3ff0000000000000), none, some (Float.ofBits 0x3ff0000000000000), none]⟩
    w.IsFinite ∧ ((new 2 : PrimalDual Float 2).solve .max w).outcome = .error (.noPerfectMatching 1 2) ∧ ¬w.HasPerfect := by
  intro w
  have hfinite : w.IsFinite := by
    unfold Weights.IsFinite
    decide +kernel
  have hsolve : ((new 2 : PrimalDual Float 2).solve .max w).outcome = .error (.noPerfectMatching 1 2) := by decide +kernel
  have hbounds : bounds? .max w = some (Float.ofBits 0x3ff0000000000000, Float.ofBits 0x3ff0000000000000) := by decide +kernel
  have hshifted : value (Float.ofBits 0x3ff0000000000000 -
      offsetOf w (Float.ofBits 0x3ff0000000000000) (Float.ofBits 0x3ff0000000000000)) = 1 := by decide +kernel
  refine ⟨hfinite, hsolve, not_hasPerfect_of_solve (new 2) .max w hfinite hsolve fun _ least greatest h => ?_⟩
  obtain ⟨rfl, rfl⟩ := Prod.mk.inj (Option.some.inj (hbounds.symm.trans h))
  rw [hshifted]
  exact ⟨one_le_pow₀ one_le_two, by norm_num⟩

/-- The weights `-2 ^ 53`, `0` and `1`, with the fourth edge forbidden, pass the range check, and a call for the least total finds no
perfect matching although the other diagonal is one. -/
theorem solve_overlooks :
    ∃ w : Weights Float, w.IsFinite ∧ w.HasPerfect ∧
      ((new 2 : PrimalDual Float 2).solve .min w).outcome = .error (.noPerfectMatching 1 2) := by
  refine ⟨⟨2, #v[some (Float.ofBits 0xc340000000000000), some (Float.ofBits 0), some (Float.ofBits 0x3ff0000000000000), none]⟩,
    ?_, ⟨[1, 0], by decide, ?_⟩, by decide +kernel⟩
  · unfold Weights.IsFinite
    decide +kernel
  · unfold Weights.Allows
    decide +kernel

/-- On finite binary64 weights that are small enough a call never refuses its input: it succeeds exactly if there is a perfect
matching, and finds none exactly if there is none. -/
theorem solve_iff_of_abs_le (m : PrimalDual Float n) (goal : Goal) (w : Weights Float) (h : w.n = n) (hn : 0 < n)
    (hfinite : w.IsFinite) (hedge : w.allowed ≠ []) {bound : ℚ} (hbound : ∀ x ∈ w.allowed, |value x| ≤ bound)
    (hpow : n ^ 4 * (bound + 1) ≤ 2 ^ 45) :
    ((m.solve goal w).outcome = .ok () ↔ w.HasPerfect) ∧
      ((∃ k, (m.solve goal w).outcome = .error (.noPerfectMatching k n)) ↔ ¬w.HasPerfect) := by
  subst h
  obtain ⟨least, greatest, hbounds, hleast, hgreatest, hle⟩ := exists_bounds hfinite hedge goal
  have habs : ∀ x ∈ w.allowed.map goal.signed, |value x| ≤ bound := by
    intro x hx
    obtain ⟨y, hy, rfl⟩ := List.mem_map.1 hx
    rw [abs_value_signed goal (hfinite y hy)]
    exact hbound y hy
  have hlb := habs _ (bounds_spec hbounds).1
  have hgb := habs _ (bounds_spec hbounds).2.1
  refine solve_iff m rfl hn hfinite hbounds (isShiftable_of_abs_le hn hleast hgreatest hle hlb hgb hpow) ?_
  cases hforbidden : w.anyForbidden with
  | false => exact Or.inl rfl
  | true => exact Or.inr (keepsMargin_of_abs_le hn hleast hgreatest hle hlb hgb hpow hforbidden)

end PerfectMatching.PrimalDual
