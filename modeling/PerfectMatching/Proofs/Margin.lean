import PerfectMatching.Proofs.Binary64.Lawful
import PerfectMatching.Proofs.Completeness

/-!
# The margin on binary64 numbers

The margin, the offset and the shifted weights are rounded one after the other. For weights of magnitude at most `bound`, all of
these numbers are at most `4 * n * (bound + 1)`, and what rounding adds up to is small enough to leave the margin as long as
`n ^ 4 * (bound + 1)` is at most `2 ^ 45` (`keepsMargin_of_abs_le`).
-/

namespace PerfectMatching.PrimalDual

open LawfulScalar

/-- Rounding changes a binary64 number by at most `2 ^ -53` of it. -/
theorem unit_float : unit Float = 1 / 2 ^ 53 := rfl

/-- A number of at most `2 ^ 1023` is in range. -/
theorem fits_float {q : ℚ} (h : |q| ≤ 2 ^ 1023) : Fits Float q := by
  have hvalue : Binary64.nearest (2 ^ 1023) = 2 ^ 1023 := by
    refine Binary64.nearest_eq_self ⟨1, 1023, by norm_num, by norm_num, ?_⟩
    rw [Int.cast_one, one_mul]
    exact (zpow_natCast 2 1023).symm
  have hpos : (0 : ℚ) < 2 ^ 1023 := by positivity
  refine fits_of_abs_le (h.trans (le_abs_self _)) (?_ : |Binary64.nearest (2 ^ 1023)| < 2 ^ 1024)
  rw [hvalue, abs_of_pos hpos]
  exact pow_lt_pow_right₀ one_lt_two (by norm_num)

/-- How much rounding changes a multiple that is bounded by a number in range. -/
theorem value_mul_of_abs_le {k : ℕ} {y : Float} {bound : ℚ} (hk : k < 2 ^ 53) (hy : Scalar.isFinite y = true)
    (hmul : |k * value y| ≤ bound) (hbound : Fits Float bound) :
    Scalar.isFinite (Scalar.ofNat k * y) = true ∧ |value (Scalar.ofNat k * y) - k * value y| ≤ unit Float * bound := by
  have happrox := Binary64.approximates_mul (isFinite_ofNat (α := Float) hk) hy
  have hval : Binary64.value (Scalar.ofNat k : Float) = k := value_ofNat (α := Float) hk
  rw [hval] at happrox
  have hfits : Fits Float (k * Binary64.value y) := fits_of_abs_le (hmul.trans (le_abs_self _)) hbound
  obtain ⟨hfin, hrounded⟩ := happrox.unpacked_of_lt hfits
  obtain ⟨l, hl⟩ := (Binary64.representable_number (Binary64.canonical y)).multiple
  have herr := Binary64.abs_nearest_sub_le (k * l)
  have hmultiple : (k : ℚ) * Binary64.value y = ((k * l : ℤ) : ℚ) * 2 ^ (-1074 : ℤ) := by
    rw [Binary64.value, hl, Int.cast_mul, Int.cast_natCast, mul_assoc]
  rw [← hmultiple, ← hrounded, div_eq_inv_mul, ← one_div] at herr
  exact ⟨hfin, herr.trans (mul_le_mul_of_nonneg_left hmul (unit_nonneg (α := Float)))⟩

/-! ## Rounding errors -/

/-- The exact margin for a span of so much. -/
def exactMargin (w : Weights Float) (span : ℚ) : ℚ := if w.anyForbidden then (w.n - 1) * span + 1 else 1

section Errors

variable {w : Weights Float} {p q : Float} {bound err : ℚ}

/-- All numbers of the shift are at most a quarter of a number that is in range, and rounding changes each by at most `err`. -/
structure Small (w : Weights Float) (p q : Float) (bound err : ℚ) : Prop where
  pos : 0 < w.n
  finite_least : Scalar.isFinite p = true
  finite_greatest : Scalar.isFinite q = true
  le : value p ≤ value q
  abs_least : |value p| ≤ bound
  abs_greatest : |value q| ≤ bound
  le_pow : 4 * (w.n * (bound + 1)) ≤ 2 ^ 52
  err_eq : err = unit Float * (4 * (w.n * (bound + 1)))
  err_le : err ≤ 1 / 16

/-- The size of the numbers. -/
theorem Small.size (h : Small w p q bound err) :
    0 ≤ bound ∧ (1 : ℚ) ≤ w.n ∧ 0 ≤ err ∧ bound + 1 ≤ w.n * (bound + 1) ∧ Fits Float (4 * (w.n * (bound + 1))) := by
  have hbound : 0 ≤ bound := (abs_nonneg _).trans h.abs_least
  have hn : (1 : ℚ) ≤ w.n := Nat.one_le_cast.2 h.pos
  have hle : bound + 1 ≤ w.n * (bound + 1) := le_mul_of_one_le_left (by linarith) hn
  refine ⟨hbound, hn, ?_, hle, fits_float ?_⟩
  · rw [h.err_eq]
    exact mul_nonneg unit_nonneg (by linarith)
  · rw [abs_of_nonneg (by linarith)]
    exact h.le_pow.trans (pow_le_pow_right₀ one_le_two (by norm_num))

/-- The exact margin and one more span are at most half of the numbers of the shift. -/
theorem Small.exactMargin_bounds (h : Small w p q bound err) :
    1 ≤ exactMargin w (value q - value p) ∧
      exactMargin w (value q - value p) + (value q - value p) ≤ 2 * (w.n * (bound + 1)) := by
  obtain ⟨hbound, hn, _, hle, _⟩ := h.size
  have hp := abs_le.1 h.abs_least
  have hq := abs_le.1 h.abs_greatest
  have hspan : 0 ≤ value q - value p := sub_nonneg.2 h.le
  have hproduct : (w.n : ℚ) * (value q - value p) ≤ w.n * (2 * bound) :=
    mul_le_mul_of_nonneg_left (by linarith) (by linarith)
  rw [exactMargin]
  split
  · exact ⟨by nlinarith, by nlinarith⟩
  · exact ⟨le_rfl, by linarith⟩

/-- The span is rounded by so little that `n - 1` times as much is still small. -/
theorem Small.span (h : Small w p q bound err) :
    Scalar.isFinite (q - p) = true ∧ 0 ≤ value (q - p) ∧
      |(w.n - 1) * value (q - p) - (w.n - 1) * (value q - value p)| ≤ err := by
  obtain ⟨hbound, hn, _, hle, hfits⟩ := h.size
  have hspan0 : 0 ≤ value q - value p := sub_nonneg.2 h.le
  have hspan : value q - value p ≤ 2 * (bound + 1) := by
    linarith [(abs_le.1 h.abs_least).1, (abs_le.1 h.abs_greatest).2]
  obtain ⟨hfin, herr⟩ := value_sub_of_abs_le h.finite_greatest h.finite_least
    (show |value q - value p| ≤ 2 * (bound + 1) by rwa [abs_of_nonneg hspan0])
    (fits_of_abs_le (by rw [abs_of_nonneg (by linarith), abs_of_nonneg (by linarith)]; linarith) hfits)
  refine ⟨hfin, ?_, ?_⟩
  · rw [value_sub hfin]
    exact rounded_nonneg hspan0
  · rw [← mul_sub, abs_mul, abs_of_nonneg (by linarith : (0 : ℚ) ≤ w.n - 1), h.err_eq]
    refine (mul_le_mul_of_nonneg_left herr (by linarith)).trans ?_
    rw [mul_left_comm]
    exact mul_le_mul_of_nonneg_left (by linarith) (unit_nonneg (α := Float))

/-- The multiple of the span is nearly exact. -/
theorem Small.product (h : Small w p q bound err) (hforbidden : w.anyForbidden = true) :
    Scalar.isFinite (Scalar.ofNat (w.n - 1) * (q - p)) = true ∧
      |value (Scalar.ofNat (w.n - 1) * (q - p)) - (w.n - 1) * (value q - value p)| ≤ 2 * err := by
  obtain ⟨hbound, hn, herr, hle, hfits⟩ := h.size
  have hcast : ((w.n - 1 : ℕ) : ℚ) = w.n - 1 := Nat.cast_pred h.pos
  have hsmall : w.n - 1 < 2 ^ 53 := by
    have hcasts : ((w.n : ℕ) : ℚ) < ((2 ^ 53 : ℕ) : ℚ) := by
      push_cast
      linarith [h.le_pow, le_mul_of_one_le_right (show (0 : ℚ) ≤ w.n by linarith) (show 1 ≤ bound + 1 by linarith)]
    have := Nat.cast_lt.1 hcasts
    omega
  obtain ⟨hmargin1, hmargin2⟩ := h.exactMargin_bounds
  rw [exactMargin, if_pos hforbidden] at hmargin1 hmargin2
  obtain ⟨hspanfin, hspan0, hscaled⟩ := h.span
  have hscaled := abs_le.1 hscaled
  have hspan := sub_nonneg.2 h.le
  have herr1 := h.err_le
  have hproduct0 : 0 ≤ (w.n - 1) * value (q - p) := mul_nonneg (by linarith) hspan0
  obtain ⟨hfin, hmulerr⟩ := value_mul_of_abs_le hsmall hspanfin
    (show |((w.n - 1 : ℕ) : ℚ) * value (q - p)| ≤ 4 * (w.n * (bound + 1)) by
      rw [hcast, abs_of_nonneg hproduct0]; linarith) hfits
  rw [hcast, ← h.err_eq] at hmulerr
  have hmulerr := abs_le.1 hmulerr
  exact ⟨hfin, abs_le.2 ⟨by linarith, by linarith⟩⟩

/-- The margin is nearly exact. -/
theorem Small.margin (h : Small w p q bound err) :
    Scalar.isFinite (margin w p q) = true ∧ |value (margin w p q) - exactMargin w (value q - value p)| ≤ 3 * err := by
  obtain ⟨_, _, herr, _, hfits⟩ := h.size
  have hmargin := h.exactMargin_bounds
  rw [PrimalDual.margin]
  rw [exactMargin] at hmargin ⊢
  split at hmargin
  · rename_i hforbidden
    obtain ⟨hmulfin, hmulerr⟩ := h.product hforbidden
    have hmulerr := abs_le.1 hmulerr
    have hspan := sub_nonneg.2 h.le
    have herr1 := h.err_le
    obtain ⟨haddfin, hadderr⟩ := value_add_of_abs_le hmulfin isFinite_one
      (show |value (Scalar.ofNat (w.n - 1) * (q - p)) + value Scalar.one| ≤ 4 * (w.n * (bound + 1)) by
        rw [value_one, abs_le]; constructor <;> linarith) hfits
    rw [value_one, ← h.err_eq] at hadderr
    have hadderr := abs_le.1 hadderr
    rw [if_pos hforbidden, if_pos hforbidden]
    exact ⟨haddfin, abs_le.2 ⟨by linarith, by linarith⟩⟩
  · rename_i hforbidden
    rw [if_neg hforbidden, if_neg hforbidden, value_one, sub_self, abs_zero]
    exact ⟨isFinite_one, by linarith⟩

/-- The least weight is nearly shifted to the exact margin, and the greatest one to a span more. -/
theorem Small.shifted (h : Small w p q bound err) :
    (Scalar.isFinite (p - offsetOf w p q) = true ∧ Scalar.isFinite (q - offsetOf w p q) = true) ∧
      |value (p - offsetOf w p q) - exactMargin w (value q - value p)| ≤ 5 * err ∧
      |value (q - offsetOf w p q) - (exactMargin w (value q - value p) + (value q - value p))| ≤ 5 * err := by
  obtain ⟨hbound, hn, herr, hle, hfits⟩ := h.size
  obtain ⟨hmargin1, hmargin2⟩ := h.exactMargin_bounds
  obtain ⟨hfin, hmargin⟩ := h.margin
  have hmargin := abs_le.1 hmargin
  have hp := abs_le.1 h.abs_least
  have hq := abs_le.1 h.abs_greatest
  have hspan := h.le
  have herr1 := h.err_le
  obtain ⟨hofffin, hofferr⟩ := value_sub_of_abs_le h.finite_least hfin
    (show |value p - value (PrimalDual.margin w p q)| ≤ 4 * (w.n * (bound + 1)) by
      rw [abs_le]; constructor <;> linarith) hfits
  rw [← h.err_eq] at hofferr
  have hofferr := abs_le.1 hofferr
  have hshifted : ∀ x : Float, Scalar.isFinite x = true → value p ≤ value x → value x ≤ value q →
      Scalar.isFinite (x - offsetOf w p q) = true ∧
        |value (x - offsetOf w p q) - (value x - value (offsetOf w p q))| ≤ err := by
    intro x hx hpx hxq
    rw [h.err_eq]
    refine value_sub_of_abs_le hx hofffin ?_ hfits
    rw [offsetOf, abs_le]
    constructor <;> linarith
  obtain ⟨hlfin, hleast⟩ := hshifted p h.finite_least le_rfl h.le
  have hleast := abs_le.1 hleast
  obtain ⟨hgfin, hgreatest⟩ := hshifted q h.finite_greatest h.le le_rfl
  have hgreatest := abs_le.1 hgreatest
  rw [offsetOf] at *
  exact ⟨⟨hlfin, hgfin⟩, abs_le.2 ⟨by linarith, by linarith⟩, abs_le.2 ⟨by linarith, by linarith⟩⟩

end Errors

/-! ## Small weights -/

section SmallWeights

variable {w : Weights Float} {p q : Float} {bound : ℚ}

/-- The number of updates is at most twice the square of the number of rows. -/
theorem updates_succ_le {n : ℕ} (hn : 0 < n) : ((n * (n + 1) / 2 : ℕ) : ℚ) + 1 ≤ 2 * n ^ 2 := by
  have h : n * (n + 1) / 2 + 1 ≤ 2 * n ^ 2 := by
    have h1 : n * (n + 1) / 2 ≤ n * (n + 1) / 1 := Nat.div_le_div_left one_le_two one_pos
    have h2 : n * (n + 1) / 2 * 2 ≤ n * (n + 1) := Nat.div_mul_le_self _ _
    nlinarith
  exact_mod_cast h

/-- Weights that are small enough are small. -/
theorem small_of_abs_le (hn : 0 < w.n) (hp : Scalar.isFinite p = true) (hq : Scalar.isFinite q = true) (hle : value p ≤ value q)
    (hpb : |value p| ≤ bound) (hqb : |value q| ≤ bound) (hpow : w.n ^ 4 * (bound + 1) ≤ 2 ^ 45) :
    Small w p q bound (unit Float * (4 * (w.n * (bound + 1)))) := by
  have hbound : 0 ≤ bound := (abs_nonneg _).trans hpb
  have hcast : (1 : ℚ) ≤ w.n := Nat.one_le_cast.2 hn
  have hlinear : w.n * (bound + 1) ≤ 2 ^ 45 :=
    (mul_le_mul_of_nonneg_right (le_self_pow₀ hcast (by norm_num)) (by linarith)).trans hpow
  refine ⟨hn, hp, hq, hle, hpb, hqb, by linarith, rfl, ?_⟩
  rw [unit_float]
  linarith

/-- Small weights pass the range check. -/
theorem isShiftable_of_abs_le (hn : 0 < w.n) (hp : Scalar.isFinite p = true) (hq : Scalar.isFinite q = true)
    (hle : value p ≤ value q) (hpb : |value p| ≤ bound) (hqb : |value q| ≤ bound) (hpow : w.n ^ 4 * (bound + 1) ≤ 2 ^ 45) :
    isShiftable p q (offsetOf w p q) = true := by
  have hsmall := small_of_abs_le hn hp hq hle hpb hqb hpow
  obtain ⟨hfin, hleast, _⟩ := hsmall.shifted
  have hleast := abs_le.1 hleast
  have hmargin := hsmall.exactMargin_bounds.1
  have herr := hsmall.err_le
  rw [isShiftable, hfin.2, Bool.and_true, positive_iff hfin.1]
  linarith

/-- Small weights keep their margin. -/
theorem keepsMargin_of_abs_le (hn : 0 < w.n) (hp : Scalar.isFinite p = true) (hq : Scalar.isFinite q = true)
    (hle : value p ≤ value q) (hpb : |value p| ≤ bound) (hqb : |value q| ≤ bound) (hpow : w.n ^ 4 * (bound + 1) ≤ 2 ^ 45)
    (hforbidden : w.anyForbidden = true) :
    KeepsMargin Float w.n (value (p - offsetOf w p q)) (value (q - offsetOf w p q)) := by
  have hsmall := small_of_abs_le hn hp hq hle hpb hqb hpow
  obtain ⟨hbound, hcast, herr, hsize, hfits⟩ := hsmall.size
  obtain ⟨hmargin1, hmargin2⟩ := hsmall.exactMargin_bounds
  obtain ⟨_, hleast, hgreatest⟩ := hsmall.shifted
  have hleast := abs_le.1 hleast
  have hgreatest := abs_le.1 hgreatest
  have herr1 := hsmall.err_le
  have hmargin : exactMargin w (value q - value p) = (w.n - 1) * (value q - value p) + 1 := if_pos hforbidden
  generalize value (p - offsetOf w p q) = least at *
  generalize value (q - offsetOf w p q) = greatest at *
  rw [unit_float] at *
  have hpos : 0 < greatest := by linarith [sub_nonneg.2 hle]
  have hupper : greatest ≤ 3 * (w.n * (bound + 1)) := by linarith
  have hleeway : leeway Float greatest (w.n * (w.n + 1) / 2) ≤ w.n ^ 2 * greatest / 2 ^ 49 := by
    have := mul_le_mul_of_nonneg_left (updates_succ_le hn) (show 0 ≤ 2 * (1 / 2 ^ 53 * (4 * greatest)) by positivity)
    rw [leeway, drift, unit_float]
    linarith
  have hpower : ∀ k ≤ 4, (w.n : ℚ) ^ k * (bound + 1) ≤ 2 ^ 45 := fun k hk =>
    (mul_le_mul_of_nonneg_right (pow_le_pow_right₀ hcast hk) (by linarith)).trans hpow
  have hsquare : (w.n : ℚ) ^ 2 * (bound + 1) ≤ 2 ^ 45 := hpower 2 (by norm_num)
  have hlinear := hpower 1 (by norm_num)
  rw [pow_one] at hlinear
  refine ⟨⟨hpos.le, fits_float ?_, hleeway.trans ?_⟩, ?_⟩
  · rw [abs_of_nonneg (by linarith)]
    exact (show 4 * greatest ≤ 2 ^ 52 by linarith).trans (pow_le_pow_right₀ one_le_two (by norm_num))
  · rw [div_le_iff₀ (by positivity), mul_comm]
    refine mul_le_mul_of_nonneg_left ?_ hpos.le
    linarith [le_mul_of_one_le_right (sq_nonneg (w.n : ℚ)) (show 1 ≤ bound + 1 by linarith)]
  · -- What is left of the margin after rounding is more than the leeway.
    have hleast' := mul_le_mul_of_nonneg_left hleast.1 (show (0 : ℚ) ≤ w.n by linarith)
    have hgreatest' := mul_le_mul_of_nonneg_left hgreatest.2 (show (0 : ℚ) ≤ w.n - 1 by linarith)
    have hleeway' := mul_le_mul_of_nonneg_left hleeway (show (0 : ℚ) ≤ 2 * w.n - 1 by linarith)
    have hcube : (w.n : ℚ) ^ 3 * greatest ≤ 3 * 2 ^ 45 :=
      calc (w.n : ℚ) ^ 3 * greatest ≤ w.n ^ 3 * (3 * (w.n * (bound + 1))) := mul_le_mul_of_nonneg_left hupper (by positivity)
        _ = 3 * (w.n ^ 4 * (bound + 1)) := by ring
        _ ≤ 3 * 2 ^ 45 := by linarith
    have hproduct : 0 ≤ (w.n : ℚ) ^ 2 * greatest := by positivity
    rw [hmargin] at hleast' hgreatest'
    linarith

end SmallWeights

end PerfectMatching.PrimalDual
