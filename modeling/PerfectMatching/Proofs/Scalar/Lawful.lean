import Mathlib.Algebra.Order.Field.Rat
import Mathlib.Tactic.Linarith
import PerfectMatching.Scalar

/-!
# Lawful arithmetic

What a search needs of the arithmetic it runs on, whether that is exact or rounds: finite weights have rational values and are
ordered as these, a sum has the value nearest to the exact one unless that is out of range, and rounding keeps the order. A
weight that is not finite is infinite or undefined; one that is undefined is not even at most itself.
-/

namespace PerfectMatching

/-- The laws of an arithmetic whose finite weights are rational numbers. -/
class LawfulScalar (α : Type) [Scalar α] where
  /-- The number that a finite weight stands for. -/
  value : α → ℚ
  /-- The number that an exact result is rounded to. -/
  rounded : ℚ → ℚ
  /-- The rounded result is in the range of the finite weights. -/
  Fits : ℚ → Prop
  /-- How much of a sum rounding may add or take away. -/
  unit : ℚ
  lt_iff : ∀ {x y : α}, Scalar.lt x y = true ↔ Scalar.le x y = true ∧ Scalar.le y x = false
  le_trans : ∀ {x y z : α}, Scalar.le x y = true → Scalar.le y z = true → Scalar.le x z = true
  le_total : ∀ {x y : α}, Scalar.le x x = true → Scalar.le y y = true → Scalar.le x y = true ∨ Scalar.le y x = true
  le_self : ∀ {x y : α}, Scalar.le x y = true → Scalar.le x x = true ∧ Scalar.le y y = true
  le_infinity : ∀ {x : α}, Scalar.le x x = true → Scalar.le x Scalar.infinity = true
  infinity_le : Scalar.le (Scalar.infinity : α) Scalar.infinity = true
  lt_infinity : ∀ {x : α}, Scalar.isFinite x = true → Scalar.lt x Scalar.infinity = true
  isFinite_of_lt : ∀ {x y : α}, Scalar.isFinite x = true → Scalar.le x y = true → Scalar.lt y Scalar.infinity = true →
    Scalar.isFinite y = true
  le_iff : ∀ {x y : α}, Scalar.isFinite x = true → Scalar.isFinite y = true →
    (Scalar.le x y = true ↔ value x ≤ value y)
  isFinite_ofNat : ∀ {k : ℕ}, k < 2 ^ 53 → Scalar.isFinite (Scalar.ofNat k : α) = true
  value_ofNat : ∀ {k : ℕ}, k < 2 ^ 53 → value (Scalar.ofNat k) = k
  isFinite_neg : ∀ x : α, Scalar.isFinite (-x) = Scalar.isFinite x
  value_neg : ∀ {x : α}, Scalar.isFinite x = true → value (-x) = -value x
  neg_le_neg_self : ∀ x : α, Scalar.le (-x) (-x) = Scalar.le x x
  sub_eq : ∀ x y : α, x - y = x + -y
  isFinite_of_add : ∀ {x y : α}, Scalar.isFinite (x + y) = true → Scalar.isFinite x = true ∧ Scalar.isFinite y = true
  le_self_of_add : ∀ {x y : α}, Scalar.le (x + y) (x + y) = true → Scalar.le x x = true ∧ Scalar.le y y = true
  isFinite_add : ∀ {x y : α}, Scalar.isFinite x = true → Scalar.isFinite y = true →
    (Scalar.isFinite (x + y) = true ↔ Fits (value x + value y))
  value_add : ∀ {x y : α}, Scalar.isFinite (x + y) = true → value (x + y) = rounded (value x + value y)
  positive_add : ∀ {x y : α}, Scalar.isFinite x = true → Scalar.isFinite y = true →
    (Scalar.positive (x + y) = true ↔ 0 < value x + value y)
  isFinite_of_positive_add : ∀ {x y : α}, Scalar.positive (x + y) = true → Scalar.isFinite y = true →
    Scalar.lt x Scalar.infinity = true → Scalar.isFinite x = true
  rounded_add_sub_le : ∀ {x y : α}, Scalar.isFinite x = true → Scalar.isFinite y = true →
    |rounded (value x + value y) - (value x + value y)| ≤ unit * |value x + value y|
  rounded_mono : ∀ {p q : ℚ}, p ≤ q → rounded p ≤ rounded q
  rounded_value : ∀ {x : α}, Scalar.isFinite x = true → rounded (value x) = value x
  fits_value : ∀ {x : α}, Scalar.isFinite x = true → Fits (value x)
  fits_of_abs_le : ∀ {p q : ℚ}, |p| ≤ |q| → Fits q → Fits p
  unit_nonneg : 0 ≤ unit

namespace LawfulScalar

variable {α : Type} [Scalar α] [LawfulScalar α]

/-! ## Order -/

/-- A finite weight is defined. -/
theorem le_self_of_isFinite {x : α} (h : Scalar.isFinite x = true) : Scalar.le x x = true :=
  (le_iff h h).2 le_rfl

/-- Infinity is not finite. -/
theorem isFinite_infinity : Scalar.isFinite (Scalar.infinity : α) = false := by
  by_contra h
  rw [Bool.not_eq_false] at h
  have := (lt_iff.1 (lt_infinity h)).2
  rw [infinity_le] at this
  exact Bool.noConfusion this

/-- Infinity is less than nothing that is defined. -/
theorem infinity_lt_eq_false {x : α} (hx : Scalar.le x x = true) : Scalar.lt Scalar.infinity x = false := by
  rw [Bool.eq_false_iff]
  intro hlt
  have := (lt_iff.1 hlt).2
  rw [le_infinity hx] at this
  exact nomatch this

/-- What is less is at most. -/
theorem le_of_lt {x y : α} (h : Scalar.lt x y = true) : Scalar.le x y = true := (lt_iff.1 h).1

/-- Of defined weights, the one that is not less is at least the other. -/
theorem le_of_not_lt {x y : α} (hx : Scalar.le x x = true) (hy : Scalar.le y y = true) (h : Scalar.lt x y ≠ true) :
    Scalar.le y x = true := by
  rcases le_total hx hy with hle | hle
  · by_contra hyx
    exact h (lt_iff.2 ⟨hle, Bool.eq_false_iff.2 hyx⟩)
  · exact hle

/-- Finite weights are strictly ordered as their values. -/
theorem lt_iff_value {x y : α} (hx : Scalar.isFinite x = true) (hy : Scalar.isFinite y = true) :
    Scalar.lt x y = true ↔ value x < value y := by
  rw [lt_iff, le_iff hx hy, ← Bool.not_eq_true, le_iff hy hx, not_le]
  exact and_iff_right_of_imp fun h => h.le

/-- Zero is finite. -/
theorem isFinite_zero : Scalar.isFinite (Scalar.zero : α) = true := isFinite_ofNat (by norm_num)

/-- The value of zero. -/
theorem value_zero : value (Scalar.zero : α) = 0 := by
  have := value_ofNat (α := α) (show 0 < 2 ^ 53 by norm_num)
  simpa [Scalar.zero] using this

/-- One is finite. -/
theorem isFinite_one : Scalar.isFinite (Scalar.one : α) = true := isFinite_ofNat (by norm_num)

/-- The value of one. -/
theorem value_one : value (Scalar.one : α) = 1 := by
  have := value_ofNat (α := α) (show 1 < 2 ^ 53 by norm_num)
  simpa [Scalar.one] using this

/-- A finite weight is positive if its value is. -/
theorem positive_iff {x : α} (h : Scalar.isFinite x = true) : Scalar.positive x = true ↔ 0 < value x := by
  rw [Scalar.positive, lt_iff_value isFinite_zero h, value_zero]

/-- A finite weight that is not positive has no positive value. -/
theorem nonpos_of_not_positive {x : α} (h : Scalar.isFinite x = true) (hx : Scalar.positive x = false) : value x ≤ 0 := by
  rw [← Bool.not_eq_true, positive_iff h, not_lt] at hx
  exact hx

/-- Infinity is positive. -/
theorem positive_infinity : Scalar.positive (Scalar.infinity : α) = true := lt_infinity isFinite_zero

/-- A positive weight is defined. -/
theorem le_self_of_positive {x : α} (h : Scalar.positive x = true) : Scalar.le x x = true := (le_self (le_of_lt h)).2

/-- A positive weight that is less than a defined one is finite. -/
theorem isFinite_of_positive_of_lt {x y : α} (hx : Scalar.positive x = true) (h : Scalar.lt x y = true) :
    Scalar.isFinite x = true := by
  have hxy := lt_iff.1 h
  have hy := le_infinity (le_self hxy.1).2
  refine isFinite_of_lt isFinite_zero (le_of_lt hx) (lt_iff.2 ⟨le_trans hxy.1 hy, ?_⟩)
  by_contra hle
  rw [Bool.not_eq_false] at hle
  have := le_trans hy hle
  rw [hxy.2] at this
  exact Bool.noConfusion this

/-- What lies between finite weights is finite. -/
theorem isFinite_of_between {x y z : α} (hx : Scalar.isFinite x = true) (hxy : Scalar.le x y = true)
    (hyz : Scalar.le y z = true) (hz : Scalar.isFinite z = true) : Scalar.isFinite y = true := by
  have hlt := lt_iff.1 (lt_infinity hz)
  refine isFinite_of_lt hx hxy (lt_iff.2 ⟨le_trans hyz hlt.1, ?_⟩)
  by_contra hle
  rw [Bool.not_eq_false] at hle
  have := le_trans hle hyz
  rw [hlt.2] at this
  exact Bool.noConfusion this

/-! ## Differences -/

/-- A difference is finite only if both operands are. -/
theorem isFinite_of_sub {x y : α} (h : Scalar.isFinite (x - y) = true) :
    Scalar.isFinite x = true ∧ Scalar.isFinite y = true := by
  rw [sub_eq] at h
  obtain ⟨hx, hy⟩ := isFinite_of_add h
  exact ⟨hx, by rwa [isFinite_neg] at hy⟩

/-- A difference is defined only if both operands are. -/
theorem le_self_of_sub {x y : α} (h : Scalar.le (x - y) (x - y) = true) : Scalar.le x x = true ∧ Scalar.le y y = true := by
  rw [sub_eq] at h
  obtain ⟨hx, hy⟩ := le_self_of_add h
  exact ⟨hx, by rwa [neg_le_neg_self] at hy⟩

/-- A difference of finite weights is finite if it is in range. -/
theorem isFinite_sub {x y : α} (hx : Scalar.isFinite x = true) (hy : Scalar.isFinite y = true) :
    Scalar.isFinite (x - y) = true ↔ Fits α (value x - value y) := by
  rw [sub_eq, isFinite_add hx (by rwa [isFinite_neg]), value_neg hy, ← sub_eq_add_neg]

/-- The value of a finite difference is rounded. -/
theorem value_sub {x y : α} (h : Scalar.isFinite (x - y) = true) : value (x - y) = rounded α (value x - value y) := by
  have hy := (isFinite_of_sub h).2
  rw [sub_eq] at h ⊢
  rw [value_add h, value_neg hy, ← sub_eq_add_neg]

/-- A difference is positive if the subtrahend is less. -/
theorem positive_sub {x y : α} (hx : Scalar.isFinite x = true) (hy : Scalar.isFinite y = true) :
    Scalar.positive (x - y) = true ↔ value y < value x := by
  rw [sub_eq, positive_add hx (by rwa [isFinite_neg]), value_neg hy, ← sub_eq_add_neg, sub_pos]

/-- A difference is positive only if the minuend is finite or infinity. -/
theorem isFinite_of_positive_sub {x y : α} (h : Scalar.positive (x - y) = true) (hy : Scalar.isFinite y = true)
    (hx : Scalar.lt x Scalar.infinity = true) : Scalar.isFinite x = true := by
  rw [sub_eq] at h
  exact isFinite_of_positive_add h (by rwa [isFinite_neg]) hx

/-- How much rounding changes a difference. -/
theorem rounded_sub_sub_le {x y : α} (hx : Scalar.isFinite x = true) (hy : Scalar.isFinite y = true) :
    |rounded α (value x - value y) - (value x - value y)| ≤ unit α * |value x - value y| := by
  have := rounded_add_sub_le hx (y := -y) (by rwa [isFinite_neg])
  rwa [value_neg hy, ← sub_eq_add_neg] at this

/-- How much rounding changes a sum that is bounded by a number in range. -/
theorem value_add_of_abs_le {x y : α} {bound : ℚ} (hx : Scalar.isFinite x = true) (hy : Scalar.isFinite y = true)
    (hsum : |value x + value y| ≤ bound) (hbound : Fits α bound) :
    Scalar.isFinite (x + y) = true ∧ |value (x + y) - (value x + value y)| ≤ unit α * bound := by
  have hfin := (isFinite_add hx hy).2 (fits_of_abs_le (hsum.trans (le_abs_self _)) hbound)
  refine ⟨hfin, ?_⟩
  rw [value_add hfin]
  exact (rounded_add_sub_le hx hy).trans (mul_le_mul_of_nonneg_left hsum unit_nonneg)

/-- How much rounding changes a difference that is bounded by a number in range. -/
theorem value_sub_of_abs_le {x y : α} {bound : ℚ} (hx : Scalar.isFinite x = true) (hy : Scalar.isFinite y = true)
    (hdiff : |value x - value y| ≤ bound) (hbound : Fits α bound) :
    Scalar.isFinite (x - y) = true ∧ |value (x - y) - (value x - value y)| ≤ unit α * bound := by
  have hfin := (isFinite_sub hx hy).2 (fits_of_abs_le (hdiff.trans (le_abs_self _)) hbound)
  refine ⟨hfin, ?_⟩
  rw [value_sub hfin]
  exact (rounded_sub_sub_le hx hy).trans (mul_le_mul_of_nonneg_left hdiff unit_nonneg)

/-- Subtracting a part of a weight that is not negative leaves a finite weight. -/
theorem isFinite_sub_of_le {x y : α} (hx : Scalar.isFinite x = true) (hy : Scalar.isFinite y = true)
    (h0 : 0 ≤ value y) (h : value y ≤ value x) : Scalar.isFinite (x - y) = true := by
  refine (isFinite_sub hx hy).2 (fits_of_abs_le ?_ (fits_value hx))
  rw [abs_of_nonneg (by linarith), abs_of_nonneg (by linarith)]
  linarith

/-- Rounding does not change zero. -/
theorem rounded_zero : rounded α 0 = 0 := by
  have := rounded_value (isFinite_zero (α := α))
  rwa [value_zero] at this

/-- What is not negative is not rounded to something negative. -/
theorem rounded_nonneg {q : ℚ} (h : 0 ≤ q) : 0 ≤ rounded α q := by
  have := rounded_mono (α := α) h
  rwa [rounded_zero] at this

end LawfulScalar

end PerfectMatching
