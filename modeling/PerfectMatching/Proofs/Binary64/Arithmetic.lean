import PerfectMatching.Proofs.Binary64.Order
import PerfectMatching.Scalar

/-!
# The arithmetic of binary64 numbers

A binary64 number is finite, infinite or undefined, and a finite one has a rational value. Main statements: a sum,
a product and a quotient of finite numbers are the nearest binary64 number to the exact result, or infinite with its sign if that
is too large (`approximates_add`, `approximates_mul`, `approximates_div`), a difference is a sum (`sub_eq_add_opposite`), and small
counts are exact (`value_ofNat`).
-/

namespace PerfectMatching.Binary64

open Float.Model Float.Model.UnpackedFloat

/-- The sign, mantissa and exponent of a binary64 number. -/
def unpacked (x : Float) : UnpackedFloat := x.toModel.unpack

/-- The rational number that a binary64 number stands for; zero if it is not finite. -/
def value (x : Float) : ℚ := number (unpacked x)

/-- The result `x` of an operation whose exact result is `q`: the nearest binary64 number, infinite if there is none. -/
structure Approximates (x : Float) (q : ℚ) : Prop where
  unpacked_of_lt : |nearest q| < 2 ^ 1024 → x.isFinite = true ∧ value x = nearest q
  unpacked_of_le : 2 ^ 1024 ≤ |nearest q| → unpacked x = .infinity (if 0 ≤ q then .positive else .negative)

/-- Binary64 numbers are unpacked to canonical form. -/
theorem canonical (x : Float) : Canonical (unpacked x) := (canonical_unpack _).1

/-- A binary64 number is less than `2 ^ 1024`. -/
theorem abs_value_lt (x : Float) : |value x| < 2 ^ 1024 := (canonical_unpack _).2

/-- Packing an infinite number or none loses nothing. -/
theorem unpacked_pack_of_not_finite {f : UnpackedFloat} (h : f.isFinite = false) :
    unpacked (.ofModel (Float.Model.pack f)) = f := by
  refine unpack_pack ?_ ?_
  · cases f with
    | finite s m e hm => exact absurd h.symm Bool.false_ne_true
    | _ => trivial
  · cases f with
    | finite s m e hm => exact absurd h.symm Bool.false_ne_true
    | _ => exact abs_zero.trans_lt (by positivity)

/-- Packing a rounded number. -/
theorem Rounded.approximates {f : UnpackedFloat} {q : ℚ} (h : Rounded f q) :
    Approximates (.ofModel (Float.Model.pack f)) q := by
  constructor
  · intro hlt
    have hf : unpacked (.ofModel (Float.Model.pack f)) = f := unpack_pack h.canonical (by rwa [h.number_eq])
    refine ⟨?_, ?_⟩
    · change (unpacked (.ofModel (Float.Model.pack f))).isFinite = true
      rw [hf, h.finite]
    · rw [value, hf, h.number_eq]
  · intro hle
    have hnum := h.number_eq
    obtain ⟨s, rfl⟩ | ⟨s, m, e, hm, rfl⟩ := finite_cases h.finite
    · rw [← hnum, show number (.zero s) = 0 from rfl, abs_zero] at hle
      exact absurd hle (by norm_num)
    · have hpack : unpacked (.ofModel (Float.Model.pack (.finite s m e hm))) = .infinity s :=
        unpack_pack_large h.canonical (by rwa [hnum])
      rw [hpack]
      cases s
      · rw [if_neg]
        intro hq
        have h1 := number_negative_neg e hm
        have h2 := nearest_nonneg hq
        linarith
      · rw [if_pos]
        by_contra hq
        have h1 := number_positive_pos e hm
        have h2 := nearest_nonneg (neg_nonneg.2 (not_le.1 hq).le)
        rw [nearest_neg] at h2
        linarith

/-- A result is finite if it is in range. -/
theorem Approximates.isFinite_iff {x : Float} {q : ℚ} (h : Approximates x q) :
    x.isFinite = true ↔ |nearest q| < 2 ^ 1024 := by
  refine ⟨fun hx => ?_, fun hlt => (h.unpacked_of_lt hlt).1⟩
  by_contra hle
  change (unpacked x).isFinite = true at hx
  rw [h.unpacked_of_le (not_lt.1 hle)] at hx
  exact Bool.noConfusion hx

/-! ## Operations -/

/-- A sum of finite numbers is rounded. -/
theorem approximates_add {x y : Float} (hx : x.isFinite = true) (hy : y.isFinite = true) :
    Approximates (x + y) (value x + value y) :=
  (rounded_add (canonical x) (canonical y) hx hy).approximates

/-- A product of finite numbers is rounded. -/
theorem approximates_mul {x y : Float} (hx : x.isFinite = true) (hy : y.isFinite = true) :
    Approximates (x * y) (value x * value y) :=
  (rounded_mul (canonical x) (canonical y) hx hy).approximates

/-- A quotient of finite numbers is rounded, unless the divisor is zero. -/
theorem approximates_div {x y : Float} (hx : x.isFinite = true) (hy : y.isFinite = true) (hne : value y ≠ 0) :
    Approximates (x / y) (value x / value y) :=
  (rounded_div hx hy hne).approximates

/-- The opposite of a number. -/
theorem unpacked_neg (x : Float) : unpacked (-x) = (unpacked x).neg := by
  refine unpack_pack (canonical x).neg ?_
  rw [number_neg, abs_neg]
  exact abs_value_lt x

/-- The opposite of a number stands for the opposite. -/
theorem value_neg (x : Float) : value (-x) = -value x := by
  rw [value, unpacked_neg, number_neg, value]

/-- The opposite of a finite number is finite. -/
theorem isFinite_opposite (x : Float) : (-x).isFinite = x.isFinite := by
  change (unpacked (-x)).isFinite = (unpacked x).isFinite
  rw [unpacked_neg, isFinite_neg]

/-- A difference is the sum with the opposite. -/
theorem sub_eq_add_opposite (x y : Float) : x - y = x + -y := by
  change Float.ofModel (Float.Model.pack (UnpackedFloat.sub Format.binary64 (unpacked x) (unpacked y))) =
    .ofModel (Float.Model.pack (UnpackedFloat.add Format.binary64 (unpacked x) (unpacked (-y))))
  rw [unpacked_neg, sub_eq_add]

/-- A difference of finite numbers is rounded. -/
theorem approximates_sub {x y : Float} (hx : x.isFinite = true) (hy : y.isFinite = true) :
    Approximates (x - y) (value x - value y) := by
  rw [sub_eq_add_opposite, sub_eq_add_neg, ← value_neg]
  exact approximates_add hx (by rwa [isFinite_opposite])

/-! ## Infinite and undefined operands -/

/-- An unpacked sum is finite only if both operands are. -/
theorem isFinite_of_isFinite_add {f g : UnpackedFloat} (h : (UnpackedFloat.add Format.binary64 f g).isFinite = true) :
    f.isFinite = true ∧ g.isFinite = true := by
  cases f with
  | notANumber => exact Bool.noConfusion h
  | infinity s =>
    cases g with
    | infinity t => cases s <;> cases t <;> exact Bool.noConfusion h
    | _ => exact Bool.noConfusion h
  | _ =>
    cases g with
    | notANumber => exact Bool.noConfusion h
    | infinity t => exact Bool.noConfusion h
    | _ => exact ⟨rfl, rfl⟩

/-- A sum is finite only if both operands are. -/
theorem isFinite_of_add {x y : Float} (h : (x + y).isFinite = true) : x.isFinite = true ∧ y.isFinite = true := by
  change (unpacked (.ofModel (Float.Model.pack (UnpackedFloat.add Format.binary64 (unpacked x) (unpacked y))))).isFinite =
    true at h
  have hsum : (UnpackedFloat.add Format.binary64 (unpacked x) (unpacked y)).isFinite = true := by
    by_contra hsum
    rw [Bool.not_eq_true] at hsum
    rw [unpacked_pack_of_not_finite hsum, hsum] at h
    exact Bool.noConfusion h
  change (unpacked x).isFinite = true ∧ (unpacked y).isFinite = true
  exact isFinite_of_isFinite_add hsum

/-- An unpacked product is finite only if both operands are. -/
theorem isFinite_of_isFinite_mul {f g : UnpackedFloat} (h : (UnpackedFloat.mul Format.binary64 f g).isFinite = true) :
    f.isFinite = true ∧ g.isFinite = true := by
  cases f with
  | notANumber => exact Bool.noConfusion h
  | infinity s => cases g <;> exact Bool.noConfusion h
  | _ =>
    cases g with
    | notANumber => exact Bool.noConfusion h
    | infinity t => exact Bool.noConfusion h
    | _ => exact ⟨rfl, rfl⟩

/-- A product is finite only if both operands are. -/
theorem isFinite_of_mul {x y : Float} (h : (x * y).isFinite = true) : x.isFinite = true ∧ y.isFinite = true := by
  change (unpacked (.ofModel (Float.Model.pack (UnpackedFloat.mul Format.binary64 (unpacked x) (unpacked y))))).isFinite =
    true at h
  have hproduct : (UnpackedFloat.mul Format.binary64 (unpacked x) (unpacked y)).isFinite = true := by
    by_contra hproduct
    rw [Bool.not_eq_true] at hproduct
    rw [unpacked_pack_of_not_finite hproduct, hproduct] at h
    exact Bool.noConfusion h
  change (unpacked x).isFinite = true ∧ (unpacked y).isFinite = true
  exact isFinite_of_isFinite_mul hproduct

/-- A sum is undefined if an operand is. -/
theorem isNaN_add {x y : Float} (h : x.isNaN = true ∨ y.isNaN = true) : (x + y).isNaN = true := by
  change (unpacked (.ofModel (Float.Model.pack (UnpackedFloat.add Format.binary64 (unpacked x) (unpacked y))))).isNaN = true
  have hsum : UnpackedFloat.add Format.binary64 (unpacked x) (unpacked y) = .notANumber := by
    change (unpacked x).isNaN = true ∨ (unpacked y).isNaN = true at h
    generalize unpacked x = f, unpacked y = g at h
    rcases h with h | h
    · cases f <;> first | rfl | exact absurd h Bool.false_ne_true
    · cases g <;> first | (cases f <;> rfl) | exact absurd h Bool.false_ne_true
  rw [hsum, unpacked_pack_of_not_finite rfl]
  rfl

/-! ## Order -/

/-- One number is at most another if both are defined and their ranks are so ordered. -/
theorem le_iff {x y : Float} :
    Float.le x y = true ↔ x.isNaN = false ∧ y.isNaN = false ∧ rank (unpacked x) ≤ rank (unpacked y) := by
  change decide ((unpacked x).le (unpacked y) = true) = true ↔ _
  rw [decide_eq_true_iff]
  exact le_iff_rank (canonical x) (canonical y)

/-- One number is less than another if both are defined and their ranks are so ordered. -/
theorem lt_iff {x y : Float} :
    Float.lt x y = true ↔ x.isNaN = false ∧ y.isNaN = false ∧ rank (unpacked x) < rank (unpacked y) := by
  change decide ((unpacked x).lt (unpacked y) = true) = true ↔ _
  rw [decide_eq_true_iff]
  exact lt_iff_rank (canonical x) (canonical y)

/-! ## Constants -/

/-- Infinity. -/
theorem unpacked_infinity : unpacked (Scalar.infinity : Float) = .infinity .positive := by
  exact unpack_packedInfinity .positive

/-- One, from its bits. -/
theorem unpacked_one : unpacked (Float.ofBits 0x3ff0000000000000) = .finite .positive (2 ^ 52) (-52) (Nat.two_pow_pos 52) := by
  have h := (canonical_unpack 0x3ff0000000000000)
  refine (unpack_pack h.1 h.2).trans ?_
  exact unpack_normal (by decide) (by decide)

/-- A whole number of at most `53` bits is in range. -/
theorem abs_nearest_natCast_lt {k : ℕ} (h : k < 2 ^ 53) : nearest (k : ℚ) = k ∧ |nearest (k : ℚ)| < 2 ^ 1024 := by
  have hself : nearest (k : ℚ) = k := nearest_eq_self ⟨k, 0, by simpa using h, by norm_num, by simp⟩
  refine ⟨hself, ?_⟩
  rw [hself, Nat.abs_cast]
  calc (k : ℚ) < 2 ^ 53 := by exact_mod_cast h
    _ ≤ 2 ^ 1024 := pow_le_pow_right₀ (by norm_num) (by norm_num)

/-- A word of at most `53` bits is exact. -/
theorem value_toUInt64_toFloat {k : ℕ} (h : k < 2 ^ 53) :
    k.toUInt64.toFloat.isFinite = true ∧ value k.toUInt64.toFloat = k := by
  obtain ⟨hself, hlt⟩ := abs_nearest_natCast_lt h
  have hnat : k.toUInt64.toNat = k := by
    rw [Nat.toUInt64, UInt64.toNat_ofNat']
    exact Nat.mod_eq_of_lt (h.trans (by norm_num))
  have hexact : ((k.toUInt64.toNat : ℤ) : ℚ) * 2 ^ (0 : ℤ) = k := by
    rw [hnat, zpow_zero, mul_one, Int.cast_natCast]
  have hround := rounded_normalize (k.toUInt64.toNat : ℤ) 0 .positive
  rw [hexact] at hround
  have := hround.approximates.unpacked_of_lt hlt
  rwa [hself] at this

/-- A count of at most `53` bits is exact. -/
theorem value_ofNat {k : ℕ} (h : k < 2 ^ 53) : (Float.ofNat k).isFinite = true ∧ value (Float.ofNat k) = k := by
  obtain ⟨hself, hlt⟩ := abs_nearest_natCast_lt h
  have hcast := value_toUInt64_toFloat h
  have hone : (Float.ofBits 0x3ff0000000000000).isFinite = true ∧ value (Float.ofBits 0x3ff0000000000000) = 1 := by
    constructor
    · change (unpacked (Float.ofBits 0x3ff0000000000000)).isFinite = true
      rw [unpacked_one]
      rfl
    · rw [value, unpacked_one, number_finite]
      norm_num [Sign.apply]
  have hmul : Float.ofNat k = k.toUInt64.toFloat * Float.ofBits 0x3ff0000000000000 := by
    change Float.ofScientific k false 0 = _
    rw [Float.ofScientific, dif_pos ⟨h, by norm_num⟩]
    rfl
  have := (approximates_mul hcast.1 hone.1).unpacked_of_lt
  rw [hcast.2, hone.2, mul_one] at this
  rw [hmul]
  exact ⟨(this hlt).1, by rw [(this hlt).2, hself]⟩

end PerfectMatching.Binary64
