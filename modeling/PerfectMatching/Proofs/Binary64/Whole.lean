import PerfectMatching.Proofs.Binary64.Lawful
import PerfectMatching.Proofs.Scalar.Exact
import PerfectMatching.Proofs.Scalar.Faithful
import PerfectMatching.Proofs.Scalar.Sums

/-!
# Whole numbers in binary64

A binary64 number is an exact weight, that of its value (`ofFloat_of_isFinite`). Whole numbers of a magnitude of at most `2 ^ 53` are
added, subtracted and multiplied without rounding as long as the results are of such a magnitude (`Whole.add`, `Whole.sub`,
`Whole.mul`), and ordered as exact weights, also together with infinity (`faithful_ofFloat`).
-/

namespace PerfectMatching.Binary64

open Float.Model Float.Model.UnpackedFloat

/-! ## The exact weight of a number -/

/-- The exponent field as a number. -/
theorem toNat_exponentField (b : BitVec 64) : (exponentField b).toNat = b.toNat / 2 ^ 52 % 2048 := by
  rw [← Nat.shiftRight_eq_div_pow]
  rfl

/-- The mantissa field as a number. -/
theorem toNat_mantissaField (b : BitVec 64) : (mantissaField b).toNat = b.toNat % 2 ^ 52 := rfl

/-- The sign of a number is its first bit. -/
theorem signOf_eq (x : UInt64) : signOf x.toBitVec = if x >>> 63 == 1 then .negative else .positive := by
  have hfield : (@unpackSign Format.binary64 x.toBitVec).toNat = x.toNat / 2 ^ 63 % 2 := by
    rw [← Nat.shiftRight_eq_div_pow]
    rfl
  have hbit : @unpackSign Format.binary64 x.toBitVec = 0#1 ↔ x.toNat / 2 ^ 63 % 2 = 0 := by
    rw [← hfield]
    exact ⟨fun h => by rw [h]; rfl, fun h => BitVec.eq_of_toNat_eq h⟩
  have hshift : (x >>> 63).toNat = x.toNat / 2 ^ 63 := by
    rw [UInt64.toNat_shiftRight, Nat.shiftRight_eq_div_pow]
    rfl
  have hlt := x.toNat_lt
  have hone : (x >>> 63 == 1) = true ↔ x.toNat / 2 ^ 63 = 1 := by
    rw [beq_iff_eq, ← UInt64.toNat_inj, hshift]
    rfl
  rw [signOf, Sign.ofBitVec]
  by_cases hzero : x.toNat / 2 ^ 63 % 2 = 0
  · rw [if_pos (hbit.2 hzero), if_neg (fun h => by rw [hone.1 h] at hzero; omega)]
  · rw [if_neg fun h => hzero (hbit.1 h), if_pos (hone.2 (by omega))]

/-- Zero has no sign. -/
theorem apply_zero (s : Sign) : s.apply 0 = 0 := by
  cases s with
  | positive => rfl
  | negative => exact neg_zero

/-- The value of a finite number, read off its bits. -/
theorem value_eq_binaryMagnitude {x : Float} (h : x.isFinite = true) :
    value x = ((if x.toBits >>> 63 == 1 then -((Decimal.binaryMagnitude x).1 : ℤ) else (Decimal.binaryMagnitude x).1 : ℤ) : ℚ) *
      2 ^ (Decimal.binaryMagnitude x).2 := by
  have hexp := toNat_exponentField x.toBits.toBitVec
  have hman := toNat_mantissaField x.toBits.toBitVec
  have hsign : ∀ m : ℕ, (signOf x.toBits.toBitVec).apply m = if x.toBits >>> 63 == 1 then -(m : ℤ) else m := by
    intro m
    rw [signOf_eq]
    split <;> rfl
  have hfinite : (UnpackedFloat.unpack Format.binary64 x.toBits.toBitVec).isFinite = true := h
  change number (UnpackedFloat.unpack Format.binary64 x.toBits.toBitVec) = _
  rw [← hsign]
  by_cases hempty : exponentField x.toBits.toBitVec = 0#11
  · have hmagnitude : Decimal.binaryMagnitude x = ((mantissaField x.toBits.toBitVec).toNat, -1074) := by
      rw [hempty] at hexp
      exact (if_pos hexp.symm).trans (by rw [hman]; rfl)
    rw [hmagnitude, unpack_tiny hempty]
    by_cases hzero : (mantissaField x.toBits.toBitVec).toNat = 0
    · rw [dif_pos hzero, number_zero, hzero, Nat.cast_zero, apply_zero, Int.cast_zero, zero_mul]
    · rw [dif_neg hzero, number_finite]
  · have hfull : exponentField x.toBits.toBitVec ≠ -1#11 := by
      intro hfull
      rw [unpack_full hfull] at hfinite
      split at hfinite <;> exact Bool.false_ne_true hfinite
    have hne : x.toBits.toBitVec.toNat / 2 ^ 52 % 2048 ≠ 0 := fun h =>
      hempty (BitVec.eq_of_toNat_eq (hexp.trans h))
    have hmagnitude : Decimal.binaryMagnitude x =
        (2 ^ 52 + (mantissaField x.toBits.toBitVec).toNat, ((exponentField x.toBits.toBitVec).toNat : ℤ) - 1075) := by
      exact (if_neg hne).trans (by rw [hman, hexp]; rfl)
    rw [hmagnitude, unpack_normal hempty hfull, number_finite]

/-- The exact weight of a finite number is its value. -/
theorem ofFloat_of_isFinite {x : Float} (h : x.isFinite = true) : Exact.ofFloat x = .finite (value x) := by
  rw [value_eq_binaryMagnitude h, Exact.ofFloat, if_pos h]
  obtain ⟨m, q⟩ := Decimal.binaryMagnitude x
  simp only
  generalize (if x.toBits >>> 63 == 1 then -(m : ℤ) else (m : ℤ)) = z
  cases q with
  | ofNat q => simp [Rat.mkRat_one]
  | negSucc q =>
    simp only [Rat.mkRat_eq_div, zpow_negSucc, div_eq_mul_inv]
    simp

/-- What is not finite is infinite as an exact weight. -/
theorem ofFloat_of_not_isFinite {x : Float} (h : x.isFinite = false) : Exact.ofFloat x = .infinite :=
  if_neg (Bool.eq_false_iff.1 h)

/-- A number is finite as an exact weight if it is. -/
@[simp] theorem isFinite_ofFloat (x : Float) : Scalar.isFinite (Exact.ofFloat x) = x.isFinite := by
  cases h : x.isFinite with
  | true =>
    rw [ofFloat_of_isFinite h]
    rfl
  | false =>
    rw [ofFloat_of_not_isFinite h]
    rfl

/-- What is not finite has no value. -/
theorem value_of_not_isFinite {x : Float} (h : x.isFinite = false) : value x = 0 := by
  change (unpacked x).isFinite = false at h
  rw [value]
  cases hx : unpacked x with
  | finite s m e hm =>
    rw [hx] at h
    exact Bool.noConfusion h
  | _ => rfl

/-- A number has its value as an exact weight. -/
@[simp] theorem value_ofFloat (x : Float) : LawfulScalar.value (Exact.ofFloat x) = value x := by
  cases h : x.isFinite with
  | true =>
    rw [ofFloat_of_isFinite h]
    rfl
  | false =>
    rw [ofFloat_of_not_isFinite h, value_of_not_isFinite h]
    rfl

/-- The exact weight of the opposite is the opposite. -/
theorem ofFloat_neg (x : Float) : Exact.ofFloat (-x) = -Exact.ofFloat x := by
  cases h : x.isFinite with
  | true =>
    rw [ofFloat_of_isFinite h, ofFloat_of_isFinite ((isFinite_opposite x).trans h), value_neg]
    rfl
  | false =>
    rw [ofFloat_of_not_isFinite h, ofFloat_of_not_isFinite ((isFinite_opposite x).trans h)]
    rfl

/-! ## Whole numbers -/

/-- A finite number without a fraction, small enough to have all whole numbers of lesser magnitude beside it. -/
structure Whole (x : Float) : Prop where
  finite : x.isFinite = true
  whole : ∃ k : ℤ, value x = k
  small : |value x| ≤ 2 ^ 53

/-- A whole number of at most `2 ^ 53` is its own nearest. -/
theorem nearest_intCast {k : ℤ} (h : |(k : ℚ)| ≤ 2 ^ 53) : nearest k = k := by
  have hle : |k| ≤ 2 ^ 53 := by exact_mod_cast h
  rcases hle.lt_or_eq with hlt | heq
  · exact nearest_eq_self ⟨k, 0, hlt, by norm_num, by simp⟩
  · rcases (abs_eq (by positivity)).1 heq with rfl | rfl
    · exact nearest_eq_self ⟨1, 53, by norm_num, by norm_num, by norm_num⟩
    · exact nearest_eq_self ⟨-1, 53, by norm_num, by norm_num, by norm_num⟩

/-- A whole result that is small enough is not rounded. -/
theorem Approximates.whole {x : Float} {q : ℚ} (h : Approximates x q) (hq : ∃ k : ℤ, q = k) (hle : |q| ≤ 2 ^ 53) :
    Whole x ∧ value x = q := by
  obtain ⟨k, rfl⟩ := hq
  have hnearest := nearest_intCast hle
  have hlt : |nearest (k : ℚ)| < 2 ^ 1024 := by
    rw [hnearest]
    exact hle.trans_lt (pow_lt_pow_right₀ one_lt_two (by norm_num))
  obtain ⟨hfin, hval⟩ := h.unpacked_of_lt hlt
  rw [hnearest] at hval
  exact ⟨⟨hfin, ⟨k, hval⟩, by rwa [hval]⟩, hval⟩

section Operations

variable {x y : Float} (hx : Whole x) (hy : Whole y)

include hx in
/-- The opposite of a whole number. -/
theorem Whole.neg : Whole (-x) := by
  obtain ⟨k, hk⟩ := hx.whole
  refine ⟨(isFinite_opposite x).trans hx.finite, ⟨-k, ?_⟩, ?_⟩
  · rw [value_neg, hk, Int.cast_neg]
  · rw [value_neg, abs_neg]
    exact hx.small

include hx hy

/-- A sum of whole numbers that is small enough. -/
theorem Whole.add (h : |value x + value y| ≤ 2 ^ 53) : Whole (x + y) ∧ value (x + y) = value x + value y := by
  obtain ⟨k, hk⟩ := hx.whole
  obtain ⟨l, hl⟩ := hy.whole
  exact (approximates_add hx.finite hy.finite).whole ⟨k + l, by rw [hk, hl, Int.cast_add]⟩ h

/-- A difference of whole numbers that is small enough. -/
theorem Whole.sub (h : |value x - value y| ≤ 2 ^ 53) : Whole (x - y) ∧ value (x - y) = value x - value y := by
  obtain ⟨k, hk⟩ := hx.whole
  obtain ⟨l, hl⟩ := hy.whole
  exact (approximates_sub hx.finite hy.finite).whole ⟨k - l, by rw [hk, hl, Int.cast_sub]⟩ h

/-- A product of whole numbers that is small enough. -/
theorem Whole.mul (h : |value x * value y| ≤ 2 ^ 53) : Whole (x * y) ∧ value (x * y) = value x * value y := by
  obtain ⟨k, hk⟩ := hx.whole
  obtain ⟨l, hl⟩ := hy.whole
  exact (approximates_mul hx.finite hy.finite).whole ⟨k * l, by rw [hk, hl, Int.cast_mul]⟩ h

/-- The exact weight of a sum of whole numbers that is small enough. -/
theorem Whole.ofFloat_add (h : |value x + value y| ≤ 2 ^ 53) :
    Exact.ofFloat (x + y) = Exact.ofFloat x + Exact.ofFloat y := by
  obtain ⟨hsum, hval⟩ := hx.add hy h
  rw [ofFloat_of_isFinite hsum.finite, ofFloat_of_isFinite hx.finite, ofFloat_of_isFinite hy.finite, hval]
  rfl

/-- The exact weight of a difference of whole numbers that is small enough. -/
theorem Whole.ofFloat_sub (h : |value x - value y| ≤ 2 ^ 53) :
    Exact.ofFloat (x - y) = Exact.ofFloat x - Exact.ofFloat y := by
  obtain ⟨hdiff, hval⟩ := hx.sub hy h
  rw [ofFloat_of_isFinite hdiff.finite, ofFloat_of_isFinite hx.finite, ofFloat_of_isFinite hy.finite, hval]
  rfl

/-- The exact weight of a product of whole numbers that is small enough. -/
theorem Whole.ofFloat_mul (h : |value x * value y| ≤ 2 ^ 53) :
    Exact.ofFloat (x * y) = Exact.ofFloat x * Exact.ofFloat y := by
  obtain ⟨hproduct, hval⟩ := hx.mul hy h
  rw [ofFloat_of_isFinite hproduct.finite, ofFloat_of_isFinite hx.finite, ofFloat_of_isFinite hy.finite, hval]
  rfl

end Operations

/-- A count of at most `53` bits is a whole number, and the same exact weight. -/
theorem whole_ofNat {k : ℕ} (h : k < 2 ^ 53) :
    Whole (Scalar.ofNat k) ∧ value (Scalar.ofNat k) = k ∧ Exact.ofFloat (Scalar.ofNat k) = Scalar.ofNat k := by
  obtain ⟨hfin, hval⟩ := value_ofNat h
  refine ⟨⟨hfin, ⟨k, by rw [Int.cast_natCast]; exact hval⟩, ?_⟩, hval, ?_⟩
  · change |value (Float.ofNat k)| ≤ 2 ^ 53
    rw [hval, Nat.abs_cast]
    exact_mod_cast h.le
  · rw [Exact.ofNat_eq, ← hval]
    exact ofFloat_of_isFinite hfin

/-- One is a whole number, and the same exact weight. -/
theorem whole_one : Whole Scalar.one ∧ value Scalar.one = 1 ∧ Exact.ofFloat Scalar.one = Scalar.one := by
  obtain ⟨hone, hval, hexact⟩ := whole_ofNat (k := 1) (by norm_num)
  exact ⟨hone, hval.trans Nat.cast_one, hexact⟩

/-- A sum of small numbers is at most as many times as large. -/
theorem abs_sum_le {qs : List ℚ} {size : ℚ} (h : ∀ q ∈ qs, |q| ≤ size) : |qs.sum| ≤ qs.length * size := by
  induction qs with
  | nil => simp
  | cons q qs ih =>
    have hq := h q List.mem_cons_self
    have hqs := ih fun p hp => h p (List.mem_cons_of_mem q hp)
    rw [List.sum_cons, List.length_cons]
    push_cast
    linarith [abs_add_le q qs.sum]

/-- A sum of several whole numbers that is small enough is whole and not rounded. -/
theorem whole_sum {xs : List Float} {size : ℚ} (hxs : ∀ x ∈ xs, Whole x ∧ |value x| ≤ size)
    (hsize : xs.length * size ≤ 2 ^ 53) : Whole (Scalar.sum xs) ∧ value (Scalar.sum xs) = (xs.map value).sum := by
  induction xs using List.reverseRecOn with
  | nil =>
    obtain ⟨hzero, hval, _⟩ := whole_ofNat (k := 0) (by norm_num)
    have hneg : value (-Scalar.ofNat 0) = 0 := by rw [value_neg, hval, Nat.cast_zero, neg_zero]
    exact ⟨hzero.neg, hneg⟩
  | append_singleton xs x ih =>
    obtain ⟨hx, hxsize⟩ := hxs x (List.mem_append_right _ (List.mem_singleton_self x))
    have hall : ∀ q ∈ (xs ++ [x]).map value, |q| ≤ size := by
      intro q hq
      obtain ⟨y, hy, rfl⟩ := List.mem_map.1 hq
      exact (hxs y hy).2
    have hsum : |((xs ++ [x]).map value).sum| ≤ 2 ^ 53 := (abs_sum_le hall).trans (by rwa [List.length_map])
    rw [List.length_append, List.length_singleton, Nat.cast_add, Nat.cast_one] at hsize
    obtain ⟨hwhole, hval⟩ := ih (fun y hy => hxs y (List.mem_append_left _ hy)) (by linarith [(abs_nonneg _).trans hxsize])
    have hsplit : ((xs ++ [x]).map value).sum = value (Scalar.sum xs) + value x := by simp [hval]
    rw [hsplit] at hsum ⊢
    rw [Scalar.sum_concat]
    exact hwhole.add hx hsum

/-- The exact weight of a sum of several whole numbers that is small enough. -/
theorem ofFloat_sum {xs : List Float} {size : ℚ} (hxs : ∀ x ∈ xs, Whole x ∧ |value x| ≤ size)
    (hsize : xs.length * size ≤ 2 ^ 53) : Exact.ofFloat (Scalar.sum xs) = Scalar.sum (xs.map Exact.ofFloat) := by
  obtain ⟨hwhole, hval⟩ := whole_sum hxs hsize
  have hlist : xs.map Exact.ofFloat = (xs.map value).map Exact.finite := by
    rw [List.map_map]
    exact List.map_congr_left fun x hx => ofFloat_of_isFinite (hxs x hx).1.finite
  rw [ofFloat_of_isFinite hwhole.finite, hval, hlist, Exact.sum_finite]

/-! ## Order -/

/-- A whole number or infinity. -/
def WholeOrInfinite (x : Float) : Prop := Whole x ∨ x = Scalar.infinity

/-- Infinity is the infinite exact weight. -/
theorem ofFloat_infinity : Exact.ofFloat Scalar.infinity = Scalar.infinity :=
  ofFloat_of_not_isFinite (LawfulScalar.isFinite_infinity (α := Float))

/-- A finite number is less than another as an exact weight if it is. -/
theorem lt_ofFloat {x y : Float} (hx : x.isFinite = true) (hy : y.isFinite = true) :
    Scalar.lt (Exact.ofFloat x) (Exact.ofFloat y) = Scalar.lt x y := by
  have hexact := LawfulScalar.lt_iff_value ((isFinite_ofFloat x).trans hx) ((isFinite_ofFloat y).trans hy)
  rw [value_ofFloat, value_ofFloat] at hexact
  exact Bool.eq_iff_iff.2 (hexact.trans (LawfulScalar.lt_iff_value (α := Float) hx hy).symm)

/-- Exact weights keep the order of whole numbers and infinity. -/
theorem faithful_ofFloat : Faithful Exact.ofFloat WholeOrInfinite where
  lt_eq {x y} hx hy := by
    rcases hx with hx | rfl <;> rcases hy with hy | rfl
    · exact lt_ofFloat hx.finite hy.finite
    · have hlt := LawfulScalar.lt_infinity ((isFinite_ofFloat x).trans hx.finite)
      rw [ofFloat_infinity, hlt]
      exact (LawfulScalar.lt_infinity (α := Float) hx.finite).symm
    · have hyx := LawfulScalar.le_self_of_isFinite ((isFinite_ofFloat y).trans hy.finite)
      rw [ofFloat_infinity, LawfulScalar.infinity_lt_eq_false hyx]
      exact (LawfulScalar.infinity_lt_eq_false (LawfulScalar.le_self_of_isFinite (α := Float) hy.finite)).symm
    · rw [ofFloat_infinity, LawfulScalar.infinity_lt_eq_false LawfulScalar.infinity_le,
        LawfulScalar.infinity_lt_eq_false LawfulScalar.infinity_le]
  le_self {x} hx := by
    rcases hx with hx | rfl
    · exact ⟨LawfulScalar.le_self_of_isFinite (α := Float) hx.finite,
        LawfulScalar.le_self_of_isFinite ((isFinite_ofFloat x).trans hx.finite)⟩
    · rw [ofFloat_infinity]
      exact ⟨LawfulScalar.infinity_le, LawfulScalar.infinity_le⟩
  zero := Or.inl (whole_ofNat (by norm_num)).1
  map_zero := (whole_ofNat (by norm_num)).2.2
  infinity := Or.inr rfl
  map_infinity := ofFloat_infinity

end PerfectMatching.Binary64
