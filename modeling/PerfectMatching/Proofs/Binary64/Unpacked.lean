import PerfectMatching.Proofs.Binary64.Rounding

/-!
# Unpacked binary64 numbers

The operations on binary64 numbers work on a sign, a whole number and an exponent, and pack the outcome into bits again.
Main statements: rounding yields the canonical form of the nearest number (`rounded_round`, `rounded_normalize`), and so do the
addition and the multiplication of numbers in canonical form (`rounded_add`, `rounded_mul`) and the division of any finite numbers
(`rounded_div`).
-/

namespace PerfectMatching.Binary64

open Float.Model Float.Model.UnpackedFloat

/-- The rational number that an unpacked number stands for; zero if it is not finite. -/
def number : UnpackedFloat → ℚ
  | .finite s m e _ => s.apply m * 2 ^ e
  | _ => 0

/-- The number that a sign, a mantissa and an exponent stand for. -/
theorem number_finite (s : Sign) (m : ℕ) (e : ℤ) (hm : 0 < m) : number (.finite s m e hm) = s.apply m * 2 ^ e := rfl

/-- A zero stands for zero. -/
@[simp] theorem number_zero (s : Sign) : number (.zero s) = 0 := rfl

/-- A finite number other than zero has `53` bits, or fewer and the least exponent. -/
def Canonical : UnpackedFloat → Prop
  | .finite _ m e _ => m < 2 ^ 53 ∧ -1074 ≤ e ∧ (2 ^ 52 ≤ m ∨ e = -1074)
  | _ => True

/-- The unpacked number is finite, in canonical form, and the nearest one to `q`. -/
structure Rounded (f : UnpackedFloat) (q : ℚ) : Prop where
  finite : f.isFinite = true
  canonical : Canonical f
  number_eq : number f = nearest q

/-! ## Rounding a mantissa -/

/-- A fraction `a / b` cut off after its whole part: the quotient is kept, and the two residual bits tell on which side of a half
the rest lies. -/
structure Divided (a b : ℕ) (em : ExtendedMantissa) : Prop where
  mantissa_eq : em.mantissa = a / b
  round_iff : em.roundBit = true ↔ b ≤ 2 * (a % b)
  sticky_iff : em.stickyBit = true ↔ a % b ≠ 0 ∧ 2 * (a % b) ≠ b

/-- Shifting by one bit divides by two. -/
theorem Divided.shift {a b : ℕ} {em : ExtendedMantissa} (hb : 0 < b) (h : Divided a b em) :
    Divided a (b * 2) em.shiftRightOne := by
  have hmod : a % (b * 2) = a % b + b * (a / b % 2) := Nat.mod_mul
  have hlt : a % b < b := Nat.mod_lt _ hb
  have hbit := Nat.mod_two_eq_zero_or_one (a / b)
  constructor
  · rw [ExtendedMantissa.shiftRightOne, h.mantissa_eq, Nat.div_div_eq_div_mul]
  · rw [ExtendedMantissa.shiftRightOne, h.mantissa_eq, hmod, bne_iff_ne]
    rcases hbit with hbit | hbit <;> rw [hbit] <;> omega
  · rw [ExtendedMantissa.shiftRightOne, Bool.or_eq_true, h.round_iff, h.sticky_iff, hmod]
    rcases hbit with hbit | hbit <;> rw [hbit] <;> omega

/-- A quotient with the side of a half on which its remainder lies. -/
theorem divided_ofMantissaAndAccuracy (a : ℕ) {b : ℕ} (hb : 0 < b) :
    Divided a b (ExtendedMantissa.ofMantissaAndAccuracy (a / b) (accuracyOfFraction (a % b) b)) := by
  unfold accuracyOfFraction
  by_cases hzero : a % b = 0
  · rw [if_pos hzero]
    exact ⟨rfl, iff_of_false Bool.false_ne_true (by omega), iff_of_false Bool.false_ne_true fun h => h.1 hzero⟩
  · rw [if_neg hzero]
    rcases lt_trichotomy (2 * (a % b)) b with hlt | heq | hgt
    · rw [Nat.compare_eq_lt.2 hlt]
      exact ⟨rfl, iff_of_false Bool.false_ne_true (not_le.2 hlt), iff_of_true rfl ⟨hzero, hlt.ne⟩⟩
    · rw [Nat.compare_eq_eq.2 heq]
      exact ⟨rfl, iff_of_true rfl heq.ge, iff_of_false Bool.false_ne_true fun h => h.2 heq⟩
    · rw [Nat.compare_eq_gt.2 hgt]
      exact ⟨rfl, iff_of_true rfl hgt.le, iff_of_true rfl ⟨hzero, hgt.ne'⟩⟩

/-- A quotient shifted right by any number of bits. -/
theorem divided_shiftRight (a : ℕ) {b : ℕ} (hb : 0 < b) (k : ℕ) :
    Divided a (b * 2 ^ k) (ExtendedMantissa.ofMantissaAndAccuracy (a / b) (accuracyOfFraction (a % b) b) >>> k) := by
  induction k with
  | zero =>
    rw [pow_zero, mul_one]
    exact divided_ofMantissaAndAccuracy a hb
  | succ k ih =>
    rw [pow_succ, ← mul_assoc]
    exact ih.shift (by positivity)

/-- What the residual bits round to is the fraction rounded. -/
theorem Divided.roundedMantissa_eq {a b : ℕ} {em : ExtendedMantissa} (hb : 0 < b) (h : Divided a b em) :
    (em.roundedMantissa : ℤ) = roundEven (a / b) := by
  have hpos : (0 : ℚ) < b := by exact_mod_cast hb
  have hfloor : ⌊(a : ℚ) / b⌋ = ((a / b : ℕ) : ℤ) := by
    rw [Rat.floor_natCast_div_natCast]
    exact Int.natCast_div a b
  have hsplit : (a : ℚ) / b - (((a / b : ℕ) : ℤ) : ℚ) = ((a % b : ℕ) : ℚ) / b := by
    have h' : (a : ℚ) = b * ((a / b : ℕ) : ℚ) + ((a % b : ℕ) : ℚ) := by
      exact_mod_cast (Nat.div_add_mod a b).symm
    rw [div_sub' hpos.ne', div_left_inj' hpos.ne', Int.cast_natCast]
    linarith
  have hlt : ((a % b : ℕ) : ℚ) / b < 1 / 2 ↔ 2 * (a % b) < b := by
    rw [div_lt_div_iff₀ hpos two_pos, one_mul, mul_comm]
    exact_mod_cast Iff.rfl
  have heq : ((a % b : ℕ) : ℚ) / b = 1 / 2 ↔ 2 * (a % b) = b := by
    rw [div_eq_div_iff hpos.ne' two_ne_zero, one_mul, mul_comm]
    exact_mod_cast Iff.rfl
  unfold roundEven
  rw [hfloor, hsplit, ExtendedMantissa.roundedMantissa]
  simp only [hlt, heq]
  obtain ⟨q, round, sticky⟩ := em
  obtain ⟨rfl, hr, hs⟩ := h
  cases round <;> cases sticky <;>
    simp only [ExtendedMantissa.accuracy, Accuracy.roundToNearestEven, true_iff, Bool.false_eq_true, false_iff] at hr hs ⊢ <;>
    split <;> omega

/-- The exponent that a mantissa is shifted to: `53` bits are kept, or fewer if that would be too low. -/
theorem targetExponent_binary64 (t : ℤ) : Format.binary64.targetExponent t = max (t - 53) (-1074) := rfl

/-- The exponent that a mantissa is shifted to is that of the last bit kept, also of a number that the mantissa cuts off. -/
theorem targetExponent_eq_lastBit {m : ℕ} {q : ℚ} (hm : 0 < m) (hle : (m : ℚ) ≤ q) (hlt : q < m + 1) (e : ℤ) :
    Format.binary64.targetExponent (totalExponent m e) = lastBit (q * 2 ^ e) := by
  have hq : 0 < q := (Nat.cast_pos.2 hm).trans_le hle
  have hpos : 0 < q * 2 ^ e := mul_pos hq (two_zpow_pos e)
  have hlow : Int.log 2 (q * 2 ^ e) = m.log2 + e := by
    apply le_antisymm
    · have h : q * 2 ^ e < 2 ^ ((m.log2 : ℤ) + e + 1) := by
        have hpow : (m : ℚ) + 1 ≤ ((2 ^ (m.log2 + 1) : ℕ) : ℚ) := by exact_mod_cast Nat.lt_log2_self
        rw [add_right_comm, two_zpow_add, ← Nat.cast_succ, zpow_natCast]
        exact mul_lt_mul_of_pos_right (hlt.trans_le (by exact_mod_cast hpow)) (two_zpow_pos e)
      exact Int.lt_add_one_iff.1 ((Int.lt_zpow_iff_log_lt (by norm_num) hpos).1 (by exact_mod_cast h))
    · have h : (2 : ℚ) ^ ((m.log2 : ℤ) + e) ≤ q * 2 ^ e := by
        have hpow : ((2 ^ m.log2 : ℕ) : ℚ) ≤ m := by exact_mod_cast Nat.log2_self_le hm.ne'
        rw [two_zpow_add, zpow_natCast]
        exact mul_le_mul_of_nonneg_right (le_trans (by exact_mod_cast hpow) hle) (two_zpow_pos e).le
      exact (Int.zpow_le_iff_le_log (by norm_num) hpos).1 (by exact_mod_cast h)
  rw [lastBit, abs_of_pos hpos, hlow]
  rw [targetExponent_binary64, totalExponent]
  omega

/-- If a fraction is less than one and its last bit is not below the units, all of it is below the least exponent. -/
theorem targetExponent_zero {q : ℚ} {e : ℤ} (hq : 0 < q) (hlt : q < 1) (he : e ≤ lastBit (q * 2 ^ e)) :
    Format.binary64.targetExponent (totalExponent 0 e) = lastBit (q * 2 ^ e) := by
  have hpos : 0 < q * 2 ^ e := mul_pos hq (two_zpow_pos e)
  have hlog : Int.log 2 (q * 2 ^ e) < e := by
    refine (Int.lt_zpow_iff_log_lt (by norm_num) hpos).1 ?_
    have h := mul_lt_mul_of_pos_right hlt (two_zpow_pos e)
    rw [one_mul] at h
    exact_mod_cast h
  have hzero : totalExponent 0 e = 1 + e := by
    rw [totalExponent, Nat.log2_zero]
    rfl
  rw [lastBit, abs_of_pos hpos] at he ⊢
  rw [targetExponent_binary64, hzero]
  omega

/-- The exponent that a quotient is shifted to is that of the last bit of the fraction. -/
theorem targetExponent_div {a b : ℕ} {e : ℤ} (ha : 0 < a) (hb : 0 < b) (he : e ≤ lastBit ((a : ℚ) / b * 2 ^ e)) :
    Format.binary64.targetExponent (totalExponent (a / b) e) = lastBit ((a : ℚ) / b * 2 ^ e) := by
  have hpos : (0 : ℚ) < b := by exact_mod_cast hb
  have hlt : (a : ℚ) / b < ((a / b : ℕ) : ℚ) + 1 := by
    rw [div_lt_iff₀ hpos, mul_comm]
    exact_mod_cast Nat.lt_mul_div_succ a hb
  have hle : ((a / b : ℕ) : ℚ) ≤ a / b := by
    rw [le_div_iff₀ hpos]
    exact_mod_cast Nat.div_mul_le_self a b
  rcases Nat.eq_zero_or_pos (a / b) with hzero | hquot
  · rw [hzero, Nat.cast_zero, zero_add] at hlt
    rw [hzero]
    exact targetExponent_zero (div_pos (by exact_mod_cast ha) hpos) hlt he
  · exact targetExponent_eq_lastBit hquot hle hlt e

/-- A mantissa of at most `53` bits is not shifted. -/
theorem shiftToTargetExponent_of_lt {m : ℕ} {e : ℤ} (hm : m < 2 ^ 53) (he : -1074 ≤ e) :
    shiftToTargetExponent Format.binary64 m e .exact = (⟨m, false, false⟩, e) := by
  have hlog : m.log2 < 53 := by
    rcases Nat.eq_zero_or_pos m with rfl | hpos
    · decide
    · exact (Nat.log2_lt hpos.ne').2 hm
  have hk : (Format.binary64.targetExponent (totalExponent m e) - e).toNat = 0 := by
    rw [targetExponent_binary64, totalExponent]
    omega
  rw [shiftToTargetExponent, shiftToExponent, hk]
  change (_, e + 0) = _
  rw [add_zero]
  rfl

/-- A mantissa that rounding has carried to `2 ^ 53` is shifted by one bit. -/
theorem shiftToTargetExponent_carry {e : ℤ} (he : -1074 ≤ e) :
    shiftToTargetExponent Format.binary64 (2 ^ 53) e .exact = (⟨2 ^ 52, false, false⟩, e + 1) := by
  have hk : (Format.binary64.targetExponent (totalExponent (2 ^ 53) e) - e).toNat = 1 := by
    rw [targetExponent_binary64, totalExponent, Nat.log2_two_pow]
    omega
  rw [shiftToTargetExponent, shiftToExponent, hk]
  rfl

/-- Rounding is a shift, a choice of the last bit and a second shift for the carry. -/
theorem roundWithAccuracy_eq (s : Sign) {m r m' : ℕ} {e t e' : ℤ} {acc : Accuracy} {em : ExtendedMantissa}
    (h : shiftToTargetExponent Format.binary64 m e acc = (em, t)) (hr : em.roundedMantissa = r)
    (h' : shiftToTargetExponent Format.binary64 r t .exact = (⟨m', false, false⟩, e')) :
    roundWithAccuracy Format.binary64 s m e acc =
      if hz : m' = 0 then .zero s else .finite s m' e' (Nat.pos_of_ne_zero hz) := by
  subst hr
  unfold roundWithAccuracy
  rw [h]
  dsimp only
  rw [h']

/-- Once the first shift has kept the bits down to the last one and the residual bits have been rounded, what is left of rounding is
the carry to one bit more. -/
theorem rounded_of_shift (s : Sign) {q : ℚ} {m : ℕ} {e : ℤ} {acc : Accuracy} {em : ExtendedMantissa} (hq : 0 < q)
    (hfirst : shiftToTargetExponent Format.binary64 m e acc = (em, lastBit q))
    (hround : (em.roundedMantissa : ℤ) = roundEven (q / 2 ^ lastBit q)) :
    Rounded (roundWithAccuracy Format.binary64 s m e acc) (s.apply 1 * q) := by
  obtain ⟨t, ht⟩ : ∃ t, t = lastBit q := ⟨_, rfl⟩
  obtain ⟨r, hr⟩ : ∃ r, em.roundedMantissa = r := ⟨_, rfl⟩
  have ht0 : -1074 ≤ t := ht ▸ le_lastBit _
  have hnearest : ((r : ℤ) : ℚ) * 2 ^ t = nearest q := by rw [nearest, ← hround, hr, ht]
  rw [← ht] at hfirst
  have hle : r ≤ 2 ^ 53 := by
    have h := nearest_le_two_zpow q
    rw [← hnearest, ← ht, add_comm, two_zpow_add] at h
    exact_mod_cast le_of_mul_le_mul_right h (two_zpow_pos t)
  have hge : -1074 < t → 2 ^ 52 ≤ r := by
    intro h
    have h' := two_zpow_le_nearest hq (ht ▸ h)
    rw [← hnearest, ← ht, add_comm, two_zpow_add] at h'
    exact_mod_cast le_of_mul_le_mul_right h' (two_zpow_pos t)
  have hsign : nearest (s.apply 1 * q) = s.apply 1 * nearest q := by
    cases s <;> simp [Sign.apply, nearest_neg]
  rcases hle.lt_or_eq with hlt | heq
  · rw [roundWithAccuracy_eq s hfirst hr (shiftToTargetExponent_of_lt hlt ht0)]
    by_cases hzero : r = 0
    · rw [dif_pos hzero]
      refine ⟨rfl, trivial, ?_⟩
      rw [hsign, ← hnearest, hzero]
      simp
    · rw [dif_neg hzero]
      refine ⟨rfl, ⟨hlt, ht0, ?_⟩, ?_⟩
      · by_cases h : t = -1074
        · exact Or.inr h
        · exact Or.inl (hge (lt_of_le_of_ne ht0 (Ne.symm h)))
      · rw [hsign, ← hnearest, number_finite]
        cases s <;> simp [Sign.apply]
  · have hcarry : ((2 ^ 52 : ℤ) : ℚ) * 2 ^ (t + 1) = ((2 ^ 53 : ℤ) : ℚ) * 2 ^ t := by
      rw [two_zpow_add, zpow_one]
      push_cast
      ring
    rw [roundWithAccuracy_eq s hfirst hr (heq ▸ shiftToTargetExponent_carry ht0), dif_neg (by norm_num)]
    refine ⟨rfl, ⟨by norm_num, by omega, Or.inl le_rfl⟩, ?_⟩
    rw [hsign, ← hnearest, heq, number_finite]
    push_cast at hcarry ⊢
    cases s <;> simp [Sign.apply, hcarry]

/-- Rounding a quotient of which the remainder tells what has been dropped yields the number nearest to the fraction. -/
theorem rounded_roundWithAccuracy (s : Sign) {a b : ℕ} {e : ℤ} (ha : 0 < a) (hb : 0 < b)
    (he : e ≤ lastBit ((a : ℚ) / b * 2 ^ e)) :
    Rounded (roundWithAccuracy Format.binary64 s (a / b) e (accuracyOfFraction (a % b) b)) (s.apply 1 * (a / b * 2 ^ e)) := by
  have hpos : (0 : ℚ) < a / b * 2 ^ e := mul_pos (div_pos (by exact_mod_cast ha) (by exact_mod_cast hb)) (two_zpow_pos e)
  obtain ⟨k, hk⟩ := Int.eq_ofNat_of_zero_le (sub_nonneg.2 he)
  have hlast : lastBit ((a : ℚ) / b * 2 ^ e) = e + k := by omega
  have hdivided := divided_shiftRight a hb k
  obtain ⟨em, hem⟩ : ∃ em, em = (ExtendedMantissa.ofMantissaAndAccuracy (a / b) (accuracyOfFraction (a % b) b) >>> k :
    ExtendedMantissa) := ⟨_, rfl⟩
  rw [← hem] at hdivided
  refine rounded_of_shift s hpos (?_ : _ = (em, _)) ?_
  · have hshift : (Format.binary64.targetExponent (totalExponent (a / b) e) - e).toNat = k := by
      rw [targetExponent_div ha hb he, hlast]
      omega
    rw [shiftToTargetExponent, shiftToExponent, hshift, hlast, hem]
  · have hdiv : (a : ℚ) / b * 2 ^ e / 2 ^ (e + k : ℤ) = a / ((b * 2 ^ k : ℕ) : ℚ) := by
      rw [two_zpow_add, zpow_natCast]
      push_cast
      field_simp
    rw [hlast, hdiv, hdivided.roundedMantissa_eq (by positivity)]

/-- A sign is a factor. -/
theorem cast_apply (s : Sign) (m : ℕ) : ((s.apply m : ℤ) : ℚ) = s.apply 1 * m := by
  cases s <;> simp [Sign.apply]

/-- Rounding a mantissa of which nothing has been dropped yields the nearest number. -/
theorem rounded_roundWithAccuracy_exact (s : Sign) {m : ℕ} {e : ℤ} (hm : 0 < m) (he : e ≤ lastBit (m * 2 ^ e)) :
    Rounded (roundWithAccuracy Format.binary64 s m e .exact) (s.apply m * 2 ^ e) := by
  have h := rounded_roundWithAccuracy s hm one_pos (e := e) (by rwa [Nat.cast_one, div_one])
  rwa [Nat.div_one, Nat.mod_one, Nat.cast_one, div_one, ← mul_assoc, ← cast_apply] at h

/-- Lowering an exponent changes the mantissa and not the number. -/
theorem decreaseExponent_eq (m : ℕ) (e t : ℤ) :
    ∃ k : ℕ, decreaseExponent m e t = (m * 2 ^ k, e - k) ∧ (t ≤ e → e - k = t) ∧ (e ≤ t → k = 0) := by
  refine ⟨(e - t).toNat, ?_, fun h => by omega, fun h => by omega⟩
  rw [decreaseExponent, Nat.shiftLeft_eq]

/-- A mantissa times a power of two stands for the same number at the lower exponent. -/
theorem mantissa_mul_two_zpow (m k : ℕ) (e : ℤ) : ((m * 2 ^ k : ℕ) : ℚ) * 2 ^ (e - k) = m * 2 ^ e := by
  rw [zpow_sub₀ (by norm_num), zpow_natCast]
  push_cast
  field_simp

/-- Rounding a mantissa yields the nearest number. -/
theorem rounded_round (s : Sign) {m : ℕ} (e : ℤ) (hm : 0 < m) :
    Rounded (UnpackedFloat.round Format.binary64 s m e) (s.apply m * 2 ^ e) := by
  obtain ⟨k, hk, hdown, hup⟩ := decreaseExponent_eq m e (Format.binary64.targetExponent (totalExponent m e))
  rw [targetExponent_eq_lastBit hm le_rfl (lt_add_one _)] at hk hdown hup
  have hnum := mantissa_mul_two_zpow m k e
  have hsign : (s.apply (m * 2 ^ k : ℕ) : ℚ) * 2 ^ (e - k) = s.apply m * 2 ^ e := by
    cases s <;> simpa [Sign.apply] using hnum
  have hle : e - k ≤ lastBit (((m * 2 ^ k : ℕ) : ℚ) * 2 ^ (e - k)) := by
    rw [hnum]
    rcases le_total (lastBit ((m : ℚ) * 2 ^ e)) e with h | h
    · exact (hdown h).le
    · have := hup h
      omega
  have := rounded_roundWithAccuracy_exact s (Nat.mul_pos hm (by positivity)) hle
  rw [hsign] at this
  simp only [UnpackedFloat.round, targetExponent_eq_lastBit hm le_rfl (lt_add_one _), hk]
  exact this

/-- Normalizing a signed mantissa yields the nearest number. -/
theorem rounded_normalize (z e : ℤ) (s : Sign) : Rounded (UnpackedFloat.normalize Format.binary64 z e s) (z * 2 ^ e) := by
  unfold UnpackedFloat.normalize
  rcases lt_trichotomy z 0 with h | rfl | h
  · rw [Int.compare_eq_lt.2 h]
    have := rounded_round .negative (m := (-z).toNat) e (by omega)
    rw [Sign.apply, Int.toNat_of_nonneg (by omega), neg_neg] at this
    exact this
  · rw [Int.compare_eq_eq.2 rfl]
    exact ⟨rfl, trivial, by simp⟩
  · rw [Int.compare_eq_gt.2 h]
    have := rounded_round .positive (m := z.toNat) e (by omega)
    rw [Sign.apply, Int.toNat_of_nonneg (by omega)] at this
    exact this

/-! ## Operations -/

/-- A number in canonical form has few bits. -/
theorem representable_number {f : UnpackedFloat} (h : Canonical f) : Representable (number f) := by
  cases f with
  | finite s m e hm =>
    refine ⟨s.apply m, e, ?_, h.2.1, rfl⟩
    have := h.1
    cases s <;> simp only [Sign.apply, abs_neg, Nat.abs_cast] <;> exact_mod_cast this
  | _ => exact ⟨0, 0, by simp, by simp, (zero_mul _).symm⟩

/-- What is already in canonical form is its own nearest number. -/
theorem Canonical.rounded {f : UnpackedFloat} (h : Canonical f) (hf : f.isFinite = true) : Rounded f (number f) :=
  ⟨hf, h, (nearest_eq_self (representable_number h)).symm⟩

/-- A signed mantissa brought to a lower exponent stands for the same number. -/
theorem apply_decreaseExponent (s : Sign) (m : ℕ) {e t : ℤ} (h : t ≤ e) :
    ((s.apply (decreaseExponent m e t).1 : ℤ) : ℚ) * 2 ^ t = s.apply m * 2 ^ e := by
  obtain ⟨k, hk, hdown, _⟩ := decreaseExponent_eq m e t
  have hnum := mantissa_mul_two_zpow m k e
  rw [hdown h] at hnum
  rw [hk]
  cases s <;> simpa [Sign.apply] using hnum

/-- The opposite stands for the opposite number. -/
theorem number_neg (f : UnpackedFloat) : number f.neg = -number f := by
  cases f with
  | finite s m e hm =>
    cases s
    · change ((m : ℤ) : ℚ) * 2 ^ e = -(((-m : ℤ) : ℚ) * 2 ^ e)
      push_cast
      ring
    · change ((-m : ℤ) : ℚ) * 2 ^ e = -(((m : ℤ) : ℚ) * 2 ^ e)
      push_cast
      ring
  | _ => exact neg_zero.symm

/-- The opposite is in canonical form. -/
theorem Canonical.neg {f : UnpackedFloat} (h : Canonical f) : Canonical f.neg := by
  cases f with
  | finite s m e hm => exact h
  | _ => trivial

/-- The opposite of a finite number is finite. -/
@[simp] theorem isFinite_neg (f : UnpackedFloat) : f.neg.isFinite = f.isFinite := by
  cases f <;> rfl

/-- A finite number is a zero, or a mantissa and an exponent. -/
theorem finite_cases {f : UnpackedFloat} (h : f.isFinite = true) :
    (∃ s, f = .zero s) ∨ ∃ s m e hm, f = .finite s m e hm := by
  cases f with
  | notANumber => exact absurd h Bool.false_ne_true
  | infinity s => exact absurd h Bool.false_ne_true
  | zero s => exact Or.inl ⟨s, rfl⟩
  | finite s m e hm => exact Or.inr ⟨s, m, e, hm, rfl⟩

/-- A sum of finite numbers is rounded. -/
theorem rounded_add {f g : UnpackedFloat} (hf : Canonical f) (hg : Canonical g) (hf' : f.isFinite = true)
    (hg' : g.isFinite = true) : Rounded (UnpackedFloat.add Format.binary64 f g) (number f + number g) := by
  obtain ⟨s, rfl⟩ | ⟨s, m, e, hm, rfl⟩ := finite_cases hf'
  · rw [show number (.zero s) = 0 from rfl, zero_add]
    obtain ⟨t, rfl⟩ | ⟨t, m', e', hm', rfl⟩ := finite_cases hg'
    · cases s <;> cases t <;> exact ⟨rfl, trivial, nearest_zero.symm⟩
    · exact hg.rounded rfl
  · obtain ⟨t, rfl⟩ | ⟨t, m', e', hm', rfl⟩ := finite_cases hg'
    · rw [show number (.zero t) = 0 from rfl, add_zero]
      exact hf.rounded rfl
    · have := rounded_normalize
        (s.apply (decreaseExponent m e (min e e')).1 + t.apply (decreaseExponent m' e' (min e e')).1) (min e e') .positive
      rw [Int.cast_add, add_mul, apply_decreaseExponent s m (min_le_left e e'),
        apply_decreaseExponent t m' (min_le_right e e')] at this
      exact this

/-- A difference is the sum with the opposite. -/
theorem sub_eq_add (f g : UnpackedFloat) :
    UnpackedFloat.sub Format.binary64 f g = UnpackedFloat.add Format.binary64 f g.neg := by
  have happly : ∀ (s t : Sign) (a b : ℤ), s.apply a - t.apply b = s.apply a + (-t).apply b := by
    intro s t a b
    cases t
    · exact sub_neg_eq_add _ _
    · exact sub_eq_add_neg _ _
  cases f with
  | finite s m e hm =>
    cases g with
    | finite t m' e' hm' => exact congrArg (fun z => UnpackedFloat.normalize Format.binary64 z _ _) (happly s t _ _)
    | _ => rfl
  | _ => cases g <;> rfl

/-- The sign of a product. -/
theorem apply_mul (s t : Sign) (a b : ℤ) : (s * t).apply (a * b) = s.apply a * t.apply b := by
  cases s <;> cases t
  · exact (neg_mul_neg a b).symm
  · exact (neg_mul a b).symm
  · exact (mul_neg a b).symm
  · rfl

/-- A product of canonical mantissas has at least `53` bits, or its exponent is so small that bits are dropped anyway. -/
theorem le_lastBit_mul {s t : Sign} {m m' : ℕ} {e e' : ℤ} {hm : 0 < m} {hm' : 0 < m'} (h : Canonical (.finite s m e hm))
    (h' : Canonical (.finite t m' e' hm')) : e + e' ≤ lastBit ((m * m' : ℕ) * 2 ^ (e + e')) := by
  have hcases : 2 ^ 52 ≤ m * m' ∨ e + e' ≤ -1074 := by
    rcases h.2.2 with hm52 | he
    · exact Or.inl (hm52.trans (Nat.le_mul_of_pos_right m hm'))
    · rcases h'.2.2 with hm52 | he'
      · exact Or.inl (hm52.trans (Nat.le_mul_of_pos_left m' hm))
      · exact Or.inr (by omega)
  rcases hcases with hbits | hexp
  · apply le_lastBit_of_le
    rw [abs_of_nonneg (mul_nonneg (Nat.cast_nonneg _) (two_zpow_pos _).le), add_comm, two_zpow_add]
    exact mul_le_mul_of_nonneg_right (by exact_mod_cast hbits) (two_zpow_pos _).le
  · exact hexp.trans (le_lastBit _)

/-- A product of finite numbers is rounded. -/
theorem rounded_mul {f g : UnpackedFloat} (hf : Canonical f) (hg : Canonical g) (hf' : f.isFinite = true)
    (hg' : g.isFinite = true) : Rounded (UnpackedFloat.mul Format.binary64 f g) (number f * number g) := by
  obtain ⟨s, rfl⟩ | ⟨s, m, e, hm, rfl⟩ := finite_cases hf'
  · rw [show number (.zero s) = 0 from rfl, zero_mul]
    obtain ⟨t, rfl⟩ | ⟨t, m', e', hm', rfl⟩ := finite_cases hg' <;> exact ⟨rfl, trivial, nearest_zero.symm⟩
  · obtain ⟨t, rfl⟩ | ⟨t, m', e', hm', rfl⟩ := finite_cases hg'
    · rw [show number (.zero t) = 0 from rfl, mul_zero]
      exact ⟨rfl, trivial, nearest_zero.symm⟩
    · have hnum : (((s * t).apply (m * m' : ℕ) : ℤ) : ℚ) * 2 ^ (e + e') =
          number (.finite s m e hm) * number (.finite t m' e' hm') := by
        rw [two_zpow_add, number_finite, number_finite, Nat.cast_mul, apply_mul, Int.cast_mul]
        ring
      have := rounded_roundWithAccuracy_exact (s * t) (Nat.mul_pos hm hm') (le_lastBit_mul hf hg)
      rw [hnum] at this
      exact this

/-- The exponent that a quotient is computed at is not above that of its last bit. -/
theorem targetExponent_sub_le_lastBit {m m' : ℕ} (hm : 0 < m) (hm' : 0 < m') (e e' : ℤ) :
    Format.binary64.targetExponent (totalExponent m e - totalExponent m' e') ≤ lastBit ((m : ℚ) * 2 ^ e / (m' * 2 ^ e')) := by
  have hpos : (0 : ℚ) < m * 2 ^ e := mul_pos (by exact_mod_cast hm) (two_zpow_pos e)
  have hpos' : (0 : ℚ) < m' * 2 ^ e' := mul_pos (by exact_mod_cast hm') (two_zpow_pos e')
  have hlow : (2 : ℚ) ^ ((m.log2 : ℤ) + e) ≤ m * 2 ^ e := by
    rw [two_zpow_add, zpow_natCast]
    exact mul_le_mul_of_nonneg_right (by exact_mod_cast Nat.log2_self_le hm.ne') (two_zpow_pos e).le
  have hhigh : (m' : ℚ) * 2 ^ e' ≤ 2 ^ ((m'.log2 : ℤ) + 1 + e') := by
    rw [two_zpow_add, ← Nat.cast_succ, zpow_natCast]
    exact mul_le_mul_of_nonneg_right (by exact_mod_cast Nat.lt_log2_self.le) (two_zpow_pos e').le
  have hbits : totalExponent m e - totalExponent m' e' - 53 ≤ lastBit ((m : ℚ) * 2 ^ e / (m' * 2 ^ e')) := by
    apply le_lastBit_of_le
    rw [abs_of_pos (div_pos hpos hpos'), le_div_iff₀ hpos']
    calc (2 : ℚ) ^ (totalExponent m e - totalExponent m' e' - 53 + 52) * (m' * 2 ^ e')
        ≤ 2 ^ (totalExponent m e - totalExponent m' e' - 53 + 52) * 2 ^ ((m'.log2 : ℤ) + 1 + e') :=
          mul_le_mul_of_nonneg_left hhigh (two_zpow_pos _).le
      _ = 2 ^ ((m.log2 : ℤ) + e) := by
          rw [← two_zpow_add, totalExponent, totalExponent]
          congr 1
          omega
      _ ≤ m * 2 ^ e := hlow
  rw [targetExponent_binary64]
  exact max_le hbits (le_lastBit _)

/-- The sign of a quotient. -/
theorem apply_div (s t : Sign) : (((s / t).apply 1 : ℤ) : ℚ) = s.apply 1 / t.apply 1 := by
  cases s <;> cases t
  · change ((1 : ℤ) : ℚ) = ((-1 : ℤ) : ℚ) / ((-1 : ℤ) : ℚ)
    norm_num
  · exact (div_one ((-1 : ℤ) : ℚ)).symm
  · change ((-1 : ℤ) : ℚ) = ((1 : ℤ) : ℚ) / ((-1 : ℤ) : ℚ)
    norm_num
  · exact (div_one ((1 : ℤ) : ℚ)).symm

/-- A quotient of mantissas with exponents is rounded, whether they are in canonical form or not. -/
theorem rounded_div_finite (s t : Sign) {m m' : ℕ} (e e' : ℤ) (hm : 0 < m) (hm' : 0 < m') :
    Rounded (UnpackedFloat.div Format.binary64 (.finite s m e hm) (.finite t m' e' hm'))
      (number (.finite s m e hm) / number (.finite t m' e' hm')) := by
  -- The dividend is brought to the exponent `d + e'`, at which the quotient has all its bits and perhaps one more.
  obtain ⟨d, hd⟩ : ∃ d, d = min (e - e') (Format.binary64.targetExponent (totalExponent m e - totalExponent m' e')) := ⟨_, rfl⟩
  obtain ⟨k, hk⟩ := Int.eq_ofNat_of_zero_le (sub_nonneg.2 (hd ▸ min_le_left _ _ : d ≤ e - e'))
  have hcore : divCore Format.binary64 m e m' e' = (m * 2 ^ k / m', d, accuracyOfFraction (m * 2 ^ k % m') m') := by
    have hshift : (e - e' - d).toNat = k := by omega
    simp only [divCore, ← hd, hshift, Nat.shiftLeft_eq]
  have hdiv : UnpackedFloat.div Format.binary64 (.finite s m e hm) (.finite t m' e' hm') =
      roundWithAccuracy Format.binary64 (s / t) (m * 2 ^ k / m') d (accuracyOfFraction (m * 2 ^ k % m') m') := by
    change roundWithAccuracy Format.binary64 (s / t) (divCore Format.binary64 m e m' e').1 (divCore Format.binary64 m e m' e').2.1
      (divCore Format.binary64 m e m' e').2.2 = _
    rw [hcore]
  have hnum : ((m * 2 ^ k : ℕ) : ℚ) / m' * 2 ^ d = m * 2 ^ e / (m' * 2 ^ e') := by
    have hexp : e = k + d + e' := by omega
    rw [hexp, two_zpow_add, two_zpow_add, zpow_natCast]
    have := (two_zpow_pos e').ne'
    push_cast
    field_simp
  have hle : d ≤ lastBit (((m * 2 ^ k : ℕ) : ℚ) / m' * 2 ^ d) := by
    rw [hnum, hd]
    exact (min_le_right _ _).trans (targetExponent_sub_le_lastBit hm hm' e e')
  have hround := rounded_roundWithAccuracy (s / t) (Nat.mul_pos hm (Nat.two_pow_pos k)) hm' hle
  rw [hnum, apply_div, div_mul_div_comm] at hround
  rw [hdiv, number_finite, number_finite, cast_apply s m, cast_apply t m', mul_assoc, mul_assoc]
  exact hround

/-- A quotient of finite numbers is rounded, unless the divisor is zero. -/
theorem rounded_div {f g : UnpackedFloat} (hf' : f.isFinite = true) (hg' : g.isFinite = true) (hg : number g ≠ 0) :
    Rounded (UnpackedFloat.div Format.binary64 f g) (number f / number g) := by
  obtain ⟨t, rfl⟩ | ⟨t, m', e', hm', rfl⟩ := finite_cases hg'
  · exact absurd (number_zero t) hg
  · obtain ⟨s, rfl⟩ | ⟨s, m, e, hm, rfl⟩ := finite_cases hf'
    · rw [number_zero, zero_div]
      exact ⟨rfl, trivial, nearest_zero.symm⟩
    · exact rounded_div_finite s t e e' hm hm'

end PerfectMatching.Binary64
