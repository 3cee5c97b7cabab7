import PerfectMatching.Decimal.Numeral
import PerfectMatching.Decimal.Shortest
import PerfectMatching.Proofs.Binary64.Opposite
import PerfectMatching.Proofs.Binary64.Whole

/-!
# Decimals and binary64 numbers

A decimal stands for a rational number, and its binary64 number is the nearest one to it (`approximates_toFloat`). A finite binary64
number is a decimal (`value_ofMagnitude`), so its shortest decimal, and any other decimal of the same value, has its magnitude as
nearest number (`toFloat_beq_abs`). With the sign that the number has this gives the number back, bit for bit
(`signed_toFloat_eq`).
-/

namespace PerfectMatching

/-- The rational number that a decimal stands for. -/
def Decimal.value (d : Decimal) : ℚ := d.digits * 10 ^ d.exponent

namespace Binary64

open Float.Model Float.Model.UnpackedFloat

/-! ## The number nearest to a decimal -/

/-- The powers of ten in the table, read off their bits. -/
theorem binaryMagnitude_powerOfTen : ∀ e : Fin 23, ∃ x ∈ Float.exactlyRepresentablePowersOfTen[e.val]?, x.isFinite = true ∧
    (x.toBits >>> 63 == 1) = false ∧ -52 ≤ (Decimal.binaryMagnitude x).2 ∧
      (Decimal.binaryMagnitude x).1 * 2 ^ ((Decimal.binaryMagnitude x).2 + 52).toNat = 10 ^ e.val * 2 ^ 52 := by
  decide +kernel

/-- The powers of ten in the table are exact. -/
theorem value_powerOfTen {e : ℕ} {x : Float} (he : e ≤ 22) (h : Float.exactlyRepresentablePowersOfTen[e]? = some x) :
    x.isFinite = true ∧ value x = 10 ^ e := by
  obtain ⟨y, hy, hfin, hsign, hlow, hmul⟩ := binaryMagnitude_powerOfTen ⟨e, by omega⟩
  obtain rfl : y = x := Option.some.inj ((Option.mem_def.1 hy).symm.trans h)
  refine ⟨hfin, ?_⟩
  rw [value_eq_binaryMagnitude hfin, hsign, if_neg Bool.false_ne_true, Int.cast_natCast]
  obtain ⟨⟨m, q⟩, hmagnitude⟩ : ∃ p, Decimal.binaryMagnitude y = p := ⟨_, rfl⟩
  rw [hmagnitude] at hlow hmul ⊢
  have hmul' : (m : ℚ) * 2 ^ (q + 52).toNat = 10 ^ e * 2 ^ 52 := by exact_mod_cast hmul
  have hq : q = ((q + 52).toNat : ℤ) + -52 := by omega
  rw [hq, two_zpow_add, zpow_natCast, ← mul_assoc, hmul', mul_assoc]
  norm_num

/-- A power of ten is positive. -/
theorem ten_zpow_pos (e : ℤ) : (0 : ℚ) < 10 ^ e := zpow_pos (by norm_num) e

/-- A decimal with a large power of ten is beyond the largest binary64 number. -/
theorem two_pow_le_of_exponent {m : ℕ} {e : ℤ} (hm : 0 < m) (he : 2048 < e) : (2 : ℚ) ^ 1024 ≤ m * 10 ^ e := by
  have hm1 : (1 : ℚ) ≤ m := by exact_mod_cast hm
  calc (2 : ℚ) ^ 1024 = 2 ^ (1024 : ℤ) := by rw [← zpow_natCast, Nat.cast_ofNat]
    _ ≤ 2 ^ e := two_zpow_le (by omega)
    _ ≤ 10 ^ e := zpow_le_zpow_left₀ (by omega) (by norm_num) (by norm_num)
    _ ≤ m * 10 ^ e := le_mul_of_one_le_left (ten_zpow_pos e).le hm1

/-- A decimal with a power of ten far below its digits is nearer to zero than to any binary64 number. -/
theorem lt_two_zpow_of_exponent {m : ℕ} {e : ℤ} (he : e < -(2048 + m.log2)) : (m : ℚ) * 10 ^ e < 2 ^ (-1075 : ℤ) := by
  have hm : (m : ℚ) < 2 ^ ((m.log2 : ℤ) + 1) := by
    rw [← Nat.cast_succ, zpow_natCast]
    exact_mod_cast Nat.lt_log2_self
  have hpow : (10 : ℚ) ^ e ≤ 2 ^ e := by
    obtain ⟨k, rfl⟩ : ∃ k : ℕ, e = -k := ⟨e.natAbs, by omega⟩
    rw [zpow_neg, zpow_neg, zpow_natCast, zpow_natCast]
    exact inv_anti₀ (by positivity) (pow_le_pow_left₀ (by norm_num) (by norm_num) k)
  calc (m : ℚ) * 10 ^ e < 2 ^ ((m.log2 : ℤ) + 1) * 10 ^ e := mul_lt_mul_of_pos_right hm (ten_zpow_pos e)
    _ ≤ 2 ^ ((m.log2 : ℤ) + 1) * 2 ^ e := mul_le_mul_of_nonneg_left hpow (two_zpow_pos _).le
    _ = 2 ^ ((m.log2 : ℤ) + 1 + e) := (two_zpow_add _ _).symm
    _ ≤ 2 ^ (-1075 : ℤ) := two_zpow_le (by omega)

/-- The nearest number of a decimal whose power of ten is neither negative nor large is a product. -/
theorem rounded_mul_powerOfTen {m : ℕ} {e : ℤ} (hm : 0 < m) (he : 0 ≤ e) :
    Rounded (roundWithAccuracy Format.binary64 .positive (m <<< 53 * 10 ^ e.toNat) (-53 + 0) .exact) (m * 10 ^ e) := by
  have hpow : ((10 ^ e.toNat : ℕ) : ℚ) = 10 ^ e := by
    obtain ⟨k, rfl⟩ := Int.eq_ofNat_of_zero_le he
    push_cast
    rfl
  have hvalue : ((m <<< 53 * 10 ^ e.toNat : ℕ) : ℚ) * 2 ^ (-53 + 0 : ℤ) = m * 10 ^ e := by
    rw [Nat.shiftLeft_eq, Nat.cast_mul, hpow]
    push_cast
    norm_num
    ring
  have hbits : (-53 + 0 : ℤ) ≤ lastBit (((m <<< 53 * 10 ^ e.toNat : ℕ) : ℚ) * 2 ^ (-53 + 0 : ℤ)) := by
    have hone : (1 : ℚ) ≤ m * 10 ^ e :=
      one_le_mul_of_one_le_of_one_le (by exact_mod_cast hm) (one_le_zpow₀ (by norm_num) he)
    rw [hvalue]
    apply le_lastBit_of_le
    rw [abs_of_pos (one_pos.trans_le hone)]
    exact le_trans (by norm_num) hone
  have hpos : 0 < m <<< 53 * 10 ^ e.toNat := by
    rw [Nat.shiftLeft_eq]
    positivity
  have hround := rounded_roundWithAccuracy_exact .positive hpos hbits
  rwa [Sign.apply, Int.cast_natCast, hvalue] at hround

/-- The nearest number of a decimal whose power of ten is negative is a quotient. -/
theorem rounded_div_powerOfTen {m : ℕ} {e : ℤ} (hm : 0 < m) (he : e < 0) (hten : 0 < 10 ^ (-e).toNat) :
    Rounded (UnpackedFloat.div Format.binary64 (.finite .positive m 0 hm) (.finite .positive (10 ^ (-e).toNat) 0 hten))
      (m * 10 ^ e) := by
  have hpow : ((10 ^ (-e).toNat : ℕ) : ℚ) = (10 ^ e)⁻¹ := by
    obtain ⟨k, rfl⟩ : ∃ k : ℕ, e = -k := ⟨e.natAbs, by omega⟩
    rw [zpow_neg, inv_inv, neg_neg, Int.toNat_natCast, zpow_natCast]
    push_cast
    rfl
  have hround := rounded_div_finite .positive .positive 0 0 hm hten
  rwa [number_finite, number_finite, Sign.apply, Sign.apply, Int.cast_natCast, Int.cast_natCast, hpow, zpow_zero, mul_one,
    mul_one, div_inv_eq_mul] at hround

/-- The number nearest to a decimal, computed on its digits and its power of ten. -/
theorem approximates_model (m : ℕ) (e : ℤ) : Approximates (.ofModel (Float.Model.ofScientific m e)) (m * 10 ^ e) := by
  change Approximates (.ofModel (Float.Model.pack (UnpackedFloat.ofScientific Format.binary64 m e))) _
  have hnonneg : (0 : ℚ) ≤ m * 10 ^ e := mul_nonneg (Nat.cast_nonneg m) (ten_zpow_pos e).le
  by_cases hzero : m = 0
  · have heq : UnpackedFloat.ofScientific Format.binary64 m e = .zero .positive := dif_pos hzero
    rw [heq, hzero, Nat.cast_zero, zero_mul]
    exact Rounded.approximates ⟨rfl, trivial, nearest_zero.symm⟩
  have hm := Nat.pos_of_ne_zero hzero
  -- The two bounds on the power of ten only save time: beyond them the result is infinite or zero anyway.
  by_cases hlarge : 2048 < e
  · have heq : UnpackedFloat.ofScientific Format.binary64 m e = .infinity .positive := (dif_neg hzero).trans (if_pos hlarge)
    have hle := two_pow_le_nearest (two_pow_le_of_exponent hm hlarge)
    rw [heq]
    exact ⟨fun hlt => absurd ((le_abs_self _).trans_lt hlt) (not_lt.2 hle), fun _ => by
      rw [unpacked_pack_of_not_finite rfl, if_pos hnonneg]⟩
  by_cases hsmall : e < -(2048 + m.log2)
  · have heq : UnpackedFloat.ofScientific Format.binary64 m e = .zero .positive :=
      (dif_neg hzero).trans ((if_neg hlarge).trans (if_pos hsmall))
    rw [heq]
    exact Rounded.approximates ⟨rfl, trivial, (nearest_eq_zero hnonneg (lt_two_zpow_of_exponent hsmall)).symm⟩
  by_cases hwhole : 0 ≤ e
  · have heq : UnpackedFloat.ofScientific Format.binary64 m e =
        roundWithAccuracy Format.binary64 .positive (m <<< 53 * 10 ^ e.toNat) (-53 + 0) .exact :=
      (dif_neg hzero).trans ((if_neg hlarge).trans ((if_neg hsmall).trans (if_pos hwhole)))
    rw [heq]
    exact (rounded_mul_powerOfTen hm hwhole).approximates
  · have hten : 0 < 10 ^ (-e).toNat := Nat.pow_pos (by decide)
    have heq : UnpackedFloat.ofScientific Format.binary64 m e =
        UnpackedFloat.div Format.binary64 (.finite .positive m 0 hm) (.finite .positive (10 ^ (-e).toNat) 0 hten) :=
      (dif_neg hzero).trans ((if_neg hlarge).trans ((if_neg hsmall).trans (if_neg hwhole)))
    rw [heq]
    exact (rounded_div_powerOfTen hm (not_le.1 hwhole) hten).approximates

/-- The number nearest to a whole number times or divided by a power of ten. -/
theorem approximates_ofScientific (m : ℕ) (negative : Bool) (e : ℕ) :
    Approximates (Float.ofScientific m negative e) (m * 10 ^ (if negative then -(e : ℤ) else e)) := by
  rw [Float.ofScientific]
  split
  · rename_i hexact
    obtain ⟨hmfin, hmval⟩ := value_toUInt64_toFloat hexact.1
    obtain ⟨hfin, hval⟩ := value_powerOfTen hexact.2 (Array.getElem?_eq_getElem _)
    cases negative with
    | true =>
      have := approximates_div hmfin hfin (by rw [hval]; positivity)
      rw [hmval, hval, div_eq_mul_inv, ← zpow_natCast, ← zpow_neg] at this
      exact this
    | false =>
      have := approximates_mul hmfin hfin
      rw [hmval, hval, ← zpow_natCast] at this
      exact this
  · cases negative with
    | true =>
      have := approximates_model m (Int.negOfNat e)
      rwa [Int.negOfNat_eq] at this
    | false => exact approximates_model m e

/-- The binary64 number of a decimal is the nearest one. -/
theorem approximates_toFloat (d : Decimal) : Approximates d.toFloat d.value := by
  obtain ⟨m, e⟩ := d
  cases e with
  | ofNat e => exact approximates_ofScientific m false e
  | negSucc e => exact approximates_ofScientific m true (e + 1)

/-! ## The decimal of a number -/

/-- The magnitude of a finite number, read off its bits. -/
theorem abs_value_eq_binaryMagnitude {x : Float} (h : x.isFinite = true) :
    |value x| = (Decimal.binaryMagnitude x).1 * 2 ^ (Decimal.binaryMagnitude x).2 := by
  rw [value_eq_binaryMagnitude h, abs_mul, abs_of_pos (two_zpow_pos _)]
  split <;> simp

/-- A finite number has the magnitude of its decimal. -/
theorem value_ofMagnitude {x : Float} (h : x.isFinite = true) : (Decimal.ofMagnitude x).value = |value x| := by
  rw [abs_value_eq_binaryMagnitude h, Decimal.ofMagnitude]
  split
  · rename_i q hmagnitude
    rw [hmagnitude]
    simp [Decimal.value]
  · rename_i m q _ hmagnitude
    rw [hmagnitude]
    simp [Decimal.value]
  · rename_i m q _ hmagnitude
    rw [hmagnitude]
    have hfive : (5 : ℚ) ^ (q + 1) ≠ 0 := by positivity
    simp only [Decimal.value, zpow_negSucc, Nat.pow_eq]
    rw [show (10 : ℚ) = 2 * 5 by norm_num, mul_pow]
    push_cast
    field_simp

/-- The magnitude of a number in canonical form is in canonical form. -/
theorem Canonical.abs {f : UnpackedFloat} (h : Canonical f) : Canonical f.abs := by
  cases f with
  | finite s m e hm => exact h
  | _ => trivial

/-- The magnitude stands for the magnitude. -/
theorem number_abs (f : UnpackedFloat) : number f.abs = |number f| := by
  cases f with
  | finite s m e hm =>
    change number (.finite .positive m e hm) = |number (.finite s m e hm)|
    cases s
    · rw [number_negative, abs_neg, abs_of_pos (number_positive_pos e hm)]
    · rw [abs_of_pos (number_positive_pos e hm)]
  | _ => exact abs_zero.symm

/-- The magnitude of a number. -/
theorem unpacked_abs (x : Float) : unpacked x.abs = (unpacked x).abs := by
  refine unpack_pack (canonical x).abs ?_
  rw [number_abs, abs_abs]
  exact abs_value_lt x

/-- The magnitude of a finite number is finite. -/
theorem value_abs {x : Float} (h : x.isFinite = true) : x.abs.isFinite = true ∧ value x.abs = |value x| := by
  constructor
  · change (unpacked x).isFinite = true at h
    change (unpacked x.abs).isFinite = true
    rw [unpacked_abs]
    obtain ⟨s, hs⟩ | ⟨s, m, e, hm, hs⟩ := finite_cases h <;> rw [hs] <;> rfl
  · rw [value, unpacked_abs, number_abs, value]

/-- A decimal that stands for the magnitude of a finite number has this as nearest number. -/
theorem toFloat_beq_abs_of_value {x : Float} (h : x.isFinite = true) {d : Decimal} (hd : d.value = |value x|) :
    (d.toFloat == x.abs) = true := by
  obtain ⟨hfin, hval⟩ := value_abs h
  have happrox := approximates_value hfin
  rw [hval, ← hd] at happrox
  exact (approximates_toFloat d).beq happrox

/-- The shortest decimal of a finite number, and any other of the same value, has its magnitude as nearest number. -/
theorem toFloat_beq_abs {x : Float} (h : x.isFinite = true) {tie : Tie} {d : Decimal}
    (hd : d.value = (Decimal.shortest tie x).value) : (d.toFloat == x.abs) = true := by
  have hexact : ((Decimal.ofMagnitude x).toFloat == x.abs) = true := toFloat_beq_abs_of_value h (value_ofMagnitude h)
  have hshortest : ((Decimal.shortest tie x).toFloat == x.abs) = true :=
    @Decimal.passes_shorten tie (fun c => c.toFloat == x.abs) _ hexact _
  have hsame := (approximates_toFloat d).beq (hd ▸ approximates_toFloat (Decimal.shortest tie x))
  obtain ⟨hnan, _, hrank⟩ := beq_iff.1 hsame
  obtain ⟨_, hnan', hrank'⟩ := beq_iff.1 hshortest
  exact beq_iff.2 ⟨hnan, hnan', hrank.trans hrank'⟩

/-! ## Numbers of the same value -/

/-- Magnitudes in canonical form that are equal have the same mantissa and the same exponent. -/
theorem mantissa_exponent_eq {s t : Sign} {m m' : ℕ} {e e' : ℤ} {hm : 0 < m} {hm' : 0 < m'}
    (h : Canonical (.finite s m e hm)) (h' : Canonical (.finite t m' e' hm')) (heq : (m : ℚ) * 2 ^ e = m' * 2 ^ e') :
    m = m' ∧ e = e' := by
  have hcompare := compare_then_compare h h'
  rw [(cmp_eq_eq_iff _ _).2 heq, Ordering.then_eq_eq, Int.compare_eq_eq, Nat.compare_eq_eq] at hcompare
  exact ⟨hcompare.2, hcompare.1⟩

/-- Numbers in canonical form that stand for the same number other than zero are the same. -/
theorem Canonical.eq_of_number_eq {f g : UnpackedFloat} (hf : Canonical f) (hg : Canonical g) (h : number f = number g)
    (hne : number f ≠ 0) : f = g := by
  have hcases : ∀ {u : UnpackedFloat}, number u ≠ 0 → ∃ s m e hm, u = .finite s m e hm := by
    intro u hu
    cases u with
    | finite s m e hm => exact ⟨s, m, e, hm, rfl⟩
    | _ => exact absurd rfl hu
  obtain ⟨s, m, e, hm, rfl⟩ := hcases hne
  obtain ⟨t, m', e', hm', rfl⟩ := hcases (h ▸ hne)
  cases s <;> cases t
  · rw [number_negative, number_negative, neg_inj] at h
    obtain ⟨rfl, rfl⟩ := mantissa_exponent_eq hf hg h
    rfl
  · exact absurd h ((number_negative_neg e hm).trans (number_positive_pos e' hm')).ne
  · exact absurd h ((number_negative_neg e' hm').trans (number_positive_pos e hm)).ne'
  · obtain ⟨rfl, rfl⟩ := mantissa_exponent_eq hf hg h
    rfl

/-- Finite numbers that are unpacked to the same number are the same, bit for bit. -/
theorem eq_of_unpacked_eq {x y : Float} (h : x.isFinite = true) (heq : unpacked x = unpacked y) : x = y := by
  have hpack : ∀ {z : Float}, (unpacked z).isFinite = true →
      UnpackedFloat.pack Format.binary64 (unpacked z) = z.toModel.toBits.toBitVec := fun {z} hz => pack_unpack hz
  have hbits : x.toModel.toBits = y.toModel.toBits := by
    rw [← UInt64.toBitVec_inj, ← hpack h, ← hpack (heq ▸ h), heq]
  obtain ⟨⟨b, _⟩⟩ := x
  obtain ⟨⟨b', _⟩⟩ := y
  obtain rfl : b = b' := hbits
  rfl

/-- Finite numbers that stand for the same number other than zero are the same, bit for bit. -/
theorem eq_of_value_eq {x y : Float} (h : x.isFinite = true) (heq : value x = value y) (hne : value x ≠ 0) : x = y :=
  eq_of_unpacked_eq h ((canonical x).eq_of_number_eq (canonical y) heq hne)

/-! ## Reading back -/

/-- The shortest decimal of a zero is zero. -/
theorem shortest_of_value_eq_zero {x : Float} (h : x.isFinite = true) (hzero : value x = 0) (tie : Tie) :
    Decimal.shortest tie x = ⟨0, 0⟩ := by
  have hmagnitude := abs_value_eq_binaryMagnitude h
  rw [hzero, abs_zero, zero_eq_mul, or_iff_left (two_zpow_pos _).ne', Nat.cast_eq_zero] at hmagnitude
  have hdecimal : Decimal.ofMagnitude x = ⟨0, 0⟩ := by
    rw [Decimal.ofMagnitude]
    split
    · rfl
    · rename_i hne heq
      rw [heq] at hmagnitude
      exact absurd hmagnitude hne
    · rename_i hne heq
      rw [heq] at hmagnitude
      exact absurd hmagnitude hne
  rw [Decimal.shortest, hdecimal]
  rfl

/-- A finite number that stands for zero is one of the two zeros. -/
theorem eq_zero_or_eq_neg_zero {x : Float} (h : x.isFinite = true) (hzero : value x = 0) : x = 0 ∨ x = -0 := by
  obtain ⟨s, hs⟩ | ⟨s, m, e, hm, hs⟩ := finite_cases (f := unpacked x) h
  · cases s
    · exact Or.inr (eq_of_unpacked_eq h (by rw [hs, unpacked_neg]; rfl))
    · exact Or.inl (eq_of_unpacked_eq h (hs.trans unpacked_zero.symm))
  · rw [value, hs] at hzero
    cases s
    · exact absurd hzero (number_negative_neg e hm).ne
    · exact absurd hzero (number_positive_pos e hm).ne'

/-- A finite number has the sign of its first bit. -/
theorem value_eq_signed_abs {x : Float} (h : x.isFinite = true) :
    value x = if x.toBits >>> 63 == 1 then -|value x| else |value x| := by
  rw [abs_value_eq_binaryMagnitude h, value_eq_binaryMagnitude h]
  split <;> simp

/-- A finite number is read back from its sign and a decimal of the value of its shortest one, bit for bit; for the two zeros this is
the decimal zero. -/
theorem signed_toFloat_eq {x : Float} (h : x.isFinite = true) {tie : Tie} {d : Decimal}
    (hd : d.value = (Decimal.shortest tie x).value) (hzero : Decimal.shortest tie x = ⟨0, 0⟩ → d = ⟨0, 0⟩) :
    (⟨x.toBits >>> 63 == 1, d⟩ : Numeral).toFloat = x := by
  -- The two zeros have the same value, so they are told apart by their bits.
  by_cases hne : value x = 0
  · rw [hzero (shortest_of_value_eq_zero h hne tie)]
    rcases eq_zero_or_eq_neg_zero h hne with rfl | rfl <;> decide +kernel
  · obtain ⟨_, habs⟩ := isFinite_of_beq (toFloat_beq_abs h hd) (value_abs h).1
    rw [(value_abs h).2] at habs
    refine (eq_of_value_eq h ?_ hne).symm
    rw [value_eq_signed_abs h, Numeral.toFloat]
    split
    · rw [value_neg, habs]
    · exact habs.symm

end Binary64

end PerfectMatching
