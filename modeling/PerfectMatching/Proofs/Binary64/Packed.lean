import PerfectMatching.Proofs.Binary64.Unpacked

/-!
# Binary64 numbers as bits

Packing puts sign, exponent and mantissa into `64` bits, and unpacking takes them out again. Main statements: what is
unpacked is in canonical form (`canonical_unpack`), what is packed in canonical form is unpacked again unless its exponent
is too large for its field (`unpack_pack`), and then an infinite number is (`unpack_pack_large`). The other way round, a finite
number that has been unpacked is packed to the same bits (`pack_unpack`).
-/

namespace PerfectMatching.Binary64

open Float.Model Float.Model.UnpackedFloat

/-- The sign that has been packed is unpacked. -/
theorem unpackSign_packComponents (spec : Format) (s : Sign) (e : BitVec spec.exponentBits)
    (m : BitVec spec.mantissaBitsWithoutImplicit) : unpackSign (packComponents spec s e m) = s.toBitVec := by
  ext i hi
  obtain rfl : i = 0 := by omega
  delta unpackSign packComponents
  simp [BitVec.getLsbD_append, BitVec.getElem_append]

/-- Signs and bits correspond. -/
theorem ofBitVec_toBitVec (s : Sign) : Sign.ofBitVec s.toBitVec = s := by
  cases s <;> rfl

/-- A sign bit is that of its sign. -/
theorem toBitVec_ofBitVec (v : BitVec 1) : (Sign.ofBitVec v).toBitVec = v := by
  rcases BitVec.eq_zero_or_eq_one v with rfl | rfl <;> rfl

/-- The leading bit that a mantissa of `53` bits loses when it is packed is put back when it is unpacked. -/
theorem toNat_one_append (m : BitVec 52) : (1#1 ++ m).toNat = 2 ^ 52 + m.toNat := by
  rw [BitVec.toNat_append, ← Nat.shiftLeft_add_eq_or_of_lt m.isLt]
  rfl

/-- The sign that bits are unpacked to. -/
def signOf (b : BitVec 64) : Sign := Sign.ofBitVec (@unpackSign Format.binary64 b)

/-- The exponent field of bits. -/
def exponentField (b : BitVec 64) : BitVec 11 := @unpackExponent Format.binary64 b

/-- The mantissa field of bits. -/
def mantissaField (b : BitVec 64) : BitVec 52 := @unpackMantissa Format.binary64 b

/-- The fields that have been packed are unpacked. -/
theorem fields_packComponents (s : Sign) (e : BitVec 11) (m : BitVec 52) :
    signOf (packComponents Format.binary64 s e m) = s ∧ exponentField (packComponents Format.binary64 s e m) = e ∧
      mantissaField (packComponents Format.binary64 s e m) = m := by
  refine ⟨?_, unpackExponent_packComponents, unpackMantissa_packComponents⟩
  rw [signOf, unpackSign_packComponents, ofBitVec_toBitVec]

/-- The fields of bits, packed, are the bits. -/
theorem packComponents_fields (b : BitVec 64) :
    packComponents Format.binary64 (signOf b) (exponentField b) (mantissaField b) = b := by
  rw [packComponents, signOf, toBitVec_ofBitVec]
  change b.extractLsb' 63 1 ++ b.extractLsb' 52 11 ++ b.extractLsb' 0 52 = b
  have htop : b.extractLsb' 63 1 ++ b.extractLsb' 52 11 = b.extractLsb' 52 12 :=
    BitVec.extractLsb'_append_extractLsb'_eq_extractLsb' rfl
  rw [htop]
  exact BitVec.extractLsb'_append_extractLsb'

/-- The parts of a number may be replaced by equal ones. -/
theorem finite_congr {s s' : Sign} {m m' : ℕ} {e e' : ℤ} (hs : s = s') (h : m = m') (he : e = e') (hm : 0 < m) :
    UnpackedFloat.finite s m e hm = .finite s' m' e' (h ▸ hm) := by
  subst hs h he
  rfl

/-- Bits whose exponent field is neither empty nor full are a number of `53` bits. -/
theorem unpack_normal {b : BitVec 64} (h0 : exponentField b ≠ 0#11) (h1 : exponentField b ≠ -1#11) :
    UnpackedFloat.unpack Format.binary64 b =
      .finite (signOf b) (2 ^ 52 + (mantissaField b).toNat) ((exponentField b).toNat - 1075)
        (Nat.add_pos_left (Nat.two_pow_pos 52) _) := by
  change (if exponentField b = -1#11 then _ else if exponentField b = 0#11 then _ else _) = _
  rw [if_neg h1, if_neg h0]
  exact finite_congr rfl (toNat_one_append _) rfl _

/-- Bits whose exponent field is empty are a tiny number or a zero. -/
theorem unpack_tiny {b : BitVec 64} (h : exponentField b = 0#11) :
    UnpackedFloat.unpack Format.binary64 b =
      if hm : (mantissaField b).toNat = 0 then .zero (signOf b)
      else .finite (signOf b) (mantissaField b).toNat (-1074) (Nat.pos_of_ne_zero hm) := by
  change (if exponentField b = -1#11 then _ else if exponentField b = 0#11 then
    if hm : mantissaField b = 0#52 then _ else _ else _) = _
  rw [if_neg (by rw [h]; decide), if_pos h]
  by_cases hm : mantissaField b = 0#52
  · rw [dif_pos hm, dif_pos (by rw [hm]; rfl)]
    rfl
  · have hm0 : (mantissaField b).toNat ≠ 0 := fun h' => hm (BitVec.eq_of_toNat_eq h')
    have he : ((exponentField b).toNat : ℤ) - (1023 + 52) + 1 = -1074 := by
      rw [h]
      decide
    rw [dif_neg hm, dif_neg hm0]
    exact finite_congr rfl rfl he _

/-- Bits whose exponent field is full are an infinite number or none. -/
theorem unpack_full {b : BitVec 64} (h : exponentField b = -1#11) :
    UnpackedFloat.unpack Format.binary64 b = if mantissaField b = 0#52 then .infinity (signOf b) else .notANumber := by
  change (if exponentField b = -1#11 then if mantissaField b = 0#52 then _ else _ else _) = _
  rw [if_pos h]
  rfl

/-- What is packed as an infinite number is unpacked as one. -/
theorem unpack_packedInfinity (s : Sign) :
    UnpackedFloat.unpack Format.binary64 (packedInfinity Format.binary64 s) = .infinity s := by
  obtain ⟨hs, he, hm⟩ := fields_packComponents s (-1#11) 0#52
  refine (unpack_full he).trans ?_
  rw [if_pos hm, hs]

/-- Only the bits of an infinite number are unpacked as one. -/
theorem bits_of_infinity {b : BitVec 64} {s : Sign} (h : UnpackedFloat.unpack Format.binary64 b = .infinity s) :
    b = packComponents Format.binary64 s (-1#11) 0#52 := by
  have hfields := packComponents_fields b
  by_cases hfull : exponentField b = -1#11
  · rw [unpack_full hfull] at h
    split at h
    · rename_i hmantissa
      rw [← UnpackedFloat.infinity.inj h, ← hmantissa, ← hfull, hfields]
    · cases h
  · by_cases hempty : exponentField b = 0#11
    · rw [unpack_tiny hempty] at h
      by_cases hzero : (mantissaField b).toNat = 0
      · cases (dif_pos hzero).symm.trans h
      · cases (dif_neg hzero).symm.trans h
    · cases (unpack_normal hempty hfull).symm.trans h

/-- The exponent of a number in canonical form fits into its field exactly if the number is less than `2 ^ 1024`. -/
theorem abs_number_lt_iff {s : Sign} {m : ℕ} {e : ℤ} {hm : 0 < m} (h : Canonical (.finite s m e hm)) :
    |number (.finite s m e hm)| < 2 ^ 1024 ↔ e ≤ 971 := by
  have habs : |number (.finite s m e hm)| = m * 2 ^ e := by
    rw [number_finite, abs_mul, abs_of_pos (two_zpow_pos e)]
    cases s <;> simp [Sign.apply]
  have hpow : ((2 : ℚ) ^ 1024 : ℚ) = 2 ^ (53 : ℤ) * 2 ^ (971 : ℤ) := by
    rw [← two_zpow_add, ← zpow_natCast]
    norm_num
  rw [habs, hpow]
  constructor
  · intro hlt
    by_contra hgt
    have hm52 : 2 ^ 52 ≤ m := h.2.2.resolve_right (by omega)
    have h1 : (2 : ℚ) ^ (52 : ℤ) * 2 ^ (972 : ℤ) ≤ m * 2 ^ e :=
      mul_le_mul (by exact_mod_cast hm52) (two_zpow_le (by omega)) (two_zpow_pos _).le (Nat.cast_nonneg m)
    rw [← two_zpow_add] at h1 hlt
    exact absurd (h1.trans_lt hlt) (by norm_num)
  · intro hle
    exact mul_lt_mul (by exact_mod_cast h.1) (two_zpow_le hle) (two_zpow_pos e) (two_zpow_pos 53).le

/-- What is unpacked is in canonical form, and its exponent fits into its field. -/
theorem canonical_unpack (b : BitVec 64) :
    Canonical (UnpackedFloat.unpack Format.binary64 b) ∧ |number (UnpackedFloat.unpack Format.binary64 b)| < 2 ^ 1024 := by
  have hzero : |(0 : ℚ)| < 2 ^ 1024 := by
    rw [abs_zero]
    positivity
  have hm := (mantissaField b).isLt
  have he := (exponentField b).isLt
  by_cases hfull : exponentField b = -1#11
  · rw [unpack_full hfull]
    split <;> exact ⟨trivial, hzero⟩
  · by_cases hempty : exponentField b = 0#11
    · by_cases hne : (mantissaField b).toNat = 0
      · rw [unpack_tiny hempty, dif_pos hne]
        exact ⟨trivial, hzero⟩
      · rw [unpack_tiny hempty, dif_neg hne]
        have hc : Canonical (.finite (signOf b) (mantissaField b).toNat (-1074) (Nat.pos_of_ne_zero hne)) :=
          ⟨by omega, le_rfl, Or.inr rfl⟩
        exact ⟨hc, (abs_number_lt_iff hc).2 (by norm_num)⟩
    · have h0 : (exponentField b).toNat ≠ 0 := fun h => hempty (BitVec.eq_of_toNat_eq h)
      have h1 : (exponentField b).toNat ≠ 2047 := fun h => hfull (BitVec.eq_of_toNat_eq h)
      have hc : Canonical (.finite (signOf b) (2 ^ 52 + (mantissaField b).toNat) ((exponentField b).toNat - 1075)
          (by positivity)) := ⟨by omega, by omega, Or.inl (by omega)⟩
      rw [unpack_normal hempty hfull]
      exact ⟨hc, (abs_number_lt_iff hc).2 (by omega)⟩

/-- What a finite number other than zero is packed to. -/
theorem pack_finite (s : Sign) {m : ℕ} (e : ℤ) (hm : 0 < m) :
    UnpackedFloat.pack Format.binary64 (.finite s m e hm) =
      if 2047 ≤ (e + 1075).toNat then packedInfinity Format.binary64 s
      else if 2 ^ 52 ≤ m ∧ m < 2 ^ 53 then
        packComponents Format.binary64 s (BitVec.ofNat 11 (e + 1075).toNat) (BitVec.ofNat 52 m)
      else packComponents Format.binary64 s 0#11 (BitVec.ofNat 52 m) := by
  have hbiased : e + 1023 + 52 = e + 1075 := by omega
  have hlog : m.log2 + 1 = 53 ↔ 2 ^ 52 ≤ m ∧ m < 2 ^ 53 := by
    rw [← Nat.log2_eq_iff hm.ne']
    omega
  change (if 2048 ≤ (e + 1023 + 52).toNat + 1 then _ else if m.log2 + 1 = 53 then
    packComponents Format.binary64 s (BitVec.ofNat 11 (e + 1023 + 52).toNat) _ else _) = _
  simp only [hbiased, hlog, show 2048 ≤ (e + 1075).toNat + 1 ↔ 2047 ≤ (e + 1075).toNat by omega]

/-- A finite number is packed as it was unpacked. -/
theorem pack_unpack {b : BitVec 64} (h : (UnpackedFloat.unpack Format.binary64 b).isFinite = true) :
    UnpackedFloat.pack Format.binary64 (UnpackedFloat.unpack Format.binary64 b) = b := by
  have hm := (mantissaField b).isLt
  have he := (exponentField b).isLt
  by_cases hempty : exponentField b = 0#11
  · have hfields := packComponents_fields b
    rw [hempty] at hfields
    by_cases hzero : (mantissaField b).toNat = 0
    · have hmantissa : mantissaField b = 0#52 := BitVec.eq_of_toNat_eq hzero
      rw [unpack_tiny hempty, dif_pos hzero]
      rw [hmantissa] at hfields
      exact hfields
    · rw [unpack_tiny hempty, dif_neg hzero, pack_finite, if_neg (by decide), if_neg (by omega), BitVec.ofNat_toNat,
        BitVec.setWidth_eq]
      exact hfields
  · have hfull : exponentField b ≠ -1#11 := by
      intro hfull
      rw [unpack_full hfull] at h
      split at h <;> exact Bool.false_ne_true h
    have h0 : (exponentField b).toNat ≠ 0 := fun h => hempty (BitVec.eq_of_toNat_eq h)
    have h1 : (exponentField b).toNat ≠ 2047 := fun h => hfull (BitVec.eq_of_toNat_eq h)
    have hexp : (((exponentField b).toNat : ℤ) - 1075 + 1075).toNat = (exponentField b).toNat := by omega
    have hman : BitVec.ofNat 52 (2 ^ 52 + (mantissaField b).toNat) = mantissaField b := by
      apply BitVec.eq_of_toNat_eq
      rw [BitVec.toNat_ofNat]
      omega
    rw [unpack_normal hempty hfull, pack_finite, hexp, if_neg (by omega), if_pos (by omega), hman, BitVec.ofNat_toNat,
      BitVec.setWidth_eq]
    exact packComponents_fields b
/-- A number in canonical form whose exponent fits is unpacked as it was packed. -/
theorem unpack_pack {f : UnpackedFloat} (h : Canonical f) (hlt : |number f| < 2 ^ 1024) :
    (Float.Model.pack f).unpack = f := by
  change UnpackedFloat.unpack Format.binary64 (UnpackedFloat.pack Format.binary64 f) = f
  cases f with
  | notANumber => rfl
  | infinity s => exact unpack_packedInfinity s
  | zero s => cases s <;> rfl
  | finite s m e hm =>
    have he := (abs_number_lt_iff h).1 hlt
    obtain ⟨hm53, he0, hnorm⟩ := h
    rw [pack_finite, if_neg (by omega)]
    by_cases hbits : 2 ^ 52 ≤ m
    · obtain ⟨hs, hE, hM⟩ := fields_packComponents s (BitVec.ofNat 11 (e + 1075).toNat) (BitVec.ofNat 52 m)
      have hexp : (BitVec.ofNat 11 (e + 1075).toNat).toNat = (e + 1075).toNat := by
        rw [BitVec.toNat_ofNat, Nat.mod_eq_of_lt (by omega)]
      have hman : (BitVec.ofNat 52 m).toNat = m - 2 ^ 52 := by
        rw [BitVec.toNat_ofNat]
        omega
      have h0 : BitVec.ofNat 11 (e + 1075).toNat ≠ 0#11 := by
        intro h
        rw [h] at hexp
        change 0 = _ at hexp
        omega
      have h1 : BitVec.ofNat 11 (e + 1075).toNat ≠ -1#11 := by
        intro h
        rw [h] at hexp
        change 2047 = _ at hexp
        omega
      rw [if_pos ⟨hbits, hm53⟩]
      refine (unpack_normal (by rwa [hE]) (by rwa [hE])).trans ?_
      have hm' : 2 ^ 52 + (m - 2 ^ 52) = m := by omega
      have he' : ((e + 1075).toNat : ℤ) - 1075 = e := by omega
      exact finite_congr hs (by rw [hM, hman, hm']) (by rw [hE, hexp, he']) _
    · obtain ⟨hs, hE, hM⟩ := fields_packComponents s 0#11 (BitVec.ofNat 52 m)
      have hman : (mantissaField (packComponents Format.binary64 s 0#11 (BitVec.ofNat 52 m))).toNat = m := by
        rw [hM, BitVec.toNat_ofNat]
        omega
      rw [if_neg fun h' => hbits h'.1, unpack_tiny hE, dif_neg (by rw [hman]; exact hm.ne')]
      exact finite_congr hs hman (hnorm.resolve_left hbits).symm _

/-- A number in canonical form whose exponent does not fit is packed as an infinite one. -/
theorem unpack_pack_large {s : Sign} {m : ℕ} {e : ℤ} {hm : 0 < m} (h : Canonical (.finite s m e hm))
    (hle : 2 ^ 1024 ≤ |number (.finite s m e hm)|) : (Float.Model.pack (.finite s m e hm)).unpack = .infinity s := by
  have he : 971 < e := not_le.1 fun h' => not_lt.2 hle ((abs_number_lt_iff h).2 h')
  change UnpackedFloat.unpack Format.binary64 (UnpackedFloat.pack Format.binary64 _) = _
  rw [pack_finite, if_pos (by omega), unpack_packedInfinity]

end PerfectMatching.Binary64
