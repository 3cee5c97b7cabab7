import Mathlib.Data.Int.Log
import Mathlib.Data.Rat.Floor
import Mathlib.Tactic.FieldSimp
import Mathlib.Tactic.Linarith
import Mathlib.Tactic.Ring

/-!
# Rounding to binary64

The exact result of an operation on binary64 numbers is a rational number, and the operation yields the binary64 number
nearest to it, of two equally near ones the even one. `nearest` is that function, without a largest number: it rounds to
`53` significant bits, or to a multiple of `2 ^ -1074` if that is coarser. Main statements: it is monotone
(`nearest_mono`), changes no number that has so few bits (`nearest_eq_self`), and errs by at most `2 ^ -53` of a sum of
such numbers (`abs_nearest_sub_le`).
-/

namespace PerfectMatching.Binary64

/-! ## Whole numbers -/

/-- The nearest whole number, of two equally near ones the even one. -/
def roundEven (q : ℚ) : ℤ :=
  if q - ⌊q⌋ < 1 / 2 ∨ (q - ⌊q⌋ = 1 / 2 ∧ ⌊q⌋ % 2 = 0) then ⌊q⌋ else ⌊q⌋ + 1

/-- A whole number is its own nearest. -/
@[simp] theorem roundEven_intCast (k : ℤ) : roundEven k = k := by
  simp [roundEven]

/-- The nearest whole number is the one below or the one above. -/
theorem floor_le_roundEven (q : ℚ) : ⌊q⌋ ≤ roundEven q ∧ roundEven q ≤ ⌊q⌋ + 1 := by
  unfold roundEven
  split <;> omega

/-- Rounding to a whole number errs by at most a half. -/
theorem abs_roundEven_sub_le (q : ℚ) : |roundEven q - q| ≤ 1 / 2 := by
  have h0 := Int.floor_le q
  unfold roundEven
  split
  · rename_i h
    rw [abs_le]
    rcases h with h | ⟨h, _⟩ <;> constructor <;> linarith
  · rename_i h
    have h1 := Int.lt_floor_add_one q
    have h2 : 1 / 2 ≤ q - ⌊q⌋ := not_lt.1 fun hlt => h (Or.inl hlt)
    push_cast
    rw [abs_le]
    constructor <;> linarith

/-- Rounding to a whole number keeps the order. -/
theorem roundEven_mono {p q : ℚ} (h : p ≤ q) : roundEven p ≤ roundEven q := by
  rcases (Int.floor_le_floor h).lt_or_eq with hlt | heq
  · exact (floor_le_roundEven p).2.trans ((Int.add_one_le_iff.2 hlt).trans (floor_le_roundEven q).1)
  · unfold roundEven
    rw [heq]
    split
    · split <;> omega
    · rename_i hp
      rw [if_neg]
      rintro (hq | ⟨hq, he⟩)
      · exact hp (Or.inl (by linarith))
      · rcases h.lt_or_eq with hlt | rfl
        · exact hp (Or.inl (by linarith))
        · exact hp (Or.inr ⟨hq, he⟩)

/-- The opposite of a number is rounded to the opposite. -/
theorem roundEven_neg (q : ℚ) : roundEven (-q) = -roundEven q := by
  by_cases hq : (⌊q⌋ : ℚ) = q
  · rw [← hq, ← Int.cast_neg, roundEven_intCast, roundEven_intCast]
  · have h0 : (⌊q⌋ : ℚ) < q := lt_of_le_of_ne (Int.floor_le q) hq
    have h1 := Int.lt_floor_add_one q
    have hf : ⌊-q⌋ = -⌊q⌋ - 1 := by
      rw [Int.floor_eq_iff]
      push_cast
      constructor <;> linarith
    unfold roundEven
    rw [hf]
    push_cast
    rcases lt_trichotomy (q - ⌊q⌋) (1 / 2) with h | h | h
    · rw [if_neg, if_pos (Or.inl h)]
      · omega
      · rintro (h' | ⟨h', _⟩) <;> linarith
    · have h' : -q - (-(⌊q⌋ : ℚ) - 1) = 1 / 2 := by linarith
      simp only [h, h', lt_irrefl, false_or, true_and]
      split <;> split <;> omega
    · rw [if_pos (Or.inl (by linarith)), if_neg]
      · omega
      · rintro (h' | ⟨h', _⟩) <;> linarith

/-! ## Binary64 numbers -/

/-- The exponent of the last bit that a number of the size of `q` is rounded to. -/
def lastBit (q : ℚ) : ℤ := max (Int.log 2 |q| - 52) (-1074)

/-- The binary64 number nearest to `q`, of two equally near ones the even one; however large, it is finite. -/
def nearest (q : ℚ) : ℚ := roundEven (q / 2 ^ lastBit q) * 2 ^ lastBit q

/-- The number has at most `53` significant bits, none of them below `2 ^ -1074`. -/
def Representable (q : ℚ) : Prop := ∃ m e : ℤ, |m| < 2 ^ 53 ∧ -1074 ≤ e ∧ q = m * 2 ^ e

/-- A power of two is positive. -/
theorem two_zpow_pos (e : ℤ) : (0 : ℚ) < 2 ^ e := zpow_pos (by norm_num) e

/-- A power of two is a product of powers of two. -/
theorem two_zpow_add (d e : ℤ) : (2 : ℚ) ^ (d + e) = 2 ^ d * 2 ^ e := zpow_add₀ (by norm_num) d e

/-- Powers of two are ordered as their exponents. -/
theorem two_zpow_le {d e : ℤ} (h : d ≤ e) : (2 : ℚ) ^ d ≤ 2 ^ e := zpow_le_zpow_right₀ (by norm_num) h

/-- Zero is rounded to zero. -/
@[simp] theorem nearest_zero : nearest 0 = 0 := by
  have h : roundEven 0 = 0 := by simpa using roundEven_intCast 0
  simp [nearest, h]

/-- The opposite of a number is rounded to the opposite. -/
theorem nearest_neg (q : ℚ) : nearest (-q) = -nearest q := by
  have h : lastBit (-q) = lastBit q := by simp [lastBit]
  simp [nearest, h, neg_div, roundEven_neg]

/-- A number is less than the power of two after its leading bit. -/
theorem abs_lt_two_zpow_lastBit (q : ℚ) : |q| < 2 ^ (lastBit q + 53) := by
  have h1 : |q| < 2 ^ (Int.log 2 |q| + 1) := by exact_mod_cast Int.lt_zpow_succ_log_self (by norm_num) |q|
  have h2 : Int.log 2 |q| + 1 ≤ lastBit q + 53 := by
    have := le_max_left (Int.log 2 |q| - 52) (-1074)
    unfold lastBit
    omega
  exact h1.trans_le (two_zpow_le h2)

/-- Above the least exponent, a number other than zero has all its `53` bits. -/
theorem two_zpow_lastBit_le {q : ℚ} (hq : q ≠ 0) (h : -1074 < lastBit q) : (2 : ℚ) ^ (lastBit q + 52) ≤ |q| := by
  have hlog : lastBit q = Int.log 2 |q| - 52 := by
    unfold lastBit at h ⊢
    omega
  have hle := Int.zpow_log_le_self (R := ℚ) (b := 2) (by norm_num) (abs_pos.2 hq)
  rw [hlog]
  simpa using hle

/-- The last bit of a number that is large enough. -/
theorem le_lastBit_of_le {q : ℚ} {e : ℤ} (h : (2 : ℚ) ^ (e + 52) ≤ |q|) : e ≤ lastBit q := by
  have hlog : e + 52 ≤ Int.log 2 |q| :=
    (Int.zpow_le_iff_le_log (by norm_num) ((two_zpow_pos _).trans_le h)).1 (by exact_mod_cast h)
  unfold lastBit
  omega

/-- The least exponent is a lower bound. -/
theorem le_lastBit (q : ℚ) : -1074 ≤ lastBit q := le_max_right _ _

/-- A number with few bits is rounded at none of them. -/
theorem lastBit_le {m e : ℤ} (hm : |m| < 2 ^ 53) (he : -1074 ≤ e) (h0 : m ≠ 0) : lastBit (m * 2 ^ e) ≤ e := by
  have hpos : (0 : ℚ) < |(m : ℚ) * 2 ^ e| := abs_pos.2 (mul_ne_zero (Int.cast_ne_zero.2 h0) (two_zpow_pos e).ne')
  have hlt : |(m : ℚ) * 2 ^ e| < 2 ^ (53 + e) := by
    rw [abs_mul, abs_of_pos (two_zpow_pos e), two_zpow_add]
    have hm' : |(m : ℚ)| < 2 ^ 53 := by exact_mod_cast hm
    exact mul_lt_mul_of_pos_right (by exact_mod_cast hm') (two_zpow_pos e)
  have hlog : Int.log 2 |(m : ℚ) * 2 ^ e| < 53 + e := (Int.lt_zpow_iff_log_lt (by norm_num) hpos).1 (by exact_mod_cast hlt)
  unfold lastBit
  omega

/-- A multiple of its last bit is not changed by rounding. -/
theorem nearest_of_multiple {q : ℚ} {k : ℤ} (h : q = k * 2 ^ lastBit q) : nearest q = q := by
  have hk : q / 2 ^ lastBit q = k := by
    rw [div_eq_iff (two_zpow_pos _).ne']
    exact h
  rw [nearest, hk, roundEven_intCast]
  exact h.symm

/-- A number is not changed by rounding if its last bit is not below that of the rounding. -/
theorem nearest_of_lastBit_le {m e : ℤ} (h : lastBit (m * 2 ^ e) ≤ e) : nearest (m * 2 ^ e) = m * 2 ^ e := by
  obtain ⟨d, hd⟩ := Int.eq_ofNat_of_zero_le (sub_nonneg.2 h)
  apply nearest_of_multiple (k := m * 2 ^ d)
  push_cast
  rw [mul_assoc, ← zpow_natCast, ← two_zpow_add]
  congr 2
  omega

/-- A number with few bits is not changed by rounding. -/
theorem nearest_eq_self {q : ℚ} (h : Representable q) : nearest q = q := by
  obtain ⟨m, e, hm, he, rfl⟩ := h
  by_cases h0 : m = 0
  · simp [h0]
  · exact nearest_of_lastBit_le (lastBit_le hm he h0)

/-- Rounding errs by at most half of the last bit. -/
theorem abs_nearest_sub_le_lastBit (q : ℚ) : |nearest q - q| ≤ 2 ^ lastBit q / 2 := by
  have hp := two_zpow_pos (lastBit q)
  have hq : nearest q - q = (roundEven (q / 2 ^ lastBit q) - q / 2 ^ lastBit q) * 2 ^ lastBit q := by
    rw [nearest, sub_mul, div_mul_cancel₀ _ hp.ne']
  rw [hq, abs_mul, abs_of_pos hp]
  have := mul_le_mul_of_nonneg_right (abs_roundEven_sub_le (q / 2 ^ lastBit q)) hp.le
  linarith

/-- Above the least exponent, rounding errs by at most `2 ^ -53` of the number. -/
theorem abs_nearest_sub_le_of_lt {q : ℚ} (h : -1074 < lastBit q) : |nearest q - q| ≤ |q| / 2 ^ 53 := by
  by_cases hq : q = 0
  · simp [hq]
  · have h1 := abs_nearest_sub_le_lastBit q
    have h2 := two_zpow_lastBit_le hq h
    rw [two_zpow_add] at h2
    norm_num at h2 ⊢
    linarith

/-- Rounding a number whose last bit is not below `2 ^ -1074`, such as a sum of binary64 numbers, errs by at most `2 ^ -53`
of it. -/
theorem abs_nearest_sub_le (k : ℤ) :
    |nearest (k * 2 ^ (-1074 : ℤ)) - k * 2 ^ (-1074 : ℤ)| ≤ |(k : ℚ) * 2 ^ (-1074 : ℤ)| / 2 ^ 53 := by
  rcases (le_lastBit (k * 2 ^ (-1074 : ℤ))).lt_or_eq with hlt | heq
  · exact abs_nearest_sub_le_of_lt hlt
  · rw [nearest_of_lastBit_le heq.ge, sub_self, abs_zero]
    positivity

/-! ## Order -/

/-- What is not negative is not rounded to something negative. -/
theorem nearest_nonneg {q : ℚ} (h : 0 ≤ q) : 0 ≤ nearest q := by
  have h0 : (0 : ℤ) ≤ roundEven (q / 2 ^ lastBit q) := by
    have := roundEven_mono (show ((0 : ℤ) : ℚ) ≤ q / 2 ^ lastBit q by simpa using div_nonneg h (two_zpow_pos _).le)
    rwa [roundEven_intCast] at this
  exact mul_nonneg (by exact_mod_cast h0) (two_zpow_pos _).le

/-- Larger positive numbers have no smaller last bit. -/
theorem lastBit_mono {p q : ℚ} (hp : 0 < p) (h : p ≤ q) : lastBit p ≤ lastBit q := by
  have hlog : Int.log 2 |p| ≤ Int.log 2 |q| := by
    rw [abs_of_pos hp, abs_of_pos (hp.trans_le h)]
    exact Int.log_mono_right hp h
  unfold lastBit
  omega

/-- A number is not rounded beyond the power of two after its leading bit. -/
theorem nearest_le_two_zpow (q : ℚ) : nearest q ≤ 2 ^ (lastBit q + 53) := by
  have hp := two_zpow_pos (lastBit q)
  have h1 : q / 2 ^ lastBit q ≤ ((2 ^ 53 : ℤ) : ℚ) := by
    rw [div_le_iff₀ hp]
    have := (le_abs_self q).trans (abs_lt_two_zpow_lastBit q).le
    rw [two_zpow_add, mul_comm] at this
    exact_mod_cast this
  have h2 := roundEven_mono h1
  rw [roundEven_intCast] at h2
  have h3 : ((roundEven (q / 2 ^ lastBit q) : ℤ) : ℚ) ≤ 2 ^ 53 := by exact_mod_cast h2
  rw [nearest, two_zpow_add, mul_comm (2 ^ lastBit q)]
  exact mul_le_mul_of_nonneg_right (by exact_mod_cast h3) hp.le

/-- Above the least exponent, a positive number is not rounded below the power of two at its leading bit. -/
theorem two_zpow_le_nearest {q : ℚ} (hq : 0 < q) (h : -1074 < lastBit q) : (2 : ℚ) ^ (lastBit q + 52) ≤ nearest q := by
  have hp := two_zpow_pos (lastBit q)
  have h1 : ((2 ^ 52 : ℤ) : ℚ) ≤ q / 2 ^ lastBit q := by
    rw [le_div_iff₀ hp]
    have := two_zpow_lastBit_le hq.ne' h
    rw [two_zpow_add, mul_comm, abs_of_pos hq] at this
    exact_mod_cast this
  have h2 := roundEven_mono h1
  rw [roundEven_intCast] at h2
  have h3 : (2 : ℚ) ^ 52 ≤ ((roundEven (q / 2 ^ lastBit q) : ℤ) : ℚ) := by exact_mod_cast h2
  rw [nearest, two_zpow_add, mul_comm (2 ^ lastBit q)]
  exact mul_le_mul_of_nonneg_right (by exact_mod_cast h3) hp.le

/-- Rounding keeps the order of positive numbers. -/
theorem nearest_mono_of_pos {p q : ℚ} (hp : 0 < p) (h : p ≤ q) : nearest p ≤ nearest q := by
  rcases (lastBit_mono hp h).lt_or_eq with hlt | heq
  · -- A power of two lies between the two: the one after the leading bit of `p`.
    calc nearest p ≤ 2 ^ (lastBit p + 53) := nearest_le_two_zpow p
      _ ≤ 2 ^ (lastBit q + 52) := two_zpow_le (by omega)
      _ ≤ nearest q := two_zpow_le_nearest (hp.trans_le h) ((le_lastBit p).trans_lt hlt)
  · rw [nearest, nearest, heq]
    have hpos := two_zpow_pos (lastBit q)
    have hround := roundEven_mono (div_le_div_of_nonneg_right h hpos.le)
    exact mul_le_mul_of_nonneg_right (by exact_mod_cast hround) hpos.le

/-- Rounding keeps the order. -/
theorem nearest_mono {p q : ℚ} (h : p ≤ q) : nearest p ≤ nearest q := by
  rcases lt_or_ge 0 p with hp | hp
  · exact nearest_mono_of_pos hp h
  · rcases lt_or_ge q 0 with hq | hq
    · have := nearest_mono_of_pos (neg_pos.2 hq) (neg_le_neg h)
      rw [nearest_neg, nearest_neg] at this
      linarith
    · have h1 := nearest_nonneg (neg_nonneg.2 hp)
      rw [nearest_neg] at h1
      have h2 := nearest_nonneg hq
      linarith

/-- What is less than half of the least positive number is rounded to zero. -/
theorem nearest_eq_zero {q : ℚ} (h0 : 0 ≤ q) (h : q < 2 ^ (-1075 : ℤ)) : nearest q = 0 := by
  rcases h0.eq_or_lt with rfl | hpos
  · exact nearest_zero
  · have hlast : lastBit q = -1074 := by
      have hlog : Int.log 2 q < -1075 := (Int.lt_zpow_iff_log_lt (by norm_num) hpos).1 (by exact_mod_cast h)
      rw [lastBit, abs_of_pos hpos]
      omega
    have hhalf : q / 2 ^ (-1074 : ℤ) < 1 / 2 := by
      rw [div_lt_iff₀ (two_zpow_pos _)]
      have hsplit : (2 : ℚ) ^ (-1075 : ℤ) = 1 / 2 * 2 ^ (-1074 : ℤ) := by
        rw [show (-1075 : ℤ) = -1 + -1074 by norm_num, two_zpow_add]
        norm_num
      rwa [← hsplit]
    have hfloor : ⌊q / 2 ^ (-1074 : ℤ)⌋ = 0 :=
      Int.floor_eq_zero_iff.2 ⟨div_nonneg h0 (two_zpow_pos _).le, hhalf.trans (by norm_num)⟩
    have hround : roundEven (q / 2 ^ (-1074 : ℤ)) = 0 := by
      rw [roundEven, hfloor, Int.cast_zero, sub_zero, if_pos (Or.inl hhalf)]
    rw [nearest, hlast, hround, Int.cast_zero, zero_mul]

/-- What is beyond the largest binary64 number stays there. -/
theorem two_pow_le_nearest {q : ℚ} (h : (2 : ℚ) ^ 1024 ≤ q) : (2 : ℚ) ^ 1024 ≤ nearest q := by
  have hself : nearest ((2 : ℚ) ^ 1024) = 2 ^ 1024 :=
    nearest_eq_self ⟨1, 1024, by norm_num, by norm_num, by rw [Int.cast_one, one_mul, ← zpow_natCast, Nat.cast_ofNat]⟩
  exact hself ▸ nearest_mono h

end PerfectMatching.Binary64
