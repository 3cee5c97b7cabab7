import PerfectMatching.Proofs.Binary64.Arithmetic
import PerfectMatching.Proofs.Scalar.Lawful

/-!
# Binary64 numbers are lawful

The laws that a search relies on hold of binary64 numbers, with rounding to the nearest number and an error of at most
`2 ^ -53` of a sum.
-/

namespace PerfectMatching.Binary64

/-- Rounding a magnitude. -/
theorem abs_nearest (q : ℚ) : |nearest q| = nearest |q| := by
  rcases le_total 0 q with h | h
  · rw [abs_of_nonneg h, abs_of_nonneg (nearest_nonneg h)]
  · have h' := nearest_nonneg (neg_nonneg.2 h)
    rw [abs_of_nonpos h, ← abs_neg, ← nearest_neg, abs_of_nonneg h']

/-- A number with few bits is a multiple of the least positive one. -/
theorem Representable.multiple {q : ℚ} (h : Representable q) : ∃ k : ℤ, q = k * 2 ^ (-1074 : ℤ) := by
  obtain ⟨m, e, _, he, rfl⟩ := h
  obtain ⟨d, hd⟩ := Int.eq_ofNat_of_zero_le (sub_nonneg.2 he)
  refine ⟨m * 2 ^ d, ?_⟩
  rw [Int.cast_mul, Int.cast_pow, Int.cast_ofNat, mul_assoc, ← zpow_natCast, ← two_zpow_add]
  congr 2
  omega

/-- Rounding a sum errs by at most `2 ^ -53` of it. -/
theorem abs_nearest_add_sub_le (x y : Float) :
    |nearest (value x + value y) - (value x + value y)| ≤ 1 / 2 ^ 53 * |value x + value y| := by
  obtain ⟨k, hk⟩ := (representable_number (canonical x)).multiple
  obtain ⟨l, hl⟩ := (representable_number (canonical y)).multiple
  have hsum : value x + value y = ((k + l : ℤ) : ℚ) * 2 ^ (-1074 : ℤ) := by
    rw [value, value, hk, hl, Int.cast_add, add_mul]
  rw [hsum, div_mul_eq_mul_div, one_mul]
  exact abs_nearest_sub_le (k + l)

/-- A sum is rounded to something positive only if it is positive. -/
theorem nearest_add_pos_iff (x y : Float) : 0 < nearest (value x + value y) ↔ 0 < value x + value y := by
  have h := abs_nearest_add_sub_le x y
  constructor
  · intro hpos
    by_contra hle
    have := nearest_nonneg (neg_nonneg.2 (not_lt.1 hle))
    rw [nearest_neg] at this
    linarith
  · intro hpos
    rw [abs_of_pos hpos] at h
    have := (abs_le.1 h).1
    have : 1 / 2 ^ 53 * (value x + value y) ≤ 1 / 2 * (value x + value y) :=
      mul_le_mul_of_nonneg_right (by norm_num) hpos.le
    linarith

/-- The rank of a finite number is its value. -/
theorem rank_unpacked {x : Float} (h : x.isFinite = true) :
    rank (unpacked x) = ((value x : WithTop ℚ) : WithBot (WithTop ℚ)) := rank_of_isFinite h

/-- The rank of infinity is the greatest one. -/
theorem rank_infinity : rank (unpacked (Scalar.infinity : Float)) = ((⊤ : WithTop ℚ) : WithBot (WithTop ℚ)) := by
  rw [unpacked_infinity, rank]

/-- A finite number is defined. -/
theorem isNaN_of_isFinite {x : Float} (h : x.isFinite = true) : x.isNaN = false := by
  change (unpacked x).isNaN = false
  change (unpacked x).isFinite = true at h
  cases hx : unpacked x with
  | notANumber =>
    rw [hx] at h
    exact Bool.noConfusion h
  | _ => rfl

/-- A finite number is not infinite. -/
theorem isInf_of_isFinite {x : Float} (h : x.isFinite = true) : x.isInf = false := by
  change (unpacked x).isFinite = true at h
  change (unpacked x).isInf = false
  obtain ⟨s, hs⟩ | ⟨s, m, e, hm, hs⟩ := finite_cases h <;> rw [hs] <;> rfl

/-- Infinity is defined. -/
theorem isNaN_infinity : Float.isNaN (Scalar.infinity : Float) = false := by
  change (unpacked (Scalar.infinity : Float)).isNaN = false
  rw [unpacked_infinity]
  rfl

/-- A number that is defined is at most itself. -/
theorem le_self_iff {x : Float} : Float.le x x = true ↔ x.isNaN = false := by
  rw [le_iff]
  exact ⟨fun h => h.1, fun h => ⟨h, h, le_rfl⟩⟩

/-- A number whose rank is a number is finite. -/
theorem isFinite_of_rank {x : Float} (hx : x.isNaN = false) (hbot : rank (unpacked x) ≠ ⊥)
    (htop : rank (unpacked x) ≠ ((⊤ : WithTop ℚ) : WithBot (WithTop ℚ))) : x.isFinite = true := by
  change (unpacked x).isNaN = false at hx
  change (unpacked x).isFinite = true
  cases h : unpacked x with
  | notANumber =>
    rw [h] at hx
    exact Bool.noConfusion hx
  | infinity s =>
    rw [h] at hbot htop
    cases s
    · exact absurd rfl hbot
    · exact absurd rfl htop
  | _ => rfl

/-- Adding a finite number to minus infinity leaves it as it is. -/
theorem rank_add_of_eq_bot {x y : Float} (hx : x.isNaN = false) (hbot : rank (unpacked x) = ⊥) (hy : y.isFinite = true) :
    rank (unpacked (x + y)) = ⊥ := by
  have hneg : unpacked x = .infinity .negative := by
    cases h : unpacked x with
    | notANumber =>
      change (unpacked x).isNaN = false at hx
      rw [h] at hx
      exact Bool.noConfusion hx
    | infinity s =>
      rw [h] at hbot
      cases s
      · rfl
      · exact absurd hbot (WithBot.coe_ne_bot)
    | zero s => exact absurd (h ▸ hbot) (WithBot.coe_ne_bot)
    | finite s m e hm => exact absurd (h ▸ hbot) (WithBot.coe_ne_bot)
  have hsum : Float.Model.UnpackedFloat.add Float.Model.Format.binary64 (unpacked x) (unpacked y) = .infinity .negative := by
    change (unpacked y).isFinite = true at hy
    rw [hneg]
    obtain ⟨s, h⟩ | ⟨s, m, e, hm, h⟩ := finite_cases hy <;> rw [h] <;> rfl
  change rank (unpacked (.ofModel (Float.Model.pack (Float.Model.UnpackedFloat.add _ (unpacked x) (unpacked y))))) = ⊥
  rw [hsum, unpacked_pack_of_not_finite rfl, rank]

noncomputable instance : LawfulScalar Float where
  value := value
  rounded := nearest
  Fits q := |nearest q| < 2 ^ 1024
  unit := 1 / 2 ^ 53
  lt_iff {x y} := by
    change Float.lt x y = true ↔ Float.le x y = true ∧ Float.le y x = false
    rw [lt_iff, le_iff, ← Bool.not_eq_true (Float.le y x), le_iff]
    constructor
    · rintro ⟨hx, hy, h⟩
      exact ⟨⟨hx, hy, h.le⟩, fun h' => absurd h'.2.2 (not_le.2 h)⟩
    · rintro ⟨⟨hx, hy, _⟩, h⟩
      exact ⟨hx, hy, not_le.1 fun h' => h ⟨hy, hx, h'⟩⟩
  le_trans hxy hyz := by
    obtain ⟨hx, _, hxy⟩ := le_iff.1 hxy
    obtain ⟨_, hz, hyz⟩ := le_iff.1 hyz
    exact le_iff.2 ⟨hx, hz, hxy.trans hyz⟩
  le_total hx hy := by
    have hx := (le_iff.1 hx).1
    have hy := (le_iff.1 hy).1
    exact (le_total _ _).imp (fun h => le_iff.2 ⟨hx, hy, h⟩) fun h => le_iff.2 ⟨hy, hx, h⟩
  le_self h := ⟨le_self_iff.2 (le_iff.1 h).1, le_self_iff.2 (le_iff.1 h).2.1⟩
  le_infinity hx := le_iff.2 ⟨le_self_iff.1 hx, isNaN_infinity, rank_infinity ▸ le_top⟩
  infinity_le := le_self_iff.2 isNaN_infinity
  lt_infinity hx := by
    refine lt_iff.2 ⟨isNaN_of_isFinite hx, isNaN_infinity, ?_⟩
    rw [rank_infinity, rank_unpacked hx]
    exact WithBot.coe_lt_coe.2 (WithTop.coe_lt_top _)
  isFinite_of_lt hx hxy hy := by
    obtain ⟨_, hy', hxy⟩ := le_iff.1 hxy
    have hy := (lt_iff.1 hy).2.2
    rw [rank_infinity] at hy
    rw [rank_unpacked hx] at hxy
    exact isFinite_of_rank hy' (fun h => absurd hxy (by rw [h]; exact not_le.2 (WithBot.bot_lt_coe _))) hy.ne
  le_iff hx hy := by
    refine le_iff.trans ?_
    rw [rank_unpacked hx, rank_unpacked hy, WithBot.coe_le_coe, WithTop.coe_le_coe]
    exact ⟨fun h => h.2.2, fun h => ⟨isNaN_of_isFinite hx, isNaN_of_isFinite hy, h⟩⟩
  isFinite_ofNat h := (value_ofNat h).1
  value_ofNat h := (value_ofNat h).2
  isFinite_neg := isFinite_opposite
  value_neg {x} _ := value_neg x
  neg_le_neg_self x := by
    have h : (-x).isNaN = x.isNaN := by
      change (unpacked (-x)).isNaN = (unpacked x).isNaN
      rw [unpacked_neg]
      cases unpacked x <;> rfl
    rw [Bool.eq_iff_iff]
    change Float.le (-x) (-x) = true ↔ Float.le x x = true
    rw [le_self_iff, le_self_iff, h]
  sub_eq := sub_eq_add_opposite
  isFinite_of_add := isFinite_of_add
  le_self_of_add {x y} h := by
    have h := le_self_iff.1 h
    constructor <;> refine le_self_iff.2 ?_ <;> by_contra hnan <;> rw [Bool.not_eq_false] at hnan
    · rw [isNaN_add (Or.inl hnan)] at h
      exact Bool.noConfusion h
    · rw [isNaN_add (Or.inr hnan)] at h
      exact Bool.noConfusion h
  isFinite_add hx hy := (approximates_add hx hy).isFinite_iff
  value_add h :=
    have happrox := approximates_add (isFinite_of_add h).1 (isFinite_of_add h).2
    (happrox.unpacked_of_lt (happrox.isFinite_iff.1 h)).2
  positive_add {x y} hx hy := by
    have happrox := approximates_add hx hy
    have hzero := value_ofNat (k := 0) (by norm_num)
    change Float.lt (Float.ofNat 0) (x + y) = true ↔ _
    rw [lt_iff, rank_unpacked hzero.1, hzero.2, Nat.cast_zero, ← nearest_add_pos_iff]
    rcases lt_or_ge |nearest (value x + value y)| (2 ^ 1024) with hlt | hle
    · obtain ⟨hfin, hval⟩ := happrox.unpacked_of_lt hlt
      rw [rank_unpacked hfin, hval, WithBot.coe_lt_coe, WithTop.coe_lt_coe]
      exact ⟨fun h => h.2.2, fun h => ⟨isNaN_of_isFinite hzero.1, isNaN_of_isFinite hfin, h⟩⟩
    · have hinf := happrox.unpacked_of_le hle
      have hnan : (x + y).isNaN = false := by
        change (unpacked (x + y)).isNaN = false
        rw [hinf]
        rfl
      rw [hinf]
      split
      · rename_i hq
        have hpos : 0 < nearest (value x + value y) := by
          rw [abs_of_nonneg (nearest_nonneg hq)] at hle
          exact lt_of_lt_of_le (by positivity) hle
        exact iff_of_true ⟨isNaN_of_isFinite hzero.1, hnan, WithBot.coe_lt_coe.2 (WithTop.coe_lt_top _)⟩ hpos
      · rename_i hq
        refine iff_of_false (fun h => absurd h.2.2 (not_lt.2 bot_le)) ?_
        rw [nearest_add_pos_iff]
        exact fun h => hq h.le
  isFinite_of_positive_add {x y} hpos hy hx := by
    have hx := lt_iff.1 hx
    rw [rank_infinity] at hx
    refine isFinite_of_rank hx.1 (fun hbot => ?_) hx.2.2.ne
    have hpos := (lt_iff.1 hpos).2.2
    rw [rank_add_of_eq_bot hx.1 hbot hy] at hpos
    exact absurd hpos not_lt_bot
  rounded_add_sub_le {x y} _ _ := abs_nearest_add_sub_le x y
  rounded_mono := nearest_mono
  rounded_value {x} _ := nearest_eq_self (representable_number (canonical x))
  fits_value {x} _ := by
    change |nearest (number (unpacked x))| < 2 ^ 1024
    rw [nearest_eq_self (representable_number (canonical x))]
    exact abs_value_lt x
  fits_of_abs_le {p q} h hq := by
    rw [abs_nearest] at hq ⊢
    exact (nearest_mono h).trans_lt hq
  unit_nonneg := by norm_num

/-- A finite number is the result of an operation that rounds nothing. -/
theorem approximates_value {x : Float} (h : x.isFinite = true) : Approximates x (value x) := by
  have hvalue : nearest (value x) = value x := nearest_eq_self (representable_number (canonical x))
  refine ⟨fun _ => ⟨h, hvalue.symm⟩, fun hle => ?_⟩
  rw [hvalue] at hle
  exact absurd (abs_value_lt x) (not_lt.2 hle)

/-- Rounding keeps the order of the exact results, even of those that are out of range. -/
theorem Approximates.rank_le {x y : Float} {p q : ℚ} (hx : Approximates x p) (hy : Approximates y q) (h : p ≤ q) :
    rank (unpacked x) ≤ rank (unpacked y) := by
  have hmono := nearest_mono h
  rcases lt_or_ge |nearest p| (2 ^ 1024) with hp | hp <;> rcases lt_or_ge |nearest q| (2 ^ 1024) with hq | hq
  · obtain ⟨hxfin, hxval⟩ := hx.unpacked_of_lt hp
    obtain ⟨hyfin, hyval⟩ := hy.unpacked_of_lt hq
    rw [rank_unpacked hxfin, rank_unpacked hyfin, WithBot.coe_le_coe, WithTop.coe_le_coe, hxval, hyval]
    exact hmono
  · have hpos : 0 ≤ q := by
      by_contra hneg
      have := nearest_nonneg (neg_nonneg.2 (not_le.1 hneg).le)
      rw [nearest_neg] at this
      rw [abs_of_nonpos (neg_nonneg.1 this)] at hq
      exact absurd hq (not_le.2 (neg_lt.1 ((abs_lt.1 hp).1.trans_le hmono)))
    rw [hy.unpacked_of_le hq, if_pos hpos, rank]
    exact le_top
  · have hneg : ¬0 ≤ p := by
      intro hpos
      rw [abs_of_nonneg (nearest_nonneg hpos)] at hp
      exact absurd (hp.trans hmono) (not_le.2 (abs_lt.1 hq).2)
    rw [hx.unpacked_of_le hp, if_neg hneg, rank]
    exact bot_le
  · rw [hx.unpacked_of_le hp, hy.unpacked_of_le hq]
    by_cases hpos : 0 ≤ p
    · rw [if_pos hpos, if_pos (hpos.trans h)]
    · rw [if_neg hpos, rank]
      exact bot_le

/-- Of two results, the one whose exact result is at least the other is not less. -/
theorem Approximates.lt_eq_false {x y : Float} {p q : ℚ} (hx : Approximates x p) (hy : Approximates y q) (h : q ≤ p) :
    Scalar.lt x y = false := by
  rw [Bool.eq_false_iff]
  intro hlt
  exact absurd (lt_iff.1 hlt).2.2 (not_lt.2 (hy.rank_le hx h))

end PerfectMatching.Binary64
