import PerfectMatching.Goal
import PerfectMatching.Proofs.Binary64.Lawful
import PerfectMatching.Proofs.Scalar.Sums

/-!
# Opposite numbers

Two binary64 numbers are compared with `==` as numbers: the two zeros are equal, and what is no number equals nothing. In this
sense rounding is symmetric: as long as a sum is a number at all, the sum of the opposites is its opposite (`beq_neg_sum`). The bits
may differ, since a sum of numbers that cancel is a positive zero both times. A sum of finite numbers is always a number
(`isNaN_sum`), and so is a sum of numbers none of which is negative (`isNaN_sum_of_nonneg`).
-/

namespace PerfectMatching.Binary64

open Float.Model Float.Model.UnpackedFloat

/-! ## Equality as numbers -/

/-- Two numbers are equal as numbers if both are defined and have the same rank. -/
theorem beq_iff {x y : Float} :
    (x == y) = true ↔ x.isNaN = false ∧ y.isNaN = false ∧ rank (unpacked x) = rank (unpacked y) := by
  change ((unpacked x).compare (unpacked y) == some Ordering.eq) = true ↔ _
  rw [beq_iff_eq]
  by_cases h : (unpacked x).isNaN = true ∨ (unpacked y).isNaN = true
  · rw [(compare_eq_none_iff (canonical x) (canonical y)).2 h]
    refine iff_of_false nofun fun hnan => ?_
    rcases h with h | h
    · exact Bool.noConfusion (hnan.1.symm.trans h)
    · exact Bool.noConfusion (hnan.2.1.symm.trans h)
  · rw [not_or, Bool.not_eq_true, Bool.not_eq_true] at h
    rw [compare_eq_cmp_rank (canonical x) (canonical y) h.1 h.2, Option.some_inj, cmp_eq_eq_iff]
    exact ⟨fun heq => ⟨h.1, h.2, heq⟩, fun heq => heq.2.2⟩

/-- A number that is defined equals itself. -/
theorem beq_self_iff {x : Float} : (x == x) = true ↔ x.isNaN = false := by
  rw [beq_iff]
  exact ⟨fun h => h.1, fun h => ⟨h, h, rfl⟩⟩

/-- Equal numbers are ordered in the same way. -/
theorem le_eq_of_beq {x y x' y' : Float} (hx : (x == x') = true) (hy : (y == y') = true) : Float.le x y = Float.le x' y' := by
  obtain ⟨hxnan, hxnan', hxrank⟩ := beq_iff.1 hx
  obtain ⟨hynan, hynan', hyrank⟩ := beq_iff.1 hy
  rw [Bool.eq_iff_iff, le_iff, le_iff, hxnan, hxnan', hynan, hynan', hxrank, hyrank]

/-- A number that is defined is infinite or finite. -/
theorem infinity_or_isFinite {x : Float} (h : x.isNaN = false) : (∃ s, unpacked x = .infinity s) ∨ x.isFinite = true := by
  change (unpacked x).isNaN = false at h
  change _ ∨ (unpacked x).isFinite = true
  cases hx : unpacked x with
  | notANumber =>
    rw [hx] at h
    exact Bool.noConfusion h
  | infinity s => exact Or.inl ⟨s, rfl⟩
  | _ => exact Or.inr rfl

/-- What equals a finite number is finite and stands for the same number. -/
theorem isFinite_of_beq {x y : Float} (h : (x == y) = true) (hy : y.isFinite = true) : x.isFinite = true ∧ value x = value y := by
  obtain ⟨hxnan, _, hrank⟩ := beq_iff.1 h
  rw [rank_unpacked hy] at hrank
  rcases infinity_or_isFinite hxnan with ⟨s, hx⟩ | hx
  · rw [hx] at hrank
    cases s
    · exact absurd hrank WithBot.bot_ne_coe
    · exact absurd (WithBot.coe_injective hrank) WithTop.top_ne_coe
  · rw [rank_unpacked hx] at hrank
    exact ⟨hx, WithTop.coe_injective (WithBot.coe_injective hrank)⟩

/-- What equals an infinite number is the same infinite number. -/
theorem unpacked_of_beq_infinity {x y : Float} {s : Sign} (h : (x == y) = true) (hy : unpacked y = .infinity s) :
    unpacked x = .infinity s := by
  obtain ⟨hxnan, _, hrank⟩ := beq_iff.1 h
  rw [hy] at hrank
  rcases infinity_or_isFinite hxnan with ⟨t, hx⟩ | hx
  · rw [hx] at hrank ⊢
    cases s <;> cases t
    · rfl
    · exact absurd hrank WithBot.coe_ne_bot
    · exact absurd hrank.symm WithBot.coe_ne_bot
    · rfl
  · rw [rank_unpacked hx] at hrank
    cases s
    · exact absurd hrank WithBot.coe_ne_bot
    · exact absurd (WithBot.coe_injective hrank) WithTop.coe_ne_top

/-- Two numbers with the same infinite value are equal. -/
theorem beq_of_infinity {x y : Float} {s : Sign} (hx : unpacked x = .infinity s) (hy : unpacked y = .infinity s) :
    (x == y) = true := by
  have hnan : ∀ {z : Float}, unpacked z = .infinity s → z.isNaN = false := fun {z} hz => by
    change (unpacked z).isNaN = false
    rw [hz]
    rfl
  exact beq_iff.2 ⟨hnan hx, hnan hy, by rw [hx, hy]⟩

/-- Two numbers with the same infinite value are the same, bit for bit. -/
theorem eq_of_infinity {x y : Float} {s : Sign} (hx : unpacked x = .infinity s) (hy : unpacked y = .infinity s) : x = y := by
  have hbits : x.toModel.toBits = y.toModel.toBits := by
    rw [← UInt64.toBitVec_inj]
    exact (bits_of_infinity hx).trans (bits_of_infinity hy).symm
  obtain ⟨⟨b, _⟩⟩ := x
  obtain ⟨⟨b', _⟩⟩ := y
  obtain rfl : b = b' := hbits
  rfl

/-- What equals an infinite number is the same number, bit for bit. -/
theorem beq_iff_eq_of_infinity {x y : Float} {s : Sign} (hy : unpacked y = .infinity s) : (x == y) = true ↔ x = y := by
  constructor
  · exact fun h => eq_of_infinity (unpacked_of_beq_infinity h hy) hy
  · rintro rfl
    exact beq_of_infinity hy hy

/-! ## Opposites -/

/-- The opposite is a number if the number is. -/
theorem isNaN_neg (x : Float) : (-x).isNaN = x.isNaN := by
  change (unpacked (-x)).isNaN = (unpacked x).isNaN
  rw [unpacked_neg]
  cases unpacked x <;> rfl

/-- A rank is at most another if the first is the least one, the second is the greatest one, or both are those of finite numbers. -/
theorem rank_le_cases {x y : Float} (hx : x.isNaN = false) (hy : y.isNaN = false) (h : rank (unpacked x) ≤ rank (unpacked y)) :
    unpacked x = .infinity .negative ∨ unpacked y = .infinity .positive ∨
      x.isFinite = true ∧ y.isFinite = true ∧ value x ≤ value y := by
  rcases infinity_or_isFinite hx with ⟨_ | _, hs⟩ | hxfin
  · exact Or.inl hs
  · rw [hs] at h
    rcases infinity_or_isFinite hy with ⟨_ | _, ht⟩ | hyfin
    · rw [ht] at h
      exact absurd h (not_le.2 (WithBot.bot_lt_coe _))
    · exact Or.inr (Or.inl ht)
    · rw [rank_unpacked hyfin] at h
      exact absurd (WithBot.coe_le_coe.1 h) (not_le.2 (WithTop.coe_lt_top _))
  · rw [rank_unpacked hxfin] at h
    rcases infinity_or_isFinite hy with ⟨_ | _, ht⟩ | hyfin
    · rw [ht] at h
      exact absurd h (not_le.2 (WithBot.bot_lt_coe _))
    · exact Or.inr (Or.inl ht)
    · rw [rank_unpacked hyfin, WithBot.coe_le_coe, WithTop.coe_le_coe] at h
      exact Or.inr (Or.inr ⟨hxfin, hyfin, h⟩)

/-- Turning numbers around turns their ranks around. -/
theorem rank_neg_le {x y : Float} (hx : x.isNaN = false) (hy : y.isNaN = false) (h : rank (unpacked x) ≤ rank (unpacked y)) :
    rank (unpacked (-y)) ≤ rank (unpacked (-x)) := by
  rcases rank_le_cases hx hy h with hs | hs | ⟨hxfin, hyfin, hle⟩
  · rw [unpacked_neg x, hs]
    exact le_top
  · rw [unpacked_neg y, hs]
    exact bot_le
  · rw [rank_unpacked ((isFinite_opposite x).trans hxfin), rank_unpacked ((isFinite_opposite y).trans hyfin), value_neg, value_neg,
      WithBot.coe_le_coe, WithTop.coe_le_coe]
    exact neg_le_neg hle

/-- The opposite of the opposite is the number itself. -/
theorem unpacked_neg_neg (x : Float) : unpacked (- -x) = unpacked x := by
  rw [unpacked_neg, unpacked_neg]
  cases unpacked x with
  | notANumber => rfl
  | infinity s => cases s <;> rfl
  | zero s => cases s <;> rfl
  | finite s m e hm => cases s <;> rfl

/-- Opposites are ordered the other way round. -/
theorem lt_neg_neg (x y : Float) : Float.lt (-x) (-y) = Float.lt y x := by
  rw [Bool.eq_iff_iff, lt_iff, lt_iff, isNaN_neg, isNaN_neg]
  refine ⟨fun ⟨hx, hy, h⟩ => ⟨hy, hx, ?_⟩, fun ⟨hy, hx, h⟩ => ⟨hx, hy, ?_⟩⟩ <;> by_contra hle
  · exact absurd h (not_lt.2 (rank_neg_le hx hy (not_lt.1 hle)))
  · have hback := rank_neg_le ((isNaN_neg y).trans hy) ((isNaN_neg x).trans hx) (not_lt.1 hle)
    rw [unpacked_neg_neg, unpacked_neg_neg] at hback
    exact absurd h (not_lt.2 hback)

/-- The opposites of equal numbers are equal. -/
theorem beq_neg {x y : Float} (h : (x == y) = true) : (-x == -y) = true := by
  obtain ⟨hx, hy, hrank⟩ := beq_iff.1 h
  exact beq_iff.2 ⟨(isNaN_neg x).trans hx, (isNaN_neg y).trans hy,
    (rank_neg_le hy hx hrank.ge).antisymm (rank_neg_le hx hy hrank.le)⟩

/-- If one number is the opposite of another, this is the opposite of the first. -/
theorem beq_neg_of_neg_beq {x y : Float} (h : (y == -x) = true) : (x == -y) = true := by
  obtain ⟨hy, hx, hrank⟩ := beq_iff.1 (beq_neg h)
  rw [isNaN_neg, isNaN_neg] at hx
  exact beq_iff.2 ⟨hx, hy, by rw [hrank, unpacked_neg_neg]⟩

/-- The lesser of two opposites is the opposite of the greater number. -/
theorem min_neg_neg (x y : Float) : Scalar.min (-x) (-y) = -Scalar.max x y := by
  have hself : Scalar.le (-x) (-x) = Scalar.le x x := LawfulScalar.neg_le_neg_self x
  have hlt : Scalar.lt (-y) (-x) = Scalar.lt x y := lt_neg_neg y x
  rw [Scalar.min, Scalar.max, hself, hlt]
  split <;> rfl

/-- The greater of two opposites is the opposite of the lesser number. -/
theorem max_neg_neg (x y : Float) : Scalar.max (-x) (-y) = -Scalar.min x y := by
  have hself : Scalar.le (-x) (-x) = Scalar.le x x := LawfulScalar.neg_le_neg_self x
  have hlt : Scalar.lt (-x) (-y) = Scalar.lt y x := lt_neg_neg x y
  rw [Scalar.min, Scalar.max, hself, hlt]
  split <;> rfl

/-- Of equal numbers none is better, whichever way they are turned. -/
theorem le_signed_of_beq (goal : Goal) {x y : Float} (h : (x == y) = true) :
    Scalar.le (goal.signed y) (goal.signed x) = true := by
  have hsigned : (goal.signed x == goal.signed y) = true := by
    cases goal with
    | max => exact h
    | min => exact beq_neg h
  obtain ⟨hx, hy, hrank⟩ := beq_iff.1 hsigned
  exact le_iff.2 ⟨hy, hx, hrank.ge⟩

/-- The opposite of a result is the result for the opposite. -/
theorem Approximates.neg {x : Float} {q : ℚ} (h : Approximates x q) : Approximates (-x) (-q) := by
  constructor
  · intro hlt
    rw [nearest_neg, abs_neg] at hlt
    obtain ⟨hfin, hval⟩ := h.unpacked_of_lt hlt
    exact ⟨(isFinite_opposite x).trans hfin, by rw [value_neg, hval, nearest_neg]⟩
  · intro hle
    rw [nearest_neg, abs_neg] at hle
    have hq : q ≠ 0 := by
      rintro rfl
      rw [nearest_zero, abs_zero] at hle
      exact absurd hle (by norm_num)
    rw [unpacked_neg, h.unpacked_of_le hle]
    rcases hq.lt_or_gt with hneg | hpos
    · rw [if_neg (not_le.2 hneg), if_pos (neg_nonneg.2 hneg.le)]
      rfl
    · rw [if_pos hpos.le, if_neg (not_le.2 (neg_neg_of_pos hpos))]
      rfl

/-- A rounded result is a number. -/
theorem Approximates.isNaN_eq_false {x : Float} {q : ℚ} (h : Approximates x q) : x.isNaN = false := by
  rcases lt_or_ge |nearest q| (2 ^ 1024) with hlt | hle
  · exact isNaN_of_isFinite (h.unpacked_of_lt hlt).1
  · change (unpacked x).isNaN = false
    rw [h.unpacked_of_le hle]
    rfl

/-- Two results with the same exact result are equal. -/
theorem Approximates.beq {x y : Float} {q : ℚ} (hx : Approximates x q) (hy : Approximates y q) : (x == y) = true :=
  beq_iff.2 ⟨hx.isNaN_eq_false, hy.isNaN_eq_false, (hx.rank_le hy le_rfl).antisymm (hy.rank_le hx le_rfl)⟩

/-! ## Sums -/

/-- A number that is finite or has this infinite value. -/
def FiniteOr (s : Sign) (x : Float) : Prop := x.isFinite = true ∨ unpacked x = .infinity s

/-- The opposite of a number that is finite or infinite. -/
theorem FiniteOr.neg {s : Sign} {x : Float} (h : FiniteOr s x) : FiniteOr (-s) (-x) :=
  h.imp (fun hx => (isFinite_opposite x).trans hx) fun hx => by rw [unpacked_neg, hx]; rfl

/-- A sum one of whose operands is infinite is not rounded. -/
theorem unpacked_add_of_infinity {x y : Float} {s : Sign} (h : unpacked x = .infinity s ∨ unpacked y = .infinity s) :
    unpacked (x + y) = UnpackedFloat.add Format.binary64 (unpacked x) (unpacked y) := by
  refine unpacked_pack_of_not_finite (Bool.eq_false_iff.2 fun hfin => ?_)
  obtain ⟨hx, hy⟩ := isFinite_of_isFinite_add hfin
  rcases h with h | h
  · exact Bool.noConfusion (hx.symm.trans (congrArg UnpackedFloat.isFinite h))
  · exact Bool.noConfusion (hy.symm.trans (congrArg UnpackedFloat.isFinite h))

/-- If a sum with an infinite number is a number, the operands are finite or have the same infinite value. -/
theorem finiteOr_of_add {x y : Float} {s : Sign} (h : unpacked x = .infinity s ∨ unpacked y = .infinity s)
    (hsum : (x + y).isNaN = false) : FiniteOr s x ∧ FiniteOr s y := by
  change (unpacked (x + y)).isNaN = false at hsum
  rw [unpacked_add_of_infinity h] at hsum
  unfold FiniteOr
  change ((unpacked x).isFinite = true ∨ _) ∧ ((unpacked y).isFinite = true ∨ _)
  generalize unpacked x = f, unpacked y = g at h hsum
  rcases h with rfl | rfl
  · cases g with
    | notANumber => exact Bool.noConfusion hsum
    | infinity t => cases s <;> cases t <;> first | exact ⟨Or.inr rfl, Or.inr rfl⟩ | exact Bool.noConfusion hsum
    | _ => exact ⟨Or.inr rfl, Or.inl rfl⟩
  · cases f with
    | notANumber => exact Bool.noConfusion hsum
    | infinity t => cases s <;> cases t <;> first | exact ⟨Or.inr rfl, Or.inr rfl⟩ | exact Bool.noConfusion hsum
    | _ => exact ⟨Or.inl rfl, Or.inr rfl⟩

/-- The sum of numbers that are finite or have the same infinite value, not both finite, has that value. -/
theorem FiniteOr.add {x y : Float} {s : Sign} (hx : FiniteOr s x) (hy : FiniteOr s y)
    (h : unpacked x = .infinity s ∨ unpacked y = .infinity s) : unpacked (x + y) = .infinity s := by
  rw [unpacked_add_of_infinity h]
  change (unpacked x).isFinite = true ∨ _ at hx
  change (unpacked y).isFinite = true ∨ _ at hy
  generalize unpacked x = f, unpacked y = g at h hx hy
  rcases h with rfl | rfl
  · rcases hy with hg | rfl
    · obtain ⟨t, rfl⟩ | ⟨t, m, e, hm, rfl⟩ := finite_cases hg <;> rfl
    · cases s <;> rfl
  · rcases hx with hf | rfl
    · obtain ⟨t, rfl⟩ | ⟨t, m, e, hm, rfl⟩ := finite_cases hf <;> rfl
    · cases s <;> rfl

/-- The operands of a sum that is a number are numbers. -/
theorem isNaN_of_add {x y : Float} (h : (x + y).isNaN = false) : x.isNaN = false ∧ y.isNaN = false := by
  constructor <;> by_contra hnan <;> rw [Bool.not_eq_false] at hnan
  · exact Bool.noConfusion (h.symm.trans (isNaN_add (Or.inl hnan)))
  · exact Bool.noConfusion (h.symm.trans (isNaN_add (Or.inr hnan)))

/-- If a sum is a number, the sum of the opposites is its opposite. -/
theorem beq_neg_add {x x' y : Float} (hx : (x' == -x) = true) (h : (x + y).isNaN = false) : (x' + -y == -(x + y)) = true := by
  have hinfinite : ∀ {s}, unpacked x = .infinity s ∨ unpacked y = .infinity s → (x' + -y == -(x + y)) = true := by
    intro s hs
    obtain ⟨hfx, hfy⟩ := finiteOr_of_add hs h
    have hfx' : FiniteOr (-s) x' := hfx.neg.imp (fun hfin => (isFinite_of_beq hx hfin).1) (unpacked_of_beq_infinity hx)
    refine beq_of_infinity (s := -s) (hfx'.add hfy.neg (hs.imp (fun hxs => ?_) fun hys => ?_)) ?_
    · exact unpacked_of_beq_infinity hx (by rw [unpacked_neg, hxs]; rfl)
    · rw [unpacked_neg, hys]
      rfl
    · rw [unpacked_neg, hfx.add hfy hs]
      rfl
  obtain ⟨hxnan, hynan⟩ := isNaN_of_add h
  rcases infinity_or_isFinite hxnan with ⟨s, hs⟩ | hxfin
  · exact hinfinite (Or.inl hs)
  rcases infinity_or_isFinite hynan with ⟨s, hs⟩ | hyfin
  · exact hinfinite (Or.inr hs)
  · obtain ⟨hxfin', hxval⟩ := isFinite_of_beq hx ((isFinite_opposite x).trans hxfin)
    have hopposite := approximates_add hxfin' ((isFinite_opposite y).trans hyfin)
    rw [hxval, value_neg, value_neg, ← neg_add] at hopposite
    exact hopposite.beq (approximates_add hxfin hyfin).neg

/-- A number and a finite number have a sum. -/
theorem isNaN_add_of_isFinite {x y : Float} (hx : x.isNaN = false) (hy : y.isFinite = true) : (x + y).isNaN = false := by
  rcases infinity_or_isFinite hx with ⟨s, hs⟩ | hfin
  · change (unpacked (x + y)).isNaN = false
    rw [FiniteOr.add (Or.inr hs) (Or.inl hy) (Or.inl hs)]
    rfl
  · exact (approximates_add hfin hy).isNaN_eq_false

/-- Zero, from its bits. -/
theorem unpacked_zero : unpacked Scalar.zero = .zero .positive := rfl

/-- A number that is not negative is finite or infinity. -/
theorem finiteOr_of_nonneg {x : Float} (h : Float.le Scalar.zero x = true) : FiniteOr .positive x := by
  obtain ⟨hzero, hnan, hle⟩ := le_iff.1 h
  rcases rank_le_cases hzero hnan hle with hinf | hinf | ⟨_, hfin, _⟩
  · rw [unpacked_zero] at hinf
    cases hinf
  · exact Or.inr hinf
  · exact Or.inl hfin

/-- The sum of numbers that are not negative is not negative. -/
theorem zero_le_add {x y : Float} (hx : Float.le Scalar.zero x = true) (hy : Float.le Scalar.zero y = true) :
    Float.le Scalar.zero (x + y) = true := by
  have hinfinite : unpacked x = .infinity .positive ∨ unpacked y = .infinity .positive → Float.le Scalar.zero (x + y) = true := by
    intro h
    have hsum := (finiteOr_of_nonneg hx).add (finiteOr_of_nonneg hy) h
    refine le_iff.2 ⟨(le_iff.1 hx).1, ?_, by rw [hsum]; exact le_top⟩
    change (unpacked (x + y)).isNaN = false
    rw [hsum]
    rfl
  rcases finiteOr_of_nonneg hx with hxfin | hxinf
  · rcases finiteOr_of_nonneg hy with hyfin | hyinf
    · have hzero := LawfulScalar.isFinite_zero (α := Float)
      have hsum := approximates_add hxfin hyfin
      refine le_iff.2 ⟨(le_iff.1 hx).1, hsum.isNaN_eq_false, (approximates_value hzero).rank_le hsum ?_⟩
      have hxval := (LawfulScalar.le_iff hzero hxfin).1 hx
      have hyval := (LawfulScalar.le_iff hzero hyfin).1 hy
      rw [LawfulScalar.value_zero] at hxval hyval
      exact (LawfulScalar.value_zero (α := Float)).trans_le (add_nonneg hxval hyval)
    · exact hinfinite (Or.inr hyinf)
  · exact hinfinite (Or.inl hxinf)

/-- If a sum is a number, the sum of the opposites is its opposite. -/
theorem beq_neg_sum {xs : List Float} (h : (Scalar.sum xs).isNaN = false) :
    (Scalar.sum (xs.map (-·)) == -Scalar.sum xs) = true := by
  induction xs using List.reverseRecOn with
  | nil => decide +kernel
  | append_singleton xs x ih =>
    rw [Scalar.sum_concat] at h
    rw [List.map_append, List.map_singleton, Scalar.sum_concat, Scalar.sum_concat]
    exact beq_neg_add (ih (isNaN_of_add h).1) h

/-- A sum of finite numbers is a number. -/
theorem isNaN_sum {xs : List Float} (h : ∀ x ∈ xs, x.isFinite = true) : (Scalar.sum xs).isNaN = false := by
  induction xs using List.reverseRecOn with
  | nil => decide +kernel
  | append_singleton xs x ih =>
    rw [Scalar.sum_concat]
    exact isNaN_add_of_isFinite (ih fun y hy => h y (List.mem_append_left _ hy)) (h x (by simp))

/-- A sum of numbers none of which is negative is a number. -/
theorem isNaN_sum_of_nonneg {xs : List Float} (h : ∀ x ∈ xs, Float.le Scalar.zero x = true) : (Scalar.sum xs).isNaN = false := by
  suffices Float.le Scalar.zero (Scalar.sum xs) = true from (le_iff.1 this).2.1
  induction xs using List.reverseRecOn with
  | nil => decide +kernel
  | append_singleton xs x ih =>
    rw [Scalar.sum_concat]
    exact zero_le_add (ih fun y hy => h y (List.mem_append_left _ hy)) (h x (by simp))

/-! ## Numbers that are their own opposites -/

/-- A zero, or no number. -/
def ZeroOrNaN (x : Float) : Prop := x.isNaN = true ∨ x.isFinite = true ∧ value x = 0

/-- A zero is its own opposite. -/
theorem ZeroOrNaN.beq_neg {x : Float} (h : ZeroOrNaN x) : (x == -x) = true ∨ x.isNaN = true := by
  rcases h with hnan | ⟨hfin, hval⟩
  · exact Or.inr hnan
  · have hfin' : (-x).isFinite = true := (isFinite_opposite x).trans hfin
    refine Or.inl (beq_iff.2 ⟨isNaN_of_isFinite hfin, isNaN_of_isFinite hfin', ?_⟩)
    rw [rank_unpacked hfin, rank_unpacked hfin', value_neg, hval, neg_zero]

/-- A result whose exact result is zero is a zero. -/
theorem Approximates.zeroOrNaN {x : Float} (h : Approximates x 0) : ZeroOrNaN x := by
  obtain ⟨hfin, hval⟩ := h.unpacked_of_lt (by rw [nearest_zero, abs_zero]; positivity)
  exact Or.inr ⟨hfin, hval.trans nearest_zero⟩

/-- A sum of zeros is a zero. -/
theorem ZeroOrNaN.add {x y : Float} (hx : ZeroOrNaN x) (hy : ZeroOrNaN y) : ZeroOrNaN (x + y) := by
  rcases hx with hx | ⟨hxfin, hxval⟩
  · exact Or.inl (isNaN_add (Or.inl hx))
  rcases hy with hy | ⟨hyfin, hyval⟩
  · exact Or.inl (isNaN_add (Or.inr hy))
  · have hsum := approximates_add hxfin hyfin
    rw [hxval, hyval, add_zero] at hsum
    exact hsum.zeroOrNaN

/-- Zero is a zero. -/
theorem zeroOrNaN_zero : ZeroOrNaN Scalar.zero :=
  Or.inr ⟨LawfulScalar.isFinite_zero (α := Float), LawfulScalar.value_zero (α := Float)⟩

/-- A product with zero is a zero. -/
theorem zeroOrNaN_mul_zero (x : Float) : ZeroOrNaN (x * Scalar.zero) := by
  by_cases hfin : x.isFinite = true
  · have hproduct := approximates_mul hfin (LawfulScalar.isFinite_zero (α := Float))
    have hzero : value (Scalar.zero : Float) = 0 := LawfulScalar.value_zero (α := Float)
    rw [hzero, mul_zero] at hproduct
    exact hproduct.zeroOrNaN
  · have hmul : UnpackedFloat.mul Format.binary64 (unpacked x) (unpacked Scalar.zero) = .notANumber := by
      change ¬(unpacked x).isFinite = true at hfin
      rw [unpacked_zero]
      cases hx : unpacked x with
      | notANumber => rfl
      | infinity s => rfl
      | zero s => exact absurd (hx ▸ rfl) hfin
      | finite s m e hm => exact absurd (hx ▸ rfl) hfin
    refine Or.inl ?_
    change (unpacked (.ofModel (Float.Model.pack (UnpackedFloat.mul Format.binary64 (unpacked x) (unpacked Scalar.zero))))).isNaN = true
    rw [hmul, unpacked_pack_of_not_finite rfl]
    rfl

/-- The sum of zeros is a zero. -/
theorem zeroOrNaN_sum {xs : List Float} (h : ∀ x ∈ xs, ZeroOrNaN x) : ZeroOrNaN (Scalar.sum xs) := by
  induction xs using List.reverseRecOn with
  | nil =>
    refine Or.inr ⟨(isFinite_opposite _).trans (LawfulScalar.isFinite_zero (α := Float)), ?_⟩
    have hzero : value (Scalar.zero : Float) = 0 := LawfulScalar.value_zero (α := Float)
    exact (value_neg _).trans (by rw [hzero, neg_zero])
  | append_singleton xs x ih =>
    rw [Scalar.sum_concat]
    exact (ih fun y hy => h y (List.mem_append_left _ hy)).add (h x (by simp))

end PerfectMatching.Binary64
