import PerfectMatching.Proofs.Lockstep
import PerfectMatching.Proofs.Optimality
import PerfectMatching.Proofs.Search.WholeNumbers

/-!
# Shifting whole weights

If all weights are whole numbers and not too large (`Weights.IsWhole`), the bounds, the margin, the offset and the shifted weights are
whole numbers, and those of the same weights as exact ones (`Spread.shift_exact`). So are the totals of matchings once the shift is taken
back (`Spread.unshiftedTotal`, `Spread.total`).
-/

namespace PerfectMatching

open Binary64 LawfulScalar

/-- The weights are whole numbers, and small enough for `n` shifted ones at either side of the graph to be added up. -/
structure Weights.IsWhole (w : Weights Float) : Prop where
  whole : ∀ x ∈ w.allowed, x.isFinite = true ∧ ∃ k : ℤ, Binary64.value x = k
  range : ∀ x ∈ w.allowed, ∀ y ∈ w.allowed, ∀ z ∈ w.allowed,
    2 * w.n * (w.n * (Binary64.value y - Binary64.value x) + 1 + |Binary64.value z|) ≤ 2 ^ 53

/-- Whole weights are finite as exact ones. -/
theorem Weights.IsWhole.isFinite_map {w : Weights Float} (h : w.IsWhole) : (w.map Exact.ofFloat).IsFinite := by
  intro y hy
  rw [Weights.allowed_map] at hy
  obtain ⟨x, hx, rfl⟩ := List.mem_map.1 hy
  exact (isFinite_ofFloat x).trans (h.whole x hx).1

namespace PrimalDual

open State

variable {n : ℕ} {goal : Goal} {w : Weights Float} {least greatest : Float} {span size : ℚ}

/-! ## Weights as the goal sees them -/

/-- The weights as the goal sees them are whole numbers between the bounds, and small enough. -/
structure Spread (goal : Goal) (w : Weights Float) (least greatest : Float) (span size : ℚ) : Prop where
  bounds : bounds? goal w = some (least, greatest)
  whole_least : Whole least
  whole_greatest : Whole greatest
  span_eq : Binary64.value greatest - Binary64.value least = span
  span_nonneg : 0 ≤ span
  abs_least : |Binary64.value least| ≤ size
  weight : ∀ x ∈ w.allowed, Whole (goal.signed x) ∧ Binary64.value least ≤ Binary64.value (goal.signed x) ∧
    Binary64.value (goal.signed x) ≤ Binary64.value greatest ∧ |Binary64.value (goal.signed x)| ≤ size
  range : w.n * (w.n * span + 1 + size) ≤ 2 ^ 52

/-- A whole weight is whole as the goal sees it. -/
theorem whole_signed {x : Float} (h : Whole x) (goal : Goal) : Whole (goal.signed x) := by
  cases goal with
  | max => exact h
  | min => exact h.neg

/-- The value of a weight as the goal sees it. -/
theorem value_signed (goal : Goal) (x : Float) :
    Binary64.value (goal.signed x) = goal.signedValue (Binary64.value x) := by
  cases goal with
  | max => rfl
  | min => exact Binary64.value_neg x

/-- A whole weight is a whole number. -/
theorem whole_of_mem (hw : w.IsWhole) (hn : 0 < w.n) {x : Float} (hx : x ∈ w.allowed) : Whole x := by
  obtain ⟨hfin, hint⟩ := hw.whole x hx
  refine ⟨hfin, hint, ?_⟩
  have hcast : (1 : ℚ) ≤ w.n := Nat.one_le_cast.2 hn
  have hrange := hw.range x hx x hx x hx
  rw [sub_self, mul_zero, zero_add] at hrange
  have : 1 * |Binary64.value x| ≤ 2 * w.n * |Binary64.value x| := mul_le_mul_of_nonneg_right (by linarith) (abs_nonneg _)
  linarith

/-- Whole weights of which at least one is allowed. -/
theorem exists_spread (hw : w.IsWhole) (hedge : w.allowed ≠ []) (goal : Goal) :
    ∃ least greatest span size, Spread goal w least greatest span size := by
  obtain ⟨least, greatest, hbounds, hleast, hgreatest, hle⟩ := exists_bounds (fun x hx => (hw.whole x hx).1) hedge goal
  obtain ⟨hmin, hmax, hbetween⟩ := bounds_spec hbounds
  obtain ⟨x, hx, rfl⟩ := List.mem_map.1 hmin
  obtain ⟨y, hy, rfl⟩ := List.mem_map.1 hmax
  have hcast : (1 : ℚ) ≤ w.n := Nat.one_le_cast.2 (pos_of_bounds hbounds)
  have hspan0 : 0 ≤ Binary64.value (goal.signed y) - Binary64.value (goal.signed x) := sub_nonneg.2 hle
  -- Turned around, the greatest weight is the least one.
  have hrange : ∀ z ∈ w.allowed, w.n * (w.n * (Binary64.value (goal.signed y) - Binary64.value (goal.signed x)) + 1 +
      |Binary64.value (goal.signed z)|) ≤ 2 ^ 52 := by
    intro z hz
    rw [value_signed, value_signed, value_signed]
    cases goal with
    | max =>
      have := hw.range x hx y hy z hz
      simp only [Goal.signedValue]
      linarith
    | min =>
      have := hw.range y hy x hx z hz
      simp only [Goal.signedValue, abs_neg, neg_sub_neg]
      linarith
  have hwhole : ∀ z ∈ w.allowed, Whole (goal.signed z) := fun z hz =>
    whole_signed (whole_of_mem hw (pos_of_bounds hbounds) hz) goal
  refine ⟨_, _, _, max |Binary64.value (goal.signed x)| |Binary64.value (goal.signed y)|, hbounds, hwhole x hx, hwhole y hy, rfl,
    hspan0, le_max_left _ _, fun z hz => ?_, ?_⟩
  · have hfin : Scalar.isFinite (goal.signed z) = true := (hwhole z hz).finite
    obtain ⟨hlow, hhigh⟩ := hbetween z hz (le_self_of_isFinite hfin)
    have hlow := (le_iff hleast hfin).1 hlow
    have hhigh := (le_iff hfin hgreatest).1 hhigh
    exact ⟨hwhole z hz, hlow, hhigh, abs_le_max_abs_abs hlow hhigh⟩
  · rcases max_choice |Binary64.value (goal.signed x)| |Binary64.value (goal.signed y)| with hmax | hmax <;> rw [hmax]
    · exact hrange x hx
    · exact hrange y hy

/-- The shifted weight of an edge. -/
theorem exists_of_get_shift {offset : Float} (hn : w.n = n) {i j : Fin n} {x : Float}
    (hx : ((shift goal offset w hn).get i).get j = some x) : ∃ y ∈ w.allowed, x = goal.signed y - offset := by
  rw [get_shift] at hx
  obtain ⟨y, hy, rfl⟩ := Option.map_eq_some_iff.1 hx
  exact ⟨y, Weights.mem_allowed_of_edge hy, rfl⟩

/-! ## The shift -/

section Spread

variable (h : Spread goal w least greatest span size)

include h

/-- The sizes of the numbers of the shift. -/
theorem Spread.sizes : (1 : ℚ) ≤ w.n ∧ w.n < 2 ^ 53 ∧ 0 ≤ size ∧ span ≤ w.n * span ∧ w.n * span + 1 + size ≤ 2 ^ 52 := by
  have hcast : (1 : ℚ) ≤ w.n := Nat.one_le_cast.2 (pos_of_bounds h.bounds)
  have hsize := (abs_nonneg _).trans h.abs_least
  have hspan : span ≤ w.n * span := le_mul_of_one_le_left h.span_nonneg hcast
  have hspan0 := h.span_nonneg
  have hsum : 1 ≤ w.n * span + 1 + size := by linarith
  refine ⟨hcast, ?_, hsize, hspan, (le_mul_of_one_le_left (by linarith) hcast).trans h.range⟩
  have hcount : ((w.n : ℕ) : ℚ) < ((2 ^ 53 : ℕ) : ℚ) := by
    have := (le_mul_of_one_le_right (by linarith : (0 : ℚ) ≤ w.n) hsum).trans h.range
    push_cast
    linarith
  exact Nat.cast_lt.1 hcount

/-- The multiple of the span is a whole number, and that of the exact weights. -/
theorem Spread.product : Whole (Scalar.ofNat (w.n - 1) * (greatest - least)) ∧
    Binary64.value (Scalar.ofNat (w.n - 1) * (greatest - least)) = (w.n - 1) * span ∧
    Exact.ofFloat (Scalar.ofNat (w.n - 1) * (greatest - least)) =
      Scalar.ofNat (w.n - 1) * (Exact.ofFloat greatest - Exact.ofFloat least) := by
  obtain ⟨hcast, hn, hsize, hspan, hrange⟩ := h.sizes
  have hspan0 := h.span_nonneg
  obtain ⟨hcount, hcountval, hcountexact⟩ := whole_ofNat (k := w.n - 1) (by omega)
  rw [Nat.cast_pred (pos_of_bounds h.bounds)] at hcountval
  have hdiff : |Binary64.value greatest - Binary64.value least| ≤ 2 ^ 53 := by
    rw [h.span_eq, abs_of_nonneg hspan0]
    linarith
  obtain ⟨hdiffwhole, hdiffval⟩ := h.whole_greatest.sub h.whole_least hdiff
  rw [h.span_eq] at hdiffval
  have hproduct : |Binary64.value (Scalar.ofNat (w.n - 1)) * Binary64.value (greatest - least)| ≤ 2 ^ 53 := by
    rw [hcountval, hdiffval, abs_of_nonneg (mul_nonneg (by linarith) hspan0)]
    linarith
  obtain ⟨hwhole, hval⟩ := hcount.mul hdiffwhole hproduct
  refine ⟨hwhole, by rw [hval, hcountval, hdiffval], ?_⟩
  rw [hcount.ofFloat_mul hdiffwhole hproduct, h.whole_greatest.ofFloat_sub h.whole_least hdiff, hcountexact]

/-- The margin is a whole number, and that of the exact weights. -/
theorem Spread.margin : Whole (margin w least greatest) ∧ 1 ≤ Binary64.value (margin w least greatest) ∧
    Binary64.value (margin w least greatest) + span ≤ w.n * span + 1 ∧
    Exact.ofFloat (margin w least greatest) = margin (w.map Exact.ofFloat) (Exact.ofFloat least) (Exact.ofFloat greatest) := by
  obtain ⟨hcast, hn, hsize, hspan, hrange⟩ := h.sizes
  obtain ⟨hone, hval1, hexact1⟩ := whole_one
  rw [PrimalDual.margin, PrimalDual.margin, Weights.anyForbidden_map]
  split
  · obtain ⟨hproduct, hval, hexact⟩ := h.product
    have hproduct0 : 0 ≤ ((w.n : ℚ) - 1) * span := mul_nonneg (by linarith) h.span_nonneg
    have hsum : |Binary64.value (Scalar.ofNat (w.n - 1) * (greatest - least)) + Binary64.value Scalar.one| ≤ 2 ^ 53 := by
      rw [hval, hval1, abs_of_nonneg (by linarith)]
      linarith [h.span_nonneg]
    obtain ⟨hmargin, hmarginval⟩ := hproduct.add hone hsum
    rw [hval, hval1] at hmarginval
    refine ⟨hmargin, by linarith, by linarith, ?_⟩
    rw [hproduct.ofFloat_add hone hsum, hexact, hexact1]
    rfl
  · exact ⟨hone, hval1.ge, by rw [hval1]; linarith, hexact1⟩

/-- The offset is a whole number, and that of the exact weights. -/
theorem Spread.offset : Whole (offsetOf w least greatest) ∧
    Binary64.value (offsetOf w least greatest) = Binary64.value least - Binary64.value (PrimalDual.margin w least greatest) ∧
    |Binary64.value (offsetOf w least greatest)| ≤ w.n * span + 1 + size ∧
    Exact.ofFloat (offsetOf w least greatest) = offsetOf (w.map Exact.ofFloat) (Exact.ofFloat least) (Exact.ofFloat greatest) := by
  obtain ⟨hcast, hn, hsize, hspan, hrange⟩ := h.sizes
  obtain ⟨hmargin, hone, hle, hexact⟩ := h.margin
  have hspan0 := h.span_nonneg
  have hleast := abs_le.1 h.abs_least
  have habs : |Binary64.value least - Binary64.value (PrimalDual.margin w least greatest)| ≤ w.n * span + 1 + size := by
    rw [abs_le]
    constructor <;> linarith
  have hsmall : |Binary64.value least - Binary64.value (PrimalDual.margin w least greatest)| ≤ 2 ^ 53 := by linarith
  obtain ⟨hwhole, hval⟩ := h.whole_least.sub hmargin hsmall
  refine ⟨hwhole, hval, hval ▸ habs, ?_⟩
  rw [offsetOf, h.whole_least.ofFloat_sub hmargin hsmall, hexact]
  rfl

/-- A weight between the bounds is shifted to a whole number, that of the exact weights, of at least the margin and not much more. -/
theorem Spread.shifted {x : Float} (hx : Whole x) (hlow : Binary64.value least ≤ Binary64.value x)
    (hhigh : Binary64.value x ≤ Binary64.value greatest) :
    Whole (x - offsetOf w least greatest) ∧ 1 ≤ Binary64.value (x - offsetOf w least greatest) ∧
      Binary64.value (x - offsetOf w least greatest) ≤ w.n * span + 1 ∧
      Binary64.value (x - offsetOf w least greatest) = Binary64.value x - Binary64.value (offsetOf w least greatest) ∧
      Exact.ofFloat (x - offsetOf w least greatest) = Exact.ofFloat x - Exact.ofFloat (offsetOf w least greatest) := by
  obtain ⟨hcast, hn, hsize, hspan, hrange⟩ := h.sizes
  obtain ⟨_, hone, hle, _⟩ := h.margin
  obtain ⟨hoffset, hval, _, _⟩ := h.offset
  have hspan_eq := h.span_eq
  have habs : |Binary64.value x - Binary64.value (offsetOf w least greatest)| ≤ 2 ^ 53 := by
    rw [hval, abs_of_nonneg (by linarith)]
    linarith
  obtain ⟨hwhole, hval'⟩ := hx.sub hoffset habs
  exact ⟨hwhole, by linarith, by linarith, hval', hx.ofFloat_sub hoffset habs⟩

/-- The bounds of the exact weights. -/
theorem Spread.bounds_exact : bounds? goal (w.map Exact.ofFloat) = some (Exact.ofFloat least, Exact.ofFloat greatest) := by
  rw [bounds_map faithful_ofFloat ofFloat_neg fun x hx => Or.inl (h.weight x hx).1, h.bounds]
  rfl

/-- The shifted table of the exact weights. -/
theorem Spread.shift_exact (hn : w.n = n) (hn' : (w.map Exact.ofFloat).n = n) :
    mapTable Exact.ofFloat (shift goal (offsetOf w least greatest) w hn) =
      shift goal (offsetOf (w.map Exact.ofFloat) (Exact.ofFloat least) (Exact.ofFloat greatest)) (w.map Exact.ofFloat) hn' := by
  rw [← h.offset.2.2.2]
  refine shift_map ofFloat_neg hn hn' fun x hx => ?_
  obtain ⟨hx, hlow, hhigh, _⟩ := h.weight x hx
  exact (h.shifted hx hlow hhigh).2.2.2.2

/-- The shifted table holds whole numbers. -/
theorem Spread.wholeTable (hn : w.n = n) :
    WholeTable (shift goal (offsetOf w least greatest) w hn) (w.n * span + 1) := by
  obtain ⟨hcast, _, hsize, hspan, hrange⟩ := h.sizes
  have hspan0 := h.span_nonneg
  refine ⟨fun i j x hx => ?_, by linarith, by linarith⟩
  obtain ⟨y, hy, rfl⟩ := exists_of_get_shift hn hx
  obtain ⟨hy, hlow, hhigh, _⟩ := h.weight y hy
  obtain ⟨hwhole, hone, hle, _⟩ := h.shifted hy hlow hhigh
  exact ⟨hwhole, by linarith, hle⟩

/-- The weights pass the range check, also as exact weights. -/
theorem Spread.isShiftable : isShiftable least greatest (offsetOf w least greatest) = true ∧
    isShiftable (Exact.ofFloat least) (Exact.ofFloat greatest)
      (offsetOf (w.map Exact.ofFloat) (Exact.ofFloat least) (Exact.ofFloat greatest)) = true := by
  have hle : Binary64.value least ≤ Binary64.value greatest := by linarith [h.span_eq, h.span_nonneg]
  obtain ⟨hleast, hone, _, _, hleast'⟩ := h.shifted h.whole_least le_rfl hle
  obtain ⟨hgreatest, _, _, _, hgreatest'⟩ := h.shifted h.whole_greatest hle le_rfl
  have hpos : Scalar.positive (least - offsetOf w least greatest) = true :=
    (positive_iff (α := Float) hleast.finite).2 (zero_lt_one.trans_le hone)
  have hfin : Scalar.isFinite (greatest - offsetOf w least greatest) = true := hgreatest.finite
  refine ⟨by rw [PrimalDual.isShiftable, hpos, hfin]; rfl, ?_⟩
  rw [PrimalDual.isShiftable, ← h.offset.2.2.2, ← hleast', ← hgreatest', faithful_ofFloat.positive_eq (Or.inl hleast), hpos,
    isFinite_ofFloat]
  exact hfin

/-! ## The total -/

/-- The weight of an edge before the shift is whole, and that of the exact table. -/
theorem Spread.unshifted (hn : w.n = n) (i j : Fin n) :
    unshifted? (mapTable Exact.ofFloat (shift goal (offsetOf w least greatest) w hn))
        (Exact.ofFloat (offsetOf w least greatest)) goal i j =
      (unshifted? (shift goal (offsetOf w least greatest) w hn) (offsetOf w least greatest) goal i j).map Exact.ofFloat ∧
    ∀ x, unshifted? (shift goal (offsetOf w least greatest) w hn) (offsetOf w least greatest) goal i j = some x →
      Whole x ∧ |Binary64.value x| ≤ size := by
  unfold unshifted?
  rw [get_mapTable]
  cases hx : ((shift goal (offsetOf w least greatest) w hn).get i).get j with
  | none => exact ⟨rfl, nofun⟩
  | some x =>
    obtain ⟨y, hy, rfl⟩ := exists_of_get_shift hn hx
    obtain ⟨hy, hlow, hhigh, habs⟩ := h.weight y hy
    obtain ⟨hwhole, _, _, hval, _⟩ := h.shifted hy hlow hhigh
    obtain ⟨_, _, _, _, hrange⟩ := h.sizes
    have hback : Binary64.value (goal.signed y - offsetOf w least greatest) + Binary64.value (offsetOf w least greatest) =
        Binary64.value (goal.signed y) := by rw [hval, sub_add_cancel]
    have hsmall : |Binary64.value (goal.signed y - offsetOf w least greatest) +
        Binary64.value (offsetOf w least greatest)| ≤ 2 ^ 53 := by
      rw [hback]
      exact hy.small
    obtain ⟨hsum, hsumval⟩ := hwhole.add h.offset.1 hsmall
    constructor
    · simp only [Option.map_some, signed_map ofFloat_neg, hwhole.ofFloat_add h.offset.1 hsmall]
    · intro x hx
      rw [Option.map_some, Option.some.injEq] at hx
      subst hx
      refine ⟨whole_signed hsum goal, ?_⟩
      rw [value_signed, hsumval, hback]
      cases goal with
      | max => exact habs
      | min => rwa [Goal.signedValue, abs_neg]

/-- As many weights as there are rows are small enough to be added up. -/
theorem Spread.length_mul_size (hn : w.n = n) : n * size ≤ 2 ^ 53 := by
  obtain ⟨_, _, _, hspan, _⟩ := h.sizes
  have hspan0 := h.span_nonneg
  rw [← hn]
  calc (w.n : ℚ) * size ≤ w.n * (w.n * span + 1 + size) := mul_le_mul_of_nonneg_left (by linarith) (Nat.cast_nonneg _)
    _ ≤ 2 ^ 53 := h.range.trans (by norm_num)

/-- The total of a matching is that of the exact table. -/
theorem Spread.unshiftedTotal (hn : w.n = n) (mates : List (Fin n)) :
    unshiftedTotal? (mapTable Exact.ofFloat (shift goal (offsetOf w least greatest) w hn))
        (Exact.ofFloat (offsetOf w least greatest)) goal mates =
      (unshiftedTotal? (shift goal (offsetOf w least greatest) w hn) (offsetOf w least greatest) goal mates).map
        Exact.ofFloat := by
  refine unshiftedTotal_map (fun i j => (h.unshifted hn i j).1) (fun i j => (h.unshifted hn i j).2)
    (fun xs hlength hxs => ofFloat_sum hxs ?_) mates
  exact (mul_le_mul_of_nonneg_right (Nat.cast_le.2 hlength) h.sizes.2.2.1).trans (h.length_mul_size hn)

/-- The total of a perfect matching is a whole number, and that of the exact weights. -/
theorem Spread.total (hn : w.n = n) {e : Equiv.Perm (Fin n)} {weight : Fin n → Float}
    (hweight : ∀ i, ((shift goal (offsetOf w least greatest) w hn).get i).get (e i) = some (weight i)) :
    Whole (Scalar.sum ((List.finRange n).map fun i => goal.signed (weight i + offsetOf w least greatest))) ∧
      Exact.ofFloat (Scalar.sum ((List.finRange n).map fun i => goal.signed (weight i + offsetOf w least greatest))) =
        .finite (goal.signedValue (∑ i, Binary64.value (weight i) + n * Binary64.value (offsetOf w least greatest))) := by
  have hentry : ∀ i, (Whole (goal.signed (weight i + offsetOf w least greatest)) ∧
      |Binary64.value (goal.signed (weight i + offsetOf w least greatest))| ≤ size) ∧
      Exact.ofFloat (goal.signed (weight i + offsetOf w least greatest)) =
        .finite (goal.signedValue (Binary64.value (weight i) + Binary64.value (offsetOf w least greatest))) := by
    intro i
    obtain ⟨hexact, hwhole⟩ := h.unshifted hn i (e i)
    rw [unshifted?, get_mapTable, unshifted?, hweight] at hexact
    rw [unshifted?, hweight] at hwhole
    refine ⟨hwhole _ rfl, ?_⟩
    simp only [Option.map_some, Option.some.injEq] at hexact
    rw [← hexact, ofFloat_of_isFinite ((h.wholeTable hn).whole i (e i) _ (hweight i)).1.finite, ofFloat_of_isFinite h.offset.1.finite,
      Exact.finite_add_finite, Goal.signed_finite]
  have hall : ∀ x ∈ (List.finRange n).map fun i => goal.signed (weight i + offsetOf w least greatest),
      Whole x ∧ |Binary64.value x| ≤ size := by
    intro x hx
    obtain ⟨i, _, rfl⟩ := List.mem_map.1 hx
    exact (hentry i).1
  have hlength := h.length_mul_size hn
  have hlist : ((List.finRange n).map fun i => goal.signed (weight i + offsetOf w least greatest)).map Exact.ofFloat =
      (List.finRange n).map fun i =>
        .finite (goal.signedValue (Binary64.value (weight i) + Binary64.value (offsetOf w least greatest))) := by
    rw [List.map_map]
    exact List.map_congr_left fun i _ => (hentry i).2
  refine ⟨(whole_sum hall (by simpa using hlength)).1, ?_⟩
  rw [ofFloat_sum hall (by simpa using hlength), hlist, Exact.sum_map_finite, Goal.sum_signedValue, Finset.sum_add_distrib,
    Fin.sum_const, nsmul_eq_mul]

end Spread

end PrimalDual

end PerfectMatching
