import Mathlib.Algebra.BigOperators.Fin
import PerfectMatching.Proofs.Certificate
import PerfectMatching.Proofs.Margin

/-!
# Results that are certified

The sum of two dual variables can be out of range although every shifted weight is finite. Then the slack of an edge is infinite, the
search never uses the edge, and the certificate of its result is refused (`PrimalDual.certify_refuses`). As long as the sums of all
shifted weights of a matching stay in range and there are not more updates than the tolerance has room for, the certificate of every
success is accepted (`PrimalDual.certify_of_solve`): what rounding adds up to is at most the leeway, of which the tolerance is a multiple.
-/

namespace PerfectMatching

open LawfulScalar

namespace Binary64

/-- A number of at least `2 ^ 52` is whole. -/
theorem exists_int_of_two_pow_le {x : Float} (h : 2 ^ 52 ≤ |value x|) : ∃ k : ℤ, value x = k := by
  have hbit : 0 ≤ lastBit (value x) := le_lastBit_of_le (by rw [zero_add]; exact h)
  obtain ⟨d, hd⟩ := Int.eq_ofNat_of_zero_le hbit
  have hself : nearest (value x) = value x := nearest_eq_self (representable_number (canonical x))
  refine ⟨roundEven (value x / 2 ^ lastBit (value x)) * 2 ^ d, ?_⟩
  rw [nearest, hd, zpow_natCast] at hself
  rw [hd, zpow_natCast]
  exact_mod_cast hself.symm

/-- If subtracting at least one makes a number less, then by at least a quarter. -/
theorem quarter_le_sub {x y : Float} {margin : ℚ} (hx : x.isFinite = true) (hmargin : 1 ≤ margin)
    (hy : value y = nearest (value x - margin)) (hlt : value y < value x) : 1 / 4 ≤ value x - value y := by
  rcases le_or_gt |value x| (2 ^ 52) with hsmall | hlarge
  · -- The number less one is rounded by little more than a half.
    have hmono : value y ≤ nearest (value x - 1) := hy ▸ nearest_mono (by linarith)
    have herr : |nearest (value x - 1) - (value x - 1)| ≤ 1 / 2 ^ 53 * |value x - 1| := by
      have := rounded_sub_sub_le (α := Float) hx isFinite_one
      rwa [value_one] at this
    have herr' := (abs_le.1 herr).2
    have hsize : |value x - 1| ≤ 2 ^ 52 + 1 := by
      have := abs_le.1 hsmall
      rw [abs_le]
      constructor <;> linarith
    linarith
  · -- Both numbers are whole, or the lesser one is far away.
    obtain ⟨k, hk⟩ := exists_int_of_two_pow_le hlarge.le
    rcases le_or_gt (2 ^ 52) |value y| with hy' | hy'
    · obtain ⟨l, hl⟩ := exists_int_of_two_pow_le hy'
      rw [hk, hl, Int.cast_lt] at hlt
      have : (l : ℚ) + 1 ≤ k := by exact_mod_cast hlt
      rw [hk, hl]
      linarith
    · have hy'' := abs_lt.1 hy'
      have hpos : (2 : ℚ) ^ 52 < k := by
        rcases lt_abs.1 hlarge with h | h
        · rwa [hk] at h
        · linarith
      have : (2 : ℤ) ^ 52 + 1 ≤ k := by
        have : ((2 ^ 52 : ℤ) : ℚ) < k := by exact_mod_cast hpos
        exact Int.add_one_le_iff.2 (Int.cast_lt.1 this)
      have : (2 : ℚ) ^ 52 + 1 ≤ k := by exact_mod_cast this
      rw [hk]
      linarith

end Binary64

namespace PrimalDual

open Relation State

variable {n : ℕ}

/-! ## The tolerance -/

/-- The tolerance is more than `2 ^ -30` of the largest weight. -/
theorem tolerance_spec {m : PrimalDual Float n} (hfinite : Scalar.isFinite m.scale = true) (hone : 1 ≤ value m.scale) :
    Scalar.isFinite m.tolerance = true ∧ value m.scale / 2 ^ 30 ≤ value m.tolerance ∧ value m.tolerance ≤ value m.scale := by
  have hconst : Scalar.isFinite (1e-9 : Float) = true ∧ 1 / 2 ^ 30 * (1 + 1 / 2 ^ 5) ≤ value (1e-9 : Float) ∧
      value (1e-9 : Float) ≤ 1 := by decide +kernel
  obtain ⟨hcfin, hclow, hcle⟩ := hconst
  have happrox := Binary64.approximates_mul hcfin hfinite
  have hlow : value m.scale / 2 ^ 30 * (1 + 1 / 2 ^ 5) ≤ value (1e-9 : Float) * value m.scale := by
    have := mul_le_mul_of_nonneg_right hclow (show 0 ≤ value m.scale by linarith)
    linarith
  have hle : value (1e-9 : Float) * value m.scale ≤ value m.scale := mul_le_of_le_one_left (by linarith) hcle
  have hpos : 0 ≤ value (1e-9 : Float) * value m.scale := by
    refine le_trans ?_ hlow
    positivity
  have hfits : Fits Float (value (1e-9 : Float) * value m.scale) :=
    fits_of_abs_le (by rwa [abs_of_nonneg hpos, abs_of_nonneg (by linarith)]) (fits_value hfinite)
  obtain ⟨hfin, hval⟩ := happrox.unpacked_of_lt hfits
  have hval : value m.tolerance = Binary64.nearest (value (1e-9 : Float) * value m.scale) := hval
  have hbit : -82 ≤ Binary64.lastBit (value (1e-9 : Float) * value m.scale) := by
    refine Binary64.le_lastBit_of_le ?_
    rw [abs_of_nonneg hpos, show (-82 + 52 : ℤ) = -(30 : ℕ) by norm_num, zpow_neg, zpow_natCast]
    refine le_trans ?_ hlow
    linarith
  have herr := abs_le.1 (Binary64.abs_nearest_sub_le_of_lt (lt_of_lt_of_le (by norm_num) hbit))
  rw [abs_of_nonneg hpos, ← hval] at herr
  refine ⟨hfin, by linarith [herr.1], ?_⟩
  exact hval.trans_le ((Binary64.nearest_mono hle).trans_eq (rounded_value hfinite))

/-! ## The least shifted weight -/

section Margin

variable {goal : Goal} {w : Weights Float} {least greatest : Float}

/-- A margin that is in range is at least one. -/
theorem one_le_margin (hn : w.n ≤ 2 ^ 19) (hle : value least ≤ value greatest)
    (hfinite : Scalar.isFinite (margin w least greatest) = true) : 1 ≤ value (margin w least greatest) := by
  rw [margin] at hfinite ⊢
  split at hfinite
  · rename_i hforbidden
    rw [if_pos hforbidden]
    have hproduct := (isFinite_of_add hfinite).1
    obtain ⟨hcount, hspan⟩ := Binary64.isFinite_of_mul hproduct
    have happrox := Binary64.approximates_mul hcount hspan
    have hvalue : value (Scalar.ofNat (w.n - 1) * (greatest - least)) =
        Binary64.nearest (value (Scalar.ofNat (w.n - 1) : Float) * value (greatest - least)) :=
      (happrox.unpacked_of_lt (happrox.isFinite_iff.1 hproduct)).2
    have hspan0 : 0 ≤ value (greatest - least) := by
      rw [value_sub hspan]
      exact rounded_nonneg (sub_nonneg.2 hle)
    have hproduct0 : 0 ≤ value (Scalar.ofNat (w.n - 1) * (greatest - least)) := by
      rw [hvalue, value_ofNat (by omega)]
      exact Binary64.nearest_nonneg (mul_nonneg (Nat.cast_nonneg _) hspan0)
    have hone := rounded_value (isFinite_one (α := Float))
    rw [value_one] at hone
    rw [value_add hfinite, value_one]
    exact hone.symm.trans_le (rounded_mono (by linarith))
  · rename_i hforbidden
    rw [if_neg hforbidden, value_one]

/-- If the range check passes, the least weight is shifted to at least a quarter. -/
theorem quarter_le_shifted (hn : w.n ≤ 2 ^ 19) (hbounds : bounds? goal w = some (least, greatest))
    (hshift : isShiftable least greatest (offsetOf w least greatest) = true) :
    1 / 4 ≤ value (least - offsetOf w least greatest) := by
  obtain ⟨hleast, hgreatest, hoffset⟩ := isFinite_of_isShiftable hbounds hshift
  obtain ⟨_, hfin, hpos, _⟩ := between_shift hbounds hshift rfl
  have hle : value least ≤ value greatest := by
    obtain ⟨x, hx, heq⟩ := List.mem_map.1 (bounds_spec hbounds).1
    have := ((bounds_spec hbounds).2.2 x hx (by rw [heq]; exact le_self_of_isFinite hleast)).2
    rwa [heq, le_iff hleast hgreatest] at this
  have hmargin := one_le_margin hn hle (isFinite_of_sub hoffset).2
  have hlt : value (offsetOf w least greatest) < value least := by
    rw [isShiftable, Bool.and_eq_true, positive_sub hleast hoffset] at hshift
    exact hshift.1
  have hquarter : 1 / 4 ≤ value least - value (offsetOf w least greatest) :=
    Binary64.quarter_le_sub hleast hmargin (value_sub hoffset) hlt
  rw [value_sub hfin]
  have hrep : Binary64.Representable (1 / 4) := ⟨1, -2, by norm_num, by norm_num, by norm_num⟩
  exact (Binary64.nearest_eq_self hrep).symm.trans_le (rounded_mono hquarter)

end Margin

/-! ## The objectives -/

/-- The leeway on binary64 numbers. -/
theorem leeway_float (greatest : ℚ) (updates : ℕ) : leeway Float greatest updates = greatest * (updates + 1) / 2 ^ 50 := by
  rw [leeway, drift, unit_float]
  ring

section Objectives

variable {count updates : ℕ} {scale miss primal dual primal' dual' : ℚ}

/-- The exact objectives of a result with so many rows, and the computed ones. -/
structure Objectives (count updates : ℕ) (scale miss primal dual primal' dual' : ℚ) : Prop where
  count_le : count ≤ 2 ^ 19
  updates_lt : updates < 2 ^ 16
  one_le : 1 ≤ scale
  miss_eq : miss = scale * (updates + 1) / 2 ^ 50
  primal_ge : count / 4 ≤ primal
  primal_le : primal ≤ dual + count * miss
  dual_le : dual ≤ primal + count * miss
  scale_le : scale = 1 ∨ scale ≤ dual + miss
  primal_near : |primal' - primal| ≤ 2 * (1 / 2 ^ 53) * count * primal
  dual_near : |dual' - dual| ≤ 2 * (1 / 2 ^ 53) * (2 * count) * dual

/-- The leeway is a small part of the largest weight. -/
theorem Objectives.miss_le (h : Objectives count updates scale miss primal dual primal' dual') :
    0 ≤ miss ∧ miss ≤ scale / 2 ^ 34 := by
  have hone := h.one_le
  have hcast : (updates : ℚ) + 1 ≤ 2 ^ 16 := by exact_mod_cast h.updates_lt
  rw [h.miss_eq]
  refine ⟨by positivity, ?_⟩
  have := mul_le_mul_of_nonneg_left hcast (show 0 ≤ scale by linarith)
  linarith

/-- The dual variables add up to an eighth for every row. -/
theorem Objectives.dual_ge (h : Objectives count updates scale miss primal dual primal' dual') : count / 8 ≤ dual := by
  obtain ⟨hmiss0, hmiss⟩ := h.miss_le
  have hcount : (count : ℚ) ≤ 2 ^ 19 := by exact_mod_cast h.count_le
  rcases le_or_gt miss (1 / 8) with hsmall | hlarge
  · have := mul_le_mul_of_nonneg_left hsmall (show (0 : ℚ) ≤ count from Nat.cast_nonneg _)
    linarith [h.primal_ge, h.primal_le]
  · -- Where the leeway is not small, a single edge is heavy enough.
    rcases h.scale_le with hscale | hscale <;> linarith

/-- The objectives differ by less than the tolerance allows, also after rounding. -/
theorem Objectives.near (h : Objectives count updates scale miss primal dual primal' dual') :
    |primal' - dual'| * (1 + 1 / 2 ^ 53) ≤ scale / 2 ^ 30 * dual' := by
  obtain ⟨hmiss0, hmiss⟩ := h.miss_le
  have hge := h.dual_ge
  have hone := h.one_le
  have hcount : (count : ℚ) ≤ 2 ^ 19 := by exact_mod_cast h.count_le
  have hcount0 : (0 : ℚ) ≤ count := Nat.cast_nonneg _
  have hdual0 : 0 ≤ dual := by linarith
  have hprimal0 : 0 ≤ primal := by linarith [h.primal_ge]
  -- Everything is compared with the product of the largest weight and the sum of the dual variables.
  have hproduct : dual ≤ scale * dual := le_mul_of_one_le_left hdual0 hone
  have hleeway : count * miss ≤ scale * dual / 2 ^ 31 := by
    have h1 := mul_le_mul_of_nonneg_left hmiss hcount0
    have h2 := mul_le_mul_of_nonneg_right hge (show 0 ≤ scale / 2 ^ 31 by linarith)
    linarith
  have hprimal : 2 * (1 / 2 ^ 53) * count * primal ≤ primal / 2 ^ 33 := by
    have := mul_le_mul_of_nonneg_right hcount (show 0 ≤ primal / 2 ^ 52 by linarith)
    linarith
  have hdual : 2 * (1 / 2 ^ 53) * (2 * count) * dual ≤ dual / 2 ^ 32 := by
    have := mul_le_mul_of_nonneg_right hcount (show 0 ≤ dual / 2 ^ 51 by linarith)
    linarith
  have hp := abs_le.1 (h.primal_near.trans hprimal)
  have hd := abs_le.1 (h.dual_near.trans hdual)
  have habs : |primal' - dual'| ≤ scale * dual * (15 / 16) / 2 ^ 30 := by
    rw [abs_le]
    constructor <;> linarith [h.primal_le, h.dual_le]
  have hscaled := mul_le_mul_of_nonneg_left hd.1 (show 0 ≤ scale / 2 ^ 30 by linarith)
  linarith

end Objectives

/-- A dual variable that is not negative is accepted. -/
theorem dual_accepted {tolerance x : Float} (htolerance : Scalar.isFinite tolerance = true) (h0 : 0 ≤ value tolerance)
    (hx : Scalar.isFinite x = true) (hx0 : 0 ≤ value x) : Scalar.lt x (-tolerance) = false := by
  have hneg : Scalar.isFinite (-tolerance) = true := by rwa [isFinite_neg]
  refine (Binary64.approximates_value hx).lt_eq_false (Binary64.approximates_value hneg) ?_
  have hval : value (-tolerance) = -value tolerance := value_neg htolerance
  exact hval.trans_le (by change -value tolerance ≤ value x; linarith)

/-- An edge that outweighs the dual variables at its ends by at most the tolerance is accepted. -/
theorem edge_accepted {tolerance u v w : Float} (htolerance : Scalar.isFinite tolerance = true) (hu : Scalar.isFinite u = true)
    (hv : Scalar.isFinite v = true) (hw : Scalar.isFinite w = true) (h : value w ≤ value u + value v + value tolerance) :
    Scalar.lt (u + v) (w - tolerance) = false := by
  refine (Binary64.approximates_add hu hv).lt_eq_false (Binary64.approximates_sub hw htolerance) ?_
  change value w - value tolerance ≤ value u + value v
  linarith

/-- Two objectives that are close enough are accepted, even if the tolerance leaves the range. -/
theorem objective_accepted {tolerance primal dual : Float} (htolerance : Scalar.isFinite tolerance = true)
    (hprimal : Scalar.isFinite primal = true) (hdual : Scalar.isFinite dual = true)
    (hrange : |value primal - value dual| ≤ 2 ^ 1023)
    (hnear : |value primal - value dual| * (1 + 1 / 2 ^ 53) ≤ value tolerance * max |value dual| 1) :
    Scalar.lt (tolerance * Scalar.max (Scalar.abs dual) Scalar.one) (Scalar.abs (primal - dual)) = false := by
  obtain ⟨hdfin, hdval⟩ := abs_spec hdual
  obtain ⟨hmfin, hmval⟩ := max_spec hdfin isFinite_one
  rw [hdval, value_one] at hmval
  obtain ⟨hsfin, hserr⟩ := value_sub_of_abs_le hprimal hdual le_rfl (fits_float ((abs_abs _).trans_le hrange))
  obtain ⟨hafin, haval⟩ := abs_spec hsfin
  refine (Binary64.approximates_mul htolerance hmfin).lt_eq_false (Binary64.approximates_value hafin) ?_
  change value (Scalar.abs (primal - dual)) ≤ value tolerance * value (Scalar.max (Scalar.abs dual) Scalar.one)
  rw [haval, hmval]
  rw [unit_float] at hserr
  have := abs_sub_abs_le_abs_sub (value (primal - dual)) (value primal - value dual)
  linarith

/-! ## Calls -/

section Calls

variable {work : Table Float n} {offset : Float} {goal : Goal} {least greatest : ℚ}

/-- Four times the bound on the sums is in range. -/
theorem four_mul_two_pow : (4 : ℚ) * 2 ^ 1021 = 2 ^ 1023 := by
  rw [show (4 : ℚ) = 2 ^ 2 by norm_num]
  exact (pow_add 2 2 1021).symm

/-- The largest weight, or one, times the number of rows is in range if the largest weight times the number of rows is. -/
theorem scale_range {m : PrimalDual Float n} (hn : n ≤ 2 ^ 19) (hrange : n * greatest ≤ 2 ^ 1021)
    (hscale : value m.scale = 1 ∨ value m.scale ≤ greatest) : n * value m.scale ≤ 2 ^ 1021 := by
  rcases hscale with h | h
  · rw [h, mul_one]
    calc (n : ℚ) ≤ 2 ^ 19 := by exact_mod_cast hn
      _ ≤ 2 ^ 1021 := pow_le_pow_right₀ one_le_two (by norm_num)
  · exact (mul_le_mul_of_nonneg_left h (Nat.cast_nonneg n)).trans hrange

/-- Weights that are small enough for their sum are steady. -/
theorem steady_float {scale : ℚ} {updates : ℕ} (hn : 0 < n) (hone : 1 ≤ scale) (hrange : n * scale ≤ 2 ^ 1021)
    (hupdates : updates < 2 ^ 16) : Steady Float scale updates := by
  have hcast : (1 : ℚ) ≤ n := Nat.one_le_cast.2 hn
  have hle : scale ≤ 2 ^ 1021 := (le_mul_of_one_le_left (by linarith) hcast).trans hrange
  refine ⟨by linarith, fits_float ?_, ?_⟩
  · rw [abs_of_nonneg (by linarith)]
    exact four_mul_two_pow ▸ mul_le_mul_of_nonneg_left hle (by norm_num)
  · have hcast : (updates : ℚ) + 1 ≤ 2 ^ 16 := by exact_mod_cast hupdates
    have := mul_le_mul_of_nonneg_left hcast (show 0 ≤ scale by linarith)
    rw [leeway_float]
    linarith

/-- The computed sums of the weights of a result and of the dual variables. -/
theorem sums_near {weight : Fin n → Float} {row col : Fin n → Float} {range : ℚ} (hn : n ≤ 2 ^ 19)
    (hweight : ∀ i, Scalar.isFinite (weight i) = true ∧ 0 ≤ value (weight i))
    (hrow : ∀ i, Scalar.isFinite (row i) = true ∧ 0 ≤ value (row i))
    (hcol : ∀ j, Scalar.isFinite (col j) = true ∧ 0 ≤ value (col j)) (hfits : ∀ q : ℚ, |q| ≤ 4 * range → Fits Float q)
    (hprimal : ∑ i, value (weight i) ≤ 2 * range) (hdual : ∑ i, value (row i) + ∑ j, value (col j) ≤ 2 * range) :
    let primal := Scalar.sum ((List.finRange n).map weight)
    let dual := Scalar.sum ((List.finRange n).map row ++ (List.finRange n).map col)
    (Scalar.isFinite primal = true ∧ |value primal - ∑ i, value (weight i)| ≤ 2 * (1 / 2 ^ 53) * n * ∑ i, value (weight i)) ∧
      Scalar.isFinite dual = true ∧
        |value dual - (∑ i, value (row i) + ∑ j, value (col j))| ≤
          2 * (1 / 2 ^ 53) * (2 * n) * (∑ i, value (row i) + ∑ j, value (col j)) := by
  intro primal dual
  have hcast : (n : ℚ) ≤ 2 ^ 19 := by exact_mod_cast hn
  have hlist : ∀ f : Fin n → Float, (((List.finRange n).map f).map value).sum = ∑ i, value (f i) := fun f => by
    rw [List.map_map, Fin.sum_univ_def]
    rfl
  have hnonneg : ∀ {f : Fin n → Float}, (∀ i, Scalar.isFinite (f i) = true ∧ 0 ≤ value (f i)) → 0 ≤ ∑ i, value (f i) :=
    fun hf => Finset.sum_nonneg fun i _ => (hf i).2
  have hmem : ∀ {f : Fin n → Float}, (∀ i, Scalar.isFinite (f i) = true ∧ 0 ≤ value (f i)) →
      ∀ x ∈ (List.finRange n).map f, Scalar.isFinite x = true ∧ 0 ≤ value x := by
    intro f hf x hx
    obtain ⟨i, _, rfl⟩ := List.mem_map.1 hx
    exact hf i
  have hw := hnonneg hweight
  have hu := hnonneg hrow
  have hv := hnonneg hcol
  constructor
  · have := sum_near (hmem hweight) (hlist weight).le (hfits _ (by rw [abs_of_nonneg (by linarith)]; linarith))
      (by rw [unit_float, List.length_map, List.length_finRange]; linarith)
    rwa [unit_float, hlist, List.length_map, List.length_finRange] at this
  · have hsum : (((List.finRange n).map row ++ (List.finRange n).map col).map value).sum =
        ∑ i, value (row i) + ∑ j, value (col j) := by
      rw [List.map_append, List.sum_append, hlist, hlist]
    have hlength : (((List.finRange n).map row ++ (List.finRange n).map col).length : ℚ) = 2 * n := by
      rw [List.length_append, List.length_map, List.length_map, List.length_finRange]
      push_cast
      ring
    have := sum_near (fun x hx => (List.mem_append.1 hx).elim (hmem hrow x) (hmem hcol x)) hsum.le
      (hfits _ (by rw [abs_of_nonneg (by linarith)]; linarith)) (by rw [unit_float, hlength]; linarith)
    rwa [unit_float, hsum, hlength] at this

/-- What a search that has found a perfect matching leaves behind: the dual variables are those at the end of the last search, which are
near, and the sums stay in range. -/
structure Finished (m : PrimalDual Float n) (t : State Float n) (spent : ℚ) (updates : ℕ) : Prop where
  finite : ∀ i j x, (m.work.get i).get j = some x → Scalar.isFinite x = true ∧ 1 / 4 ≤ value x
  valid : Valid m.work t
  near : Near m.work (value m.scale) spent updates t
  rowDual_eq : m.state.rowDual = t.rowDual
  colDual_eq : m.state.colDual = t.colDual
  size_le : n ≤ 2 ^ 19
  updates_lt : updates < 2 ^ 16
  range : n * value m.scale ≤ 2 ^ 1021

section Finished

variable {m : PrimalDual Float n} {t u : State Float n} {spent : ℚ} {updates : ℕ}

/-- The scale and the tolerance of a matcher that has finished. -/
theorem Finished.scale (h : Finished m t spent updates) :
    Scalar.isFinite m.tolerance = true ∧ value m.scale / 2 ^ 30 ≤ value m.tolerance ∧ 1 ≤ value m.scale ∧
      (∀ i j x, (m.work.get i).get j = some x → value x ≤ value m.scale) ∧
      (value m.scale = 1 ∨ ∃ i j x, (m.work.get i).get j = some x ∧ value m.scale = value x) := by
  obtain ⟨hsfin, hsone, hsle, hsor⟩ := scale_spec fun i j x hx =>
    ⟨(h.finite i j x hx).1, by linarith [(h.finite i j x hx).2]⟩
  obtain ⟨htfin, htlow, _⟩ := tolerance_spec hsfin hsone
  exact ⟨htfin, htlow, hsone, hsle, hsor⟩

/-- The dual variables of a matcher that has finished are finite and not negative. -/
theorem Finished.duals (h : Finished m t spent updates) :
    (∀ i, Scalar.isFinite (m.state.rowDual.get i) = true ∧ 0 ≤ value (m.state.rowDual.get i)) ∧
      ∀ j, Scalar.isFinite (m.state.colDual.get j) = true ∧ 0 ≤ value (m.state.colDual.get j) := by
  rw [h.rowDual_eq, h.colDual_eq]
  exact ⟨h.valid.proper.rowDual, fun j => ⟨(h.near.colDual j).1, (h.near.colDual j).2.1⟩⟩

/-- A dual variable that is not negative is accepted. -/
theorem Finished.accept_dual (h : Finished m t spent updates) {x : Float} (hx : Scalar.isFinite x = true) (h0 : 0 ≤ value x) :
    Scalar.lt x (-m.tolerance) = false := by
  obtain ⟨htfin, htlow, hsone, _⟩ := h.scale
  exact dual_accepted htfin (le_trans (by positivity) htlow) hx h0

/-- No edge outweighs the dual variables at its ends by more than the tolerance. -/
theorem Finished.accept_edge (h : Finished m t spent updates) {i j : Fin n} {x : Float}
    (hx : (m.work.get i).get j = some x) :
    Scalar.lt (m.state.rowDual.get i + m.state.colDual.get j) (x - m.tolerance) = false := by
  obtain ⟨htfin, htlow, hsone, _⟩ := h.scale
  obtain ⟨hrow, hcol⟩ := h.duals
  have hxfin := (h.finite i j x hx).1
  refine edge_accepted htfin (hrow i).1 (hcol j).1 hxfin ?_
  have hle := h.near.feasible i j x hx (le_self_of_isFinite hxfin)
  have hcast : (updates : ℚ) + 1 ≤ 2 ^ 16 := by exact_mod_cast h.updates_lt
  have := mul_le_mul_of_nonneg_left hcast (show 0 ≤ value m.scale by linarith)
  rw [leeway_float] at hle
  rw [h.rowDual_eq, h.colDual_eq]
  linarith

/-- The dual variables of a matcher that has finished are those at the end of the last search. -/
theorem Finished.duals_eq (h : Finished m t spent updates) :
    m.duals = (List.finRange n).map t.rowDual.get ++ (List.finRange n).map t.colDual.get := by
  rw [duals_eq_map, h.rowDual_eq, h.colDual_eq]

/-- The scale is one, or it is the weight of an edge, which the dual variables cover. -/
theorem Finished.scale_le (h : Finished m t spent updates) :
    value m.scale = 1 ∨ value m.scale ≤
      ∑ i, value (t.rowDual.get i) + ∑ j, value (t.colDual.get j) + leeway Float (value m.scale) updates := by
  obtain ⟨_, _, _, _, hor⟩ := h.scale
  obtain ⟨hrow, hcol⟩ := h.duals
  rw [h.rowDual_eq] at hrow
  rw [h.colDual_eq] at hcol
  refine hor.imp_right fun ⟨i, j, x, hx, heq⟩ => ?_
  have hle := h.near.feasible i j x hx (le_self_of_isFinite (h.finite i j x hx).1)
  have hi := Finset.single_le_sum (fun i _ => (hrow i).2) (Finset.mem_univ i)
  have hj := Finset.single_le_sum (fun j _ => (hcol j).2) (Finset.mem_univ j)
  linarith

/-- The exact objectives are close to each other, and the computed ones to the exact ones. -/
theorem Finished.objectives (h : Finished m t spent updates) {j : Fin n} (hr : Reaching t j u) {e : Equiv.Perm (Fin n)}
    {weight : Fin n → Float} (hrow : ∀ i, u.rowMate.get i = some (e i))
    (hweight : ∀ i, (m.work.get i).get (e i) = some (weight i)) :
    let primal := Scalar.sum ((List.finRange n).map weight)
    Scalar.isFinite primal = true ∧ Scalar.isFinite (Scalar.sum m.duals) = true ∧
      |value primal - value (Scalar.sum m.duals)| ≤ 2 ^ 1023 ∧
      Objectives n updates (value m.scale) (leeway Float (value m.scale) updates) (∑ i, value (weight i))
        (∑ i, value (t.rowDual.get i) + ∑ j, value (t.colDual.get j)) (value primal) (value (Scalar.sum m.duals)) := by
  intro primal
  obtain ⟨_, _, hsone, hsle, _⟩ := h.scale
  obtain ⟨hrowDual, hcolDual⟩ := h.duals
  rw [h.rowDual_eq] at hrowDual
  rw [h.colDual_eq] at hcolDual
  have hfinite : ∀ i, Scalar.isFinite (weight i) = true ∧ 1 / 4 ≤ value (weight i) := fun i => h.finite i (e i) _ (hweight i)
  have habove := h.near.sum_le_duals fun i => ⟨hweight i, le_self_of_isFinite (hfinite i).1⟩
  have hbelow := h.near.duals_le_sum h.valid hr hrow hweight
  have hlow : (n : ℚ) * (1 / 4) ≤ ∑ i, value (weight i) := mul_le_sum fun i => (hfinite i).2
  have hhigh : ∑ i, value (weight i) ≤ n * value m.scale := sum_le_mul fun i => hsle i (e i) _ (hweight i)
  have hrange := h.range
  have hfits : ∀ q : ℚ, |q| ≤ 4 * 2 ^ 1021 → Fits Float q := fun q hq => fits_float (hq.trans_eq four_mul_two_pow)
  rw [← four_mul_two_pow]
  generalize (2 : ℚ) ^ 1021 = range at hrange hfits ⊢
  have hn0 : (0 : ℚ) ≤ n := Nat.cast_nonneg n
  have hrange0 : 0 ≤ range := (mul_nonneg hn0 (by linarith)).trans hrange
  have hdual0 : 0 ≤ ∑ i, value (t.rowDual.get i) + ∑ j, value (t.colDual.get j) :=
    add_nonneg (Finset.sum_nonneg fun i _ => (hrowDual i).2) (Finset.sum_nonneg fun j _ => (hcolDual j).2)
  have hcast : (n : ℚ) ≤ 2 ^ 19 := by exact_mod_cast h.size_le
  have hupdates : (updates : ℚ) + 1 ≤ 2 ^ 16 := by exact_mod_cast h.updates_lt
  have hmiss : n * leeway Float (value m.scale) updates ≤ n * value m.scale := by
    have := mul_le_mul_of_nonneg_left hupdates (show 0 ≤ value m.scale by linarith)
    exact mul_le_mul_of_nonneg_left (by rw [leeway_float]; linarith) hn0
  obtain ⟨⟨hpfin, hperr⟩, hdfin, hderr⟩ := sums_near h.size_le
    (fun i => ⟨(hfinite i).1, le_trans (by norm_num) (hfinite i).2⟩) hrowDual hcolDual
    hfits (by linarith) (by linarith)
  rw [← h.duals_eq] at hdfin hderr
  refine ⟨hpfin, hdfin, ?_, h.size_le, h.updates_lt, hsone, leeway_float _ _, by linarith, habove, hbelow, h.scale_le, hperr, hderr⟩
  have hperr := abs_le.1 hperr
  have hderr := abs_le.1 hderr
  generalize ∑ i, value (weight i) = P at *
  generalize ∑ i, value (t.rowDual.get i) + ∑ j, value (t.colDual.get j) = D at *
  have hP := mul_le_mul_of_nonneg_right hcast (show 0 ≤ P by linarith)
  have hD := mul_le_mul_of_nonneg_right hcast hdual0
  rw [abs_le]
  constructor <;> linarith

/-- The weight of the result reaches the bound of the dual variables up to the tolerance. -/
theorem Finished.accept_objective (h : Finished m t spent updates) {j : Fin n} (hr : Reaching t j u) {e : Equiv.Perm (Fin n)}
    {weight : Fin n → Float} (hrow : ∀ i, u.rowMate.get i = some (e i))
    (hweight : ∀ i, (m.work.get i).get (e i) = some (weight i)) :
    Scalar.lt (m.tolerance * Scalar.max (Scalar.abs (Scalar.sum m.duals)) Scalar.one)
      (Scalar.abs (Scalar.sum ((List.finRange n).map weight) - Scalar.sum m.duals)) = false := by
  obtain ⟨htfin, htlow, hsone, _⟩ := h.scale
  obtain ⟨hpfin, hdfin, hrange, hobjectives⟩ := h.objectives hr hrow hweight
  refine objective_accepted htfin hpfin hdfin hrange (hobjectives.near.trans ?_)
  calc value m.scale / 2 ^ 30 * value (Scalar.sum m.duals)
      ≤ value m.scale / 2 ^ 30 * max |value (Scalar.sum m.duals)| 1 :=
        mul_le_mul_of_nonneg_left ((le_abs_self _).trans (le_max_left _ _)) (by positivity)
    _ ≤ value m.tolerance * max |value (Scalar.sum m.duals)| 1 :=
        mul_le_mul_of_nonneg_right htlow (le_trans zero_le_one (le_max_right _ _))

end Finished

/-- The result of a search that has succeeded is certified if the sums stay in range. -/
theorem Ended.certified {r : Solved Float (PrimalDual Float n)} (hr : Ended work offset goal r) (hok : r.outcome = .ok ())
    (hm : r.matcher.work = work) (hwork : Between work least greatest)
    (hdefined : ∀ i j x, (work.get i).get j = some x → Scalar.le x x = true) (hleast : 1 / 4 ≤ least) (hn : 0 < n)
    (hsize : n ≤ 2 ^ 19) (hrange : n * greatest ≤ 2 ^ 1021) (hupdates : r.matcher.effort.updates < 2 ^ 16) :
    r.matcher.certify = .ok () := by
  cases hr with
  | abandoned _ _ _ _ herror _ _ => exact nomatch hok.symm.trans herror
  | @perfect s t u effort j e weight hstage hst hr hrow hweight _ heffort hstate hresult =>
    have hupdates : effort.updates < 2 ^ 16 := by rwa [heffort] at hupdates
    generalize r.matcher = m at hm hstate hresult ⊢
    subst hm
    have hfinite : ∀ i j x, (m.work.get i).get j = some x → Scalar.isFinite x = true ∧ 1 / 4 ≤ value x := fun i j x hx => by
      obtain ⟨hfin, hle, _⟩ := hwork i j x hx (hdefined i j x hx)
      exact ⟨hfin, hleast.trans hle⟩
    obtain ⟨_, hsone, hsle, hsor⟩ := scale_spec fun i j x hx => ⟨(hfinite i j x hx).1, by linarith [(hfinite i j x hx).2]⟩
    have hscale := scale_range (m := m) hsize hrange (hsor.imp_right fun ⟨i, j, x, hx, h⟩ =>
      h ▸ (hwork i j x hx (hdefined i j x hx)).2.2)
    have hbetween : Between m.work least (value m.scale) := fun i j x hx hdef =>
      ⟨(hwork i j x hx hdef).1, (hwork i j x hx hdef).2.1, hsle i j x hx⟩
    have hsteady := steady_float hn hsone hscale hupdates
    obtain ⟨spent, hnear⟩ := hstage.near_of_steps hbetween (by linarith) hn hsteady hst
    have hfinished : Finished m t spent effort.updates :=
      ⟨hfinite, (hstage.valid hbetween hsteady.nonneg hn).of_steps hst, hnear,
        by rw [hstate]; exact hr.flipped.rowDual_eq, by rw [hstate]; exact hr.flipped.colDual_eq, hsize, hupdates, hscale⟩
    obtain ⟨hrowDual, hcolDual⟩ := hfinished.duals
    exact certify_eq_ok (by rw [hresult]) (by rw [hresult]) hweight
      (fun i => hfinished.accept_dual (hrowDual i).1 (hrowDual i).2)
      (fun j => hfinished.accept_dual (hcolDual j).1 (hcolDual j).2) (fun _ _ _ => hfinished.accept_edge)
      (hfinished.accept_objective hr hrow hweight)

/-- A matcher without rows is certified as soon as it has been called. -/
theorem certify_cleared (m : PrimalDual Float 0) : m.cleared.certify = .ok () := by
  have hduals : m.cleared.duals = [] := by
    rw [duals_eq_map]
    rfl
  have hscale : m.cleared.scale = Scalar.one := by
    rw [scale, toList_eq_map_get]
    rfl
  have hweight : ∀ i, (m.cleared.work.get i).get (Equiv.refl (Fin 0) i) = some (Fin.elim0 i) := fun i => i.elim0
  refine certify_eq_ok rfl rfl hweight (fun i => i.elim0) (fun j => j.elim0) (fun i => i.elim0) ?_
  rw [hduals, tolerance, hscale]
  decide +kernel

/-- If a call on finite binary64 weights succeeds, its result is certified, provided that the sum of `n` greatest shifted weights is well
in range and that there are not more rows and updates than the tolerance has room for. -/
theorem certify_of_solve (m : PrimalDual Float n) (goal : Goal) (w : Weights Float) (hfinite : w.IsFinite)
    (hok : (m.solve goal w).outcome = .ok ()) (hsize : n ≤ 2 ^ 19) (hupdates : (m.solve goal w).matcher.effort.updates < 2 ^ 16)
    (hrange : ∀ least greatest, bounds? goal w = some (least, greatest) →
      n * value (greatest - offsetOf w least greatest) ≤ 2 ^ 1021) :
    (m.solve goal w).matcher.certify = .ok () := by
  have hcalled := called_solve m goal w
  generalize m.solve goal w = r at hcalled hok hupdates
  cases hcalled with
  | mismatched _ => exact nomatch hok
  | trivial _ hn =>
    subst hn
    exact certify_cleared m
  | noEdge _ _ _ => exact nomatch hok
  | unshiftable _ _ _ _ => exact nomatch hok
  | @searched least greatest h hn hbounds hshift hended =>
    obtain ⟨hwork, _, _, _⟩ := between_shift hbounds hshift h
    refine hended.certified hok (searched_searchTable _ _ _).work_eq hwork (fun i j x hx => ?_)
      (quarter_le_shifted (h ▸ hsize) hbounds hshift) hn hsize (hrange _ _ hbounds) hupdates
    have hshifted := hx
    rw [get_shift] at hshifted
    obtain ⟨y, hy, _⟩ := Option.map_eq_some_iff.1 hshifted
    obtain ⟨x', hx', hdef⟩ := hasEdge_shift hfinite hbounds hshift h hy
    obtain rfl := Option.some.inj (hx.symm.trans hx')
    exact hdef

/-- A call on two equal weights and two that are less is certified. -/
theorem certify_of_solve_two :
    let one := Float.ofBits 0x3ff0000000000000
    let w : Weights Float := ⟨2, #v[some one, some Scalar.zero, some Scalar.zero, some one]⟩
    let r := (new 2 : PrimalDual Float 2).solve .max w
    w.IsFinite ∧ r.outcome = .ok () ∧ r.matcher.effort.updates < 2 ^ 16 ∧ r.matcher.certify = .ok () := by
  intro one w r
  have hfinite : w.IsFinite := by
    unfold Weights.IsFinite
    decide +kernel
  have hok : r.outcome = .ok () := by decide +kernel
  have hupdates : r.matcher.effort.updates < 2 ^ 16 := by decide +kernel
  have hbounds : bounds? .max w = some (Scalar.zero, one) := by decide +kernel
  have hshifted : value (one - offsetOf w Scalar.zero one) = 2 := by decide +kernel
  refine ⟨hfinite, hok, hupdates, certify_of_solve (new 2) .max w hfinite hok (by norm_num) hupdates fun least greatest h => ?_⟩
  obtain ⟨rfl, rfl⟩ := Prod.mk.inj (Option.some.inj (hbounds.symm.trans h))
  rw [hshifted]
  calc ((2 : ℕ) : ℚ) * 2 = 2 ^ 2 := by norm_num
    _ ≤ 2 ^ 1021 := pow_le_pow_right₀ one_le_two (by norm_num)

/-- Above the diagonal of three rows the weights are a half, three quarters and all of the greatest finite number, and the last one on
it is a half: all are finite and pass the range check, and a call for the greatest total succeeds, but its certificate is refused. -/
theorem certify_refuses :
    ∃ w : Weights Float, w.IsFinite ∧ ((new 3 : PrimalDual Float 3).solve .max w).outcome = .ok () ∧
      ((new 3 : PrimalDual Float 3).solve .max w).matcher.certify = .error .dualInfeasible := by
  refine ⟨⟨3, #v[some (Float.ofBits 0), some (Float.ofBits 0x7fdfffffffffffff), some (Float.ofBits 0x7fe7ffffffffffff),
    some (Float.ofBits 0), some (Float.ofBits 0), some (Float.ofBits 0x7fefffffffffffff),
    some (Float.ofBits 0), some (Float.ofBits 0), some (Float.ofBits 0x7fdfffffffffffff)]⟩, ?_, by decide +kernel, by decide +kernel⟩
  unfold Weights.IsFinite
  decide +kernel

end Calls

end PrimalDual

end PerfectMatching
