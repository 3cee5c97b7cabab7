import PerfectMatching.Proofs.Margin
import PerfectMatching.Proofs.Perfect
import PerfectMatching.Proofs.Scalar.Sums

/-!
# The weight that is reported

A call does not add up the weights of the matching it has found but what is left of them when they have been shifted and shifted back,
and either step rounds at the size of the offset. So the reported weight need not be near the total of the matching at all, even if both
are finite (`PrimalDual.weight_differs`). What the two differ by is at most a small multiple of the offset and of the largest weight,
and a billionth of them if these are not too large (`PrimalDual.weight_near_total`).
-/

namespace PerfectMatching.PrimalDual

open LawfulScalar

section Rounding

variable {α : Type} [Scalar α] [LawfulScalar α] {n : ℕ} {goal : Goal} {offset : α}

/-- Turning the one of two weights around as the goal sees it, or the other, leaves them as far apart. -/
theorem abs_value_signed_sub (goal : Goal) {x y : α} (hx : Scalar.isFinite x = true) (hy : Scalar.isFinite y = true) :
    |value (goal.signed x) - value y| = |value x - value (goal.signed y)| := by
  cases goal with
  | max => rfl
  | min => rw [Goal.signed, Goal.signed, value_neg hx, value_neg hy, ← abs_neg, neg_sub, sub_neg_eq_add, sub_neg_eq_add, add_comm]

/-- A weight is rounded when it is shifted. -/
theorem abs_shifted_sub_le {x : α} (hshifted : Scalar.isFinite (x - offset) = true) :
    |value (x - offset) - (value x - value offset)| ≤ unit α * (|value x| + |value offset|) := by
  obtain ⟨hx, hoffset⟩ := isFinite_of_sub hshifted
  rw [value_sub hshifted]
  exact (rounded_sub_sub_le hx hoffset).trans (mul_le_mul_of_nonneg_left (abs_sub _ _) unit_nonneg)

/-- A weight that has been shifted, and the offset, add up to at most twice what their magnitudes do. -/
theorem abs_shifted_add_le {x : α} (hshifted : Scalar.isFinite (x - offset) = true) (hunit : unit α ≤ 1) :
    |value (x - offset) + value offset| ≤ 2 * (|value x| + |value offset|) := by
  have hround := abs_shifted_sub_le hshifted
  have hoff := mul_le_mul_of_nonneg_right hunit (add_nonneg (abs_nonneg (value x)) (abs_nonneg (value offset)))
  have hround := abs_le.1 hround
  have hx := abs_le.1 (le_refl |value x|)
  have hoffset := abs_nonneg (value offset)
  rw [abs_le]
  constructor <;> linarith

/-- A weight is rounded when it is shifted and again when it is shifted back, both times at the size of the offset. -/
theorem abs_shifted_back_sub_le {x : α} (hback : Scalar.isFinite (x - offset + offset) = true) (hunit : unit α ≤ 1) :
    |value (x - offset + offset) - value x| ≤ 3 * unit α * (|value x| + |value offset|) := by
  obtain ⟨hshifted, hoffset⟩ := isFinite_of_add hback
  have hsecond : |value (x - offset + offset) - (value (x - offset) + value offset)| ≤
      unit α * (2 * (|value x| + |value offset|)) := by
    rw [value_add hback]
    exact (rounded_add_sub_le hshifted hoffset).trans
      (mul_le_mul_of_nonneg_left (abs_shifted_add_le hshifted hunit) unit_nonneg)
  calc |value (x - offset + offset) - value x|
      = |value (x - offset + offset) - (value (x - offset) + value offset) +
          (value (x - offset) - (value x - value offset))| := by ring_nf
    _ ≤ unit α * (2 * (|value x| + |value offset|)) + unit α * (|value x| + |value offset|) :=
        (abs_add_le _ _).trans (add_le_add hsecond (abs_shifted_sub_le hshifted))
    _ = 3 * unit α * (|value x| + |value offset|) := by ring

/-- What is left of a weight of a limited magnitude when it has been shifted and shifted back is close to it. -/
theorem abs_signed_back_sub_le {x : α} {bound : ℚ} (hx : Scalar.isFinite x = true) (hbound : |value x| ≤ bound)
    (hback : Scalar.isFinite (goal.signed x - offset + offset) = true) (hunit : unit α ≤ 1) :
    |value (goal.signed (goal.signed x - offset + offset)) - value x| ≤ 3 * unit α * (bound + |value offset|) := by
  rw [abs_value_signed_sub goal hback hx]
  refine (abs_shifted_back_sub_le hback hunit).trans
    (mul_le_mul_of_nonneg_left ?_ (mul_nonneg (by norm_num) unit_nonneg))
  rw [abs_value_signed goal hx]
  exact add_le_add_left hbound _

/-- A finite sum of weights of a limited magnitude, one for each row, is close to the exact sum. -/
theorem abs_sum_finRange_sub_le {x : Fin n → α} {bound : ℚ} (hfin : Scalar.isFinite (Scalar.sum ((List.finRange n).map x)) = true)
    (hx : ∀ i, |value (x i)| ≤ bound) (hlength : 2 * unit α * n ≤ 1) :
    |value (Scalar.sum ((List.finRange n).map x)) - ∑ i, value (x i)| ≤ 2 * unit α * n * (n * bound) := by
  have hbound : (((List.finRange n).map x).map fun y => |value y|).sum ≤ n * bound := by
    rw [List.map_map, ← Fin.sum_univ_def]
    exact sum_le_mul hx
  have h := abs_sum_sub_le hfin hbound (by rwa [List.length_map, List.length_finRange])
  rwa [List.map_map, ← Fin.sum_univ_def, List.length_map, List.length_finRange] at h

/-- A sum of finite weights of a limited magnitude, one for each row, is finite if it stays well in range. -/
theorem isFinite_sum_finRange {x : Fin n → α} {bound : ℚ} (hfin : ∀ i, Scalar.isFinite (x i) = true)
    (hx : ∀ i, |value (x i)| ≤ bound) (hfits : Fits α (2 * (n * bound))) (hlength : 2 * unit α * n ≤ 1) :
    Scalar.isFinite (Scalar.sum ((List.finRange n).map x)) = true := by
  refine isFinite_sum (fun y hy => ?_) ?_ hfits (by rwa [List.length_map, List.length_finRange])
  · obtain ⟨i, _, rfl⟩ := List.mem_map.1 hy
    exact hfin i
  · rw [List.map_map, ← Fin.sum_univ_def]
    exact sum_le_mul hx

/-- What is left of finite weights when they have been shifted and shifted back has a finite sum if it stays well in range. -/
theorem isFinite_sum_shifted_back {weight : Fin n → α} {bound : ℚ}
    (hshifted : ∀ i, Scalar.isFinite (goal.signed (weight i) - offset) = true) (hbound : ∀ i, |value (weight i)| ≤ bound)
    (hfits : Fits α (4 * (n * (bound + |value offset|)))) (hlength : 16 * unit α * n ≤ 1) :
    Scalar.isFinite
      (Scalar.sum ((List.finRange n).map fun i => goal.signed (goal.signed (weight i) - offset + offset))) = true := by
  have hunit0 : 0 ≤ unit α := unit_nonneg
  have hterm : ∀ i, Scalar.isFinite (goal.signed (weight i) - offset + offset) = true ∧
      |value (goal.signed (goal.signed (weight i) - offset + offset))| ≤ 2 * (bound + |value offset|) := by
    intro i
    have hn1 : (1 : ℚ) ≤ n := Nat.one_le_cast.2 (Nat.zero_lt_of_lt i.isLt)
    have hunit1 : unit α ≤ 1 / 16 := by linarith [le_mul_of_one_le_right hunit0 hn1]
    have hoffset0 := abs_nonneg (value offset)
    obtain ⟨hsigned, hoffset⟩ := isFinite_of_sub (hshifted i)
    have hweight := (isFinite_signed goal _).symm.trans hsigned
    have hsize : |value (goal.signed (weight i))| + |value offset| ≤ bound + |value offset| := by
      rw [abs_value_signed goal hweight]
      linarith [hbound i]
    have hsize0 : 0 ≤ bound + |value offset| := (add_nonneg (abs_nonneg _) hoffset0).trans hsize
    have hback : Scalar.isFinite (goal.signed (weight i) - offset + offset) = true := by
      refine (isFinite_add (hshifted i) hoffset).2 (fits_of_abs_le ?_ hfits)
      rw [abs_of_nonneg (mul_nonneg (by norm_num) (mul_nonneg (by linarith) hsize0))]
      linarith [abs_shifted_add_le (hshifted i) (show unit α ≤ 1 by linarith), le_mul_of_one_le_left hsize0 hn1]
    have hnear := abs_signed_back_sub_le hweight (hbound i) hback (by linarith)
    have hrounding : 3 * unit α * (bound + |value offset|) ≤ bound + |value offset| := mul_le_of_le_one_left hsize0 (by linarith)
    have hfar := abs_sub_abs_le_abs_sub (value (goal.signed (goal.signed (weight i) - offset + offset))) (value (weight i))
    exact ⟨hback, by linarith [hbound i]⟩
  refine isFinite_sum_finRange (fun i => (isFinite_signed goal _).trans (hterm i).1) (fun i => (hterm i).2) ?_ ?_
  · rwa [show 2 * (n * (2 * (bound + |value offset|))) = 4 * (n * (bound + |value offset|)) by ring]
  · linarith [mul_nonneg hunit0 (Nat.cast_nonneg (α := ℚ) n)]

/-- Weights of a limited magnitude, one for each row, and what is left of them when they have been shifted and shifted back have nearly
the same sum, if both sums are finite. -/
theorem abs_sum_sub_sum_le {weight : Fin n → α} {bound : ℚ} (hn : 0 < n) (hbound : ∀ i, |value (weight i)| ≤ bound)
    (htotal : Scalar.isFinite (Scalar.sum ((List.finRange n).map weight)) = true)
    (hback : Scalar.isFinite
      (Scalar.sum ((List.finRange n).map fun i => goal.signed (goal.signed (weight i) - offset + offset))) = true)
    (hlength : 16 * unit α * n ≤ 1) :
    |value (Scalar.sum ((List.finRange n).map weight)) -
        value (Scalar.sum ((List.finRange n).map fun i => goal.signed (goal.signed (weight i) - offset + offset)))| ≤
      8 * unit α * n * (n * bound + |value offset|) := by
  have hunit0 : 0 ≤ unit α := unit_nonneg
  have hn1 : (1 : ℚ) ≤ n := Nat.one_le_cast.2 hn
  have hcount : 0 ≤ unit α * n := mul_nonneg hunit0 (by linarith)
  have hbound0 : 0 ≤ bound := (abs_nonneg _).trans (hbound ⟨0, hn⟩)
  have hoffset0 := abs_nonneg (value offset)
  have hunit1 : unit α ≤ 1 := by linarith [le_mul_of_one_le_right hunit0 hn1]
  have hterm : ∀ i, |value (goal.signed (goal.signed (weight i) - offset + offset)) - value (weight i)| ≤
      3 * unit α * (bound + |value offset|) := by
    intro i
    have hfin := isFinite_of_sum hback _ (List.mem_map_of_mem (List.mem_finRange i))
    rw [isFinite_signed] at hfin
    have hweight : Scalar.isFinite (weight i) = true := isFinite_of_sum htotal _ (List.mem_map_of_mem (List.mem_finRange i))
    exact abs_signed_back_sub_le hweight (hbound i) hfin hunit1
  have hsize : ∀ i, |value (goal.signed (goal.signed (weight i) - offset + offset))| ≤
      bound + 3 * unit α * (bound + |value offset|) := by
    intro i
    have := abs_sub_abs_le_abs_sub (value (goal.signed (goal.signed (weight i) - offset + offset))) (value (weight i))
    linarith [hterm i, hbound i]
  have hexact : |∑ i, value (goal.signed (goal.signed (weight i) - offset + offset)) - ∑ i, value (weight i)| ≤
      n * (3 * unit α * (bound + |value offset|)) := by
    rw [← Finset.sum_sub_distrib]
    exact (Finset.abs_sum_le_sum_abs _ _).trans (sum_le_mul hterm)
  have htotal' := abs_le.1 (abs_sum_finRange_sub_le htotal hbound (by linarith))
  have hback' := abs_le.1 (abs_sum_finRange_sub_le hback hsize (by linarith))
  have hexact' := abs_le.1 hexact
  -- The errors of second order are small because there are not too many rows.
  have hsecond : unit α * n * (unit α * n * (bound + |value offset|)) ≤ unit α * n * (bound + |value offset|) / 16 := by
    have := mul_le_mul_of_nonneg_right hlength (mul_nonneg hcount (show 0 ≤ bound + |value offset| by linarith))
    linarith
  have hrows : unit α * n * bound ≤ unit α * n * (n * bound) :=
    mul_le_mul_of_nonneg_left (le_mul_of_one_le_left hbound0 hn1) hcount
  have hoffset : 0 ≤ unit α * n * |value offset| := mul_nonneg hcount hoffset0
  rw [abs_le]
  constructor <;> linarith

end Rounding

/-- A call that succeeds on finite weights leaves a permutation along allowed edges, and as its weight the sum of what is left of the
weights of these edges when they have been shifted and shifted back. -/
theorem exists_weights_of_solve {α : Type} [Scalar α] [LawfulScalar α] {w : Weights α} (m : PrimalDual α w.n) {goal : Goal}
    (hn : 0 < w.n) (hfinite : w.IsFinite) (hok : (m.solve goal w).outcome = .ok ()) :
    let r := (m.solve goal w).matcher
    ∃ (e : Equiv.Perm (Fin w.n)) (weight : Fin w.n → α), (∀ i, w.edge i (e i) = some (weight i)) ∧
      (∀ i, Scalar.isFinite (goal.signed (weight i) - r.offset) = true) ∧
      r.result = ⟨columnsOf e, columnsOf e.symm,
        Scalar.sum ((List.finRange w.n).map fun i => goal.signed (goal.signed (weight i) - r.offset + r.offset))⟩ := by
  have hcalled := called_solve m goal w
  generalize m.solve goal w = r at hcalled hok
  intro r'
  cases hcalled with
  | mismatched h => exact absurd rfl h
  | trivial _ hzero => exact absurd hzero hn.ne'
  | noEdge _ _ _ => exact nomatch hok
  | unshiftable _ _ _ _ => exact nomatch hok
  | @searched least greatest h _ hbounds hshift hended =>
    have hoffset : r'.offset = offsetOf w least greatest := (searched_searchTable goal _ _).offset_eq
    rw [hoffset]
    cases hended with
    | abandoned _ _ _ _ hfailed _ _ => exact nomatch hok.symm.trans hfailed
    | @perfect _ _ _ _ _ e shifted _ _ _ _ hshifted _ _ _ hresult =>
      have hedge : ∀ i, ∃ x, w.edge i (e i) = some x ∧ goal.signed x - offsetOf w least greatest = shifted i := by
        intro i
        have := hshifted i
        rw [get_shift] at this
        exact Option.map_eq_some_iff.1 this
      choose weight hweight heq using hedge
      refine ⟨e, weight, hweight, fun i => ?_, ?_⟩
      · have hmem := Weights.mem_allowed_of_edge (hweight i)
        have hdef := le_self_of_isFinite ((isFinite_signed goal _).trans (hfinite _ hmem))
        exact (isFinite_sub_offset_of_defined hbounds hshift hmem hdef).1
      · rw [show r'.result = _ from hresult]
        simp only [heq]

/-- A matrix whose entries can be counted by words has fewer than `2 ^ 32` rows. -/
theorem lt_of_mul_self_lt {n : ℕ} (hsize : n * n < wordLimit) : n < 2 ^ 32 := by
  by_contra hle
  exact absurd hsize (not_lt.2 (Nat.mul_le_mul (not_lt.1 hle) (not_lt.1 hle)))

/-- On fewer than `2 ^ 32` rows the errors of a call stay small. -/
theorem length_le_of_lt_wordLimit {n : ℕ} (hsize : n * n < wordLimit) : 16 * unit Float * n ≤ 1 := by
  have hcast : (n : ℚ) ≤ 2 ^ 32 := by exact_mod_cast (lt_of_mul_self_lt hsize).le
  rw [unit_float]
  linarith

/-- The total of finite binary64 weights along a permutation is finite if it stays well in range. -/
theorem isFinite_total {w : Weights Float} {weight : Fin w.n → Float} (hsize : w.n * w.n < wordLimit)
    (hweight : ∀ i, Scalar.isFinite (weight i) = true) {bound : ℚ} (hbound : ∀ i, |value (weight i)| ≤ bound)
    (hrange : w.n * bound ≤ 2 ^ 1022) : Scalar.isFinite (Scalar.sum ((List.finRange w.n).map weight)) = true := by
  have hlength := length_le_of_lt_wordLimit hsize
  have hcount : 0 ≤ unit Float * w.n := mul_nonneg unit_nonneg (Nat.cast_nonneg _)
  refine isFinite_sum_finRange hweight hbound (fits_float ?_) (by linarith)
  have hsum : 0 ≤ w.n * bound := (Finset.sum_nonneg fun i _ => abs_nonneg (value (weight i))).trans (sum_le_mul hbound)
  rw [abs_of_nonneg (mul_nonneg zero_le_two hsum)]
  exact (mul_le_mul_of_nonneg_left hrange zero_le_two).trans_eq (pow_succ' 2 1022).symm

/-- A call that succeeds on finite binary64 weights reports a finite weight if the offset and the weights stay well in range. -/
theorem isFinite_weight_of_solve {w : Weights Float} (m : PrimalDual Float w.n) {goal : Goal} (hn : 0 < w.n)
    (hsize : w.n * w.n < wordLimit) (hfinite : w.IsFinite) (hok : (m.solve goal w).outcome = .ok ()) {bound : ℚ}
    (hbound : ∀ x ∈ w.allowed, |value x| ≤ bound)
    (hrange : w.n * (bound + |value (m.solve goal w).matcher.offset|) ≤ 2 ^ 1021) :
    Scalar.isFinite (m.solve goal w).matcher.result.weight = true := by
  obtain ⟨e, weight, hedge, hshifted, hresult⟩ := exists_weights_of_solve m hn hfinite hok
  have hweight : ∀ i, |value (weight i)| ≤ bound := fun i => hbound _ (Weights.mem_allowed_of_edge (hedge i))
  have hsum : 0 ≤ bound + |value (m.solve goal w).matcher.offset| :=
    add_nonneg ((abs_nonneg _).trans (hweight ⟨0, hn⟩)) (abs_nonneg _)
  rw [hresult]
  refine isFinite_sum_shifted_back hshifted hweight (fits_float ?_) (length_le_of_lt_wordLimit hsize)
  have hfour : (0 : ℚ) ≤ 2 ^ 2 := by norm_num
  rw [show (4 : ℚ) = 2 ^ 2 by norm_num, abs_of_nonneg (mul_nonneg hfour (mul_nonneg (Nat.cast_nonneg _) hsum))]
  exact (mul_le_mul_of_nonneg_left hrange hfour).trans_eq (pow_add 2 2 1021).symm

section Offset

variable {w : Weights Float} {p q : Float} {bound : ℚ}

/-- What is at most eight times as large as what the weights of all rows can add up to is in range if that is. -/
theorem fits_of_le (hrange : 8 * (w.n * bound + 1) ≤ 2 ^ 1023) {x : ℚ} (hx : 0 ≤ x) (hle : x ≤ 8 * (w.n * bound + 1)) :
    Fits Float x := by
  refine fits_float ?_
  rw [abs_of_nonneg hx]
  exact hle.trans hrange

/-- The margin is at most six times as large as what the weights of all rows can add up to. -/
theorem abs_value_margin_le (hn : 0 < w.n) (hsize : w.n * w.n < wordLimit) (hp : Scalar.isFinite p = true)
    (hq : Scalar.isFinite q = true) (hpb : |value p| ≤ bound) (hqb : |value q| ≤ bound)
    (hrange : 8 * (w.n * bound + 1) ≤ 2 ^ 1023) :
    Scalar.isFinite (margin w p q) = true ∧ |value (margin w p q)| ≤ 6 * (w.n * bound + 1) := by
  have hbound0 : 0 ≤ bound := (abs_nonneg _).trans hpb
  have hn1 : (1 : ℚ) ≤ w.n := Nat.one_le_cast.2 hn
  have hrows : bound ≤ w.n * bound := le_mul_of_one_le_left hbound0 hn1
  have hpb := abs_le.1 hpb
  have hqb := abs_le.1 hqb
  unfold margin
  split
  · obtain ⟨hspanfin, hspan⟩ := value_sub_of_abs_le hq hp
      (show |value q - value p| ≤ 2 * bound by rw [abs_le]; constructor <;> linarith)
      (fits_of_le hrange (by linarith) (by linarith))
    rw [unit_float] at hspan
    have hspan := abs_le.1 hspan
    have hcount : ((w.n - 1 : ℕ) : ℚ) = w.n - 1 := Nat.cast_pred hn
    have hproduct : |((w.n - 1 : ℕ) : ℚ) * value (q - p)| ≤ 3 * (w.n * bound) := by
      have habs : |value (q - p)| ≤ 3 * bound := abs_le.2 ⟨by linarith, by linarith⟩
      rw [hcount, abs_mul, abs_of_nonneg (by linarith)]
      calc (w.n - 1) * |value (q - p)| ≤ w.n * (3 * bound) := mul_le_mul (by linarith) habs (abs_nonneg _) (by linarith)
        _ = 3 * (w.n * bound) := by ring
    have hsmall : w.n - 1 < 2 ^ 53 := by
      have := lt_of_mul_self_lt hsize
      omega
    obtain ⟨hmulfin, hmul⟩ := value_mul_of_abs_le hsmall hspanfin hproduct (fits_of_le hrange (by linarith) (by linarith))
    rw [unit_float] at hmul
    have hmul := abs_le.1 hmul
    have hproduct := abs_le.1 hproduct
    obtain ⟨haddfin, hadd⟩ := value_add_of_abs_le hmulfin isFinite_one
      (show |value (Scalar.ofNat (w.n - 1) * (q - p)) + value Scalar.one| ≤ 5 * (w.n * bound + 1) by
        rw [value_one, abs_le]; constructor <;> linarith)
      (fits_of_le hrange (by linarith) (by linarith))
    rw [value_one, unit_float] at hadd
    have hadd := abs_le.1 hadd
    exact ⟨haddfin, abs_le.2 ⟨by linarith, by linarith⟩⟩
  · rw [value_one, abs_one]
    exact ⟨isFinite_one, by linarith⟩

/-- The offset is at most eight times as large as what the weights of all rows can add up to. -/
theorem abs_value_offsetOf_le (hn : 0 < w.n) (hsize : w.n * w.n < wordLimit) (hp : Scalar.isFinite p = true)
    (hq : Scalar.isFinite q = true) (hpb : |value p| ≤ bound) (hqb : |value q| ≤ bound)
    (hrange : 8 * (w.n * bound + 1) ≤ 2 ^ 1023) : |value (offsetOf w p q)| ≤ 8 * (w.n * bound + 1) := by
  have hbound0 : 0 ≤ bound := (abs_nonneg _).trans hpb
  have hrows : bound ≤ w.n * bound := le_mul_of_one_le_left hbound0 (Nat.one_le_cast.2 hn)
  obtain ⟨hmarginfin, hmargin⟩ := abs_value_margin_le hn hsize hp hq hpb hqb hrange
  have hmargin := abs_le.1 hmargin
  have hpb := abs_le.1 hpb
  obtain ⟨_, hoffset⟩ := value_sub_of_abs_le hp hmarginfin
    (show |value p - value (margin w p q)| ≤ 7 * (w.n * bound + 1) by rw [abs_le]; constructor <;> linarith)
    (fits_of_le hrange (by linarith) (by linarith))
  rw [unit_float] at hoffset
  have hoffset := abs_le.1 hoffset
  rw [offsetOf, abs_le]
  constructor <;> linarith

end Offset

/-- A call that succeeds has subtracted the offset of the bounds of its weights. -/
theorem exists_bounds_of_solve {α : Type} [Scalar α] [LawfulScalar α] {w : Weights α} (m : PrimalDual α w.n) {goal : Goal}
    (hn : 0 < w.n) (hok : (m.solve goal w).outcome = .ok ()) :
    ∃ least greatest, bounds? goal w = some (least, greatest) ∧
      (m.solve goal w).matcher.offset = offsetOf w least greatest := by
  have hcalled := called_solve m goal w
  generalize m.solve goal w = r at hcalled hok
  cases hcalled with
  | mismatched h => exact absurd rfl h
  | trivial _ hzero => exact absurd hzero hn.ne'
  | noEdge _ _ _ => exact nomatch hok
  | unshiftable _ _ _ _ => exact nomatch hok
  | @searched least greatest _ _ hbounds _ _ => exact ⟨least, greatest, hbounds, (searched_searchTable goal _ _).offset_eq⟩

/-- A call that succeeds on finite binary64 weights reports a finite weight if `n` times what the weights of all rows can add up to stays
well in range. -/
theorem isFinite_weight_of_mul_le {w : Weights Float} (m : PrimalDual Float w.n) {goal : Goal} (hn : 0 < w.n)
    (hsize : w.n * w.n < wordLimit) (hfinite : w.IsFinite) (hok : (m.solve goal w).outcome = .ok ()) {bound : ℚ}
    (hbound : ∀ x ∈ w.allowed, |value x| ≤ bound) (hrange : w.n * (w.n * bound + 1) ≤ 2 ^ 1017) :
    Scalar.isFinite (m.solve goal w).matcher.result.weight = true := by
  obtain ⟨least, greatest, hbounds, hoffset⟩ := exists_bounds_of_solve m hn hok
  obtain ⟨hleast, hgreatest, _⟩ := bounds_spec hbounds
  have hsigned : ∀ y ∈ w.allowed.map goal.signed, Scalar.isFinite y = true ∧ |value y| ≤ bound := by
    intro y hy
    obtain ⟨x, hx, rfl⟩ := List.mem_map.1 hy
    exact ⟨(isFinite_signed goal x).trans (hfinite x hx), (abs_value_signed goal (hfinite x hx)).trans_le (hbound x hx)⟩
  have hbound0 : 0 ≤ bound := (abs_nonneg _).trans (hsigned _ hleast).2
  have hn1 : (1 : ℚ) ≤ w.n := Nat.one_le_cast.2 hn
  have hrows : bound ≤ w.n * bound := le_mul_of_one_le_left hbound0 hn1
  have hsum : w.n * bound + 1 ≤ w.n * (w.n * bound + 1) := le_mul_of_one_le_left (by linarith) hn1
  have height : 8 * (w.n * bound + 1) ≤ (2 : ℚ) ^ 1023 :=
    calc 8 * (w.n * bound + 1) ≤ 2 ^ 6 * (2 : ℚ) ^ 1017 :=
          mul_le_mul (by norm_num) (hsum.trans hrange) (by linarith) (by norm_num)
      _ = 2 ^ 1023 := (pow_add 2 6 1017).symm
  have hsize' := abs_value_offsetOf_le hn hsize (hsigned _ hleast).1 (hsigned _ hgreatest).1 (hsigned _ hleast).2
    (hsigned _ hgreatest).2 height
  refine isFinite_weight_of_solve m hn hsize hfinite hok hbound ?_
  rw [hoffset]
  calc w.n * (bound + |value (offsetOf w least greatest)|) ≤ w.n * (2 ^ 4 * (w.n * bound + 1)) :=
        mul_le_mul_of_nonneg_left (by linarith) (by linarith)
    _ = 2 ^ 4 * (w.n * (w.n * bound + 1)) := mul_left_comm _ _ _
    _ ≤ 2 ^ 4 * 2 ^ 1017 := mul_le_mul_of_nonneg_left hrange (by norm_num)
    _ = 2 ^ 1021 := (pow_add 2 4 1017).symm

/-- A call that succeeds on finite binary64 weights leaves a perfect matching whose total is readable. If the offset and the weights stay
well in range, the total and the reported weight are finite. If these are finite, they differ by at most a small multiple of what the
offset and the largest weight can add up to, and by at most a billionth of the larger one if that is at most about a million times as
large. -/
theorem weight_near_total {w : Weights Float} (m : PrimalDual Float w.n) (goal : Goal) (hn : 0 < w.n)
    (hsize : w.n * w.n < wordLimit) (hfinite : w.IsFinite) (hok : (m.solve goal w).outcome = .ok ()) {bound : ℚ}
    (hbound : ∀ x ∈ w.allowed, |value x| ≤ bound) :
    let r := (m.solve goal w).matcher
    let size : ℚ := w.n * (w.n * bound + |value r.offset|)
    ∃ t, w.total? r.result.source = some (some t) ∧
      (w.n * (bound + |value r.offset|) ≤ 2 ^ 1021 → t.isFinite = true ∧ r.result.weight.isFinite = true) ∧
      (t.isFinite = true → r.result.weight.isFinite = true →
        let larger := max 1 (max |value t| |value r.result.weight|)
        |value t - value r.result.weight| ≤ size / 2 ^ 50 ∧
          (size ≤ 2 ^ 20 * larger → |value t - value r.result.weight| ≤ 1 / 10 ^ 9 * larger)) := by
  intro r size
  obtain ⟨e, weight, hedge, _, hresult⟩ := exists_weights_of_solve m hn hfinite hok
  have hallowed : ∀ i, weight i ∈ w.allowed := fun i => Weights.mem_allowed_of_edge (hedge i)
  have hweight : ∀ i, |value (weight i)| ≤ bound := fun i => hbound _ (hallowed i)
  refine ⟨Scalar.sum ((List.finRange w.n).map weight), ?_, fun hrange => ⟨?_, ?_⟩, fun ht hreported => ?_⟩
  · rw [show r.result = _ from hresult]
    exact Weights.total?_columnsOf hedge
  · have hbound' : w.n * bound ≤ w.n * (bound + |value r.offset|) :=
      mul_le_mul_of_nonneg_left (le_add_of_nonneg_right (abs_nonneg _)) (Nat.cast_nonneg _)
    exact isFinite_total hsize (fun i => hfinite _ (hallowed i)) hweight
      ((hbound'.trans hrange).trans (pow_le_pow_right₀ one_le_two (Nat.le_succ 1021)))
  · exact isFinite_weight_of_solve m hn hsize hfinite hok hbound hrange
  · intro larger
    have hdiff : |value (Scalar.sum ((List.finRange w.n).map weight)) - value r.result.weight| ≤ size / 2 ^ 50 := by
      have hback := hreported
      rw [show r.result = _ from hresult] at hback ⊢
      refine (abs_sum_sub_sum_le hn hweight ht hback (length_le_of_lt_wordLimit hsize)).trans (le_of_eq ?_)
      rw [unit_float, show size = w.n * (w.n * bound + |value (m.solve goal w).matcher.offset|) from rfl]
      ring
    refine ⟨hdiff, fun hsmall => hdiff.trans ?_⟩
    have hlarger : 1 ≤ larger := le_max_left _ _
    linarith

/-- The weights `1` to `4`, of which `2` and `3` are matched: the reported weight is the total up to a billionth of it. -/
theorem weight_near_total_two :
    let w : Weights Float := .ofFn 2 fun i j => some (.ofNat (2 * i + j + 1))
    let r := ((new 2 : PrimalDual Float 2).solve .max w).matcher
    ((new 2 : PrimalDual Float 2).solve .max w).outcome = .ok () ∧
      ∃ t, w.total? r.result.source = some (some t) ∧ t.isFinite = true ∧ r.result.weight.isFinite = true ∧
        |value t - value r.result.weight| ≤ 1 / 10 ^ 9 * max 1 (max |value t| |value r.result.weight|) := by
  intro w r
  have hok : ((new 2 : PrimalDual Float 2).solve .max w).outcome = .ok () := by decide +kernel
  have hfinite : w.IsFinite := by
    unfold Weights.IsFinite
    decide +kernel
  have hbound : ∀ x ∈ w.allowed, |value x| ≤ 4 := by decide +kernel
  have hoffset : |value ((new 2 : PrimalDual Float 2).solve .max w).matcher.offset| ≤ 4 := by decide +kernel
  obtain ⟨t, ht, hrange, hnear⟩ := weight_near_total (new 2) .max (w := w) (by decide) (by decide) hfinite hok hbound
  have hrows : ((w.n : ℕ) : ℚ) = 2 := rfl
  simp only [hrows] at hrange hnear
  have hsum : 2 * (4 + |value ((new 2 : PrimalDual Float 2).solve .max w).matcher.offset|) ≤ 2 ^ 4 := by linarith only [hoffset]
  have hsize : 2 * (2 * 4 + |value ((new 2 : PrimalDual Float 2).solve .max w).matcher.offset|) ≤ 2 ^ 20 * 1 := by
    linarith only [hoffset]
  obtain ⟨hfin, hweight⟩ := hrange (hsum.trans (pow_le_pow_right₀ one_le_two (by norm_num)))
  exact ⟨hok, t, ht, hfin, hweight,
    (hnear hfin hweight).2 (hsize.trans (mul_le_mul_of_nonneg_left (le_max_left _ _) (by norm_num)))⟩

/-- Finite weights that pass the range check, `-2 ^ 52` on one diagonal and a quarter on the other: the other diagonal is found, whose
total is a half, and the weight that is reported is zero. -/
theorem weight_differs :
    ∃ w : Weights Float, w.IsFinite ∧
      let r := (new w.n : PrimalDual Float w.n).solve .max w
      r.outcome = .ok () ∧ ∃ t, w.total? r.matcher.result.source = some (some t) ∧
        t.isFinite = true ∧ r.matcher.result.weight.isFinite = true ∧
          ¬|value t - value r.matcher.result.weight| ≤ 1 / 10 ^ 9 * max 1 (max |value t| |value r.matcher.result.weight|) := by
  refine ⟨.ofFn 2 fun i j => some (if i = j then .ofBits 0xc330000000000000 else .ofBits 0x3fd0000000000000), ?_, by decide +kernel,
    .ofBits 0x3fe0000000000000, by decide +kernel, by decide +kernel, by decide +kernel, by decide +kernel⟩
  unfold Weights.IsFinite
  decide +kernel

end PerfectMatching.PrimalDual
