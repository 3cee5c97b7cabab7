import Mathlib.Algebra.Order.Ring.WithTop
import PerfectMatching.Proofs.Binary64.Packed

/-!
# The order of binary64 numbers

Numbers in canonical form are compared by sign, exponent and mantissa, in this order. Main statement: this is the order of
the numbers they stand for, with an infinite number at either end and what is no number apart (`le_iff_rank`,
`lt_iff_rank`).
-/

namespace PerfectMatching.Binary64

open Float.Model Float.Model.UnpackedFloat

/-- The place of a number in the order; what is no number is put at zero. -/
def rank : UnpackedFloat → WithBot (WithTop ℚ)
  | .infinity .negative => ⊥
  | .infinity .positive => ((⊤ : WithTop ℚ) : WithBot (WithTop ℚ))
  | f => ((number f : WithTop ℚ) : WithBot (WithTop ℚ))

/-- Of two magnitudes in canonical form, the one with the greater exponent is greater, and for the same exponent the one with
the greater mantissa. -/
theorem compare_then_compare {s t : Sign} {m m' : ℕ} {e e' : ℤ} {hm : 0 < m} {hm' : 0 < m'}
    (h : Canonical (.finite s m e hm)) (h' : Canonical (.finite t m' e' hm')) :
    (compare e e').then (compare m m') = cmp ((m : ℚ) * 2 ^ e) (m' * 2 ^ e') := by
  have hlt : ∀ {k k' : ℕ} {d d' : ℤ}, k < 2 ^ 53 → 2 ^ 52 ≤ k' → d < d' → (k : ℚ) * 2 ^ d < k' * 2 ^ d' := by
    intro k k' d d' hk hk' hd
    calc (k : ℚ) * 2 ^ d < 2 ^ (53 : ℤ) * 2 ^ d := mul_lt_mul_of_pos_right (by exact_mod_cast hk) (two_zpow_pos d)
      _ = 2 ^ (52 : ℤ) * 2 ^ (d + 1) := by
        rw [two_zpow_add d 1]
        norm_num
        ring
      _ ≤ k' * 2 ^ d' := mul_le_mul (by exact_mod_cast hk') (two_zpow_le hd) (two_zpow_pos _).le (Nat.cast_nonneg k')
  obtain ⟨hm53, he, hn⟩ := h
  obtain ⟨hm53', he', hn'⟩ := h'
  rcases lt_trichotomy e e' with hlt' | rfl | hgt
  · rw [Int.compare_eq_lt.2 hlt', (cmp_eq_lt_iff _ _).2 (hlt hm53 (hn'.resolve_right (by omega)) hlt')]
    rfl
  · rw [Int.compare_eq_eq.2 rfl]
    have hp := two_zpow_pos e
    rcases lt_trichotomy m m' with hlt' | rfl | hgt
    · rw [Nat.compare_eq_lt.2 hlt', (cmp_eq_lt_iff _ _).2 (mul_lt_mul_of_pos_right (by exact_mod_cast hlt') hp)]
      rfl
    · rw [Nat.compare_eq_eq.2 rfl, (cmp_eq_eq_iff _ _).2 rfl]
      rfl
    · rw [Nat.compare_eq_gt.2 hgt, (cmp_eq_gt_iff _ _).2 (mul_lt_mul_of_pos_right (by exact_mod_cast hgt) hp)]
      rfl
  · rw [Int.compare_eq_gt.2 hgt, (cmp_eq_gt_iff _ _).2 (hlt hm53' (hn.resolve_right (by omega)) hgt)]
    rfl

/-- A number with a positive sign is positive. -/
theorem number_positive_pos {m : ℕ} (e : ℤ) (hm : 0 < m) : 0 < number (.finite .positive m e hm) :=
  mul_pos (Int.cast_pos.2 (Int.natCast_pos.2 hm)) (two_zpow_pos e)

/-- A number with a negative sign is the opposite of the one with a positive sign. -/
theorem number_negative {m : ℕ} (e : ℤ) (hm : 0 < m) :
    number (.finite .negative m e hm) = -number (.finite .positive m e hm) :=
  number_neg (.finite .positive m e hm)

/-- A number with a negative sign is negative. -/
theorem number_negative_neg {m : ℕ} (e : ℤ) (hm : 0 < m) : number (.finite .negative m e hm) < 0 := by
  rw [number_negative, neg_lt_zero]
  exact number_positive_pos e hm

/-- Finite numbers in canonical form are compared as the numbers they stand for. -/
theorem compare_eq_cmp_number {f g : UnpackedFloat} (hf : Canonical f) (hg : Canonical g) (hf' : f.isFinite = true)
    (hg' : g.isFinite = true) : f.compare g = some (cmp (number f) (number g)) := by
  obtain ⟨s, rfl⟩ | ⟨s, m, e, hm, rfl⟩ := finite_cases hf'
  · obtain ⟨t, rfl⟩ | ⟨t, m', e', hm', rfl⟩ := finite_cases hg'
    · exact congrArg some ((cmp_eq_eq_iff _ _).2 rfl).symm
    · cases t
      · exact congrArg some ((cmp_eq_gt_iff _ _).2 (number_negative_neg e' hm')).symm
      · exact congrArg some ((cmp_eq_lt_iff _ _).2 (number_positive_pos e' hm')).symm
  · obtain ⟨t, rfl⟩ | ⟨t, m', e', hm', rfl⟩ := finite_cases hg'
    · cases s
      · exact congrArg some ((cmp_eq_lt_iff _ _).2 (number_negative_neg e hm)).symm
      · exact congrArg some ((cmp_eq_gt_iff _ _).2 (number_positive_pos e hm)).symm
    · cases s <;> cases t
      · rw [number_negative, number_negative]
        change some ((compare e e').then (compare m m')).swap = some (cmp _ _)
        rw [compare_then_compare hf hg, cmp_swap]
        exact congrArg some ((StrictAnti.cmp_map_eq (f := fun q : ℚ => -q) (fun _ _ h => neg_lt_neg h) _ _)).symm
      · exact congrArg some ((cmp_eq_lt_iff _ _).2 ((number_negative_neg e hm).trans (number_positive_pos e' hm'))).symm
      · exact congrArg some ((cmp_eq_gt_iff _ _).2 ((number_negative_neg e' hm').trans (number_positive_pos e hm))).symm
      · exact congrArg some (compare_then_compare hf hg)

/-- The rank of a finite number is the number. -/
theorem rank_of_isFinite {f : UnpackedFloat} (hf : f.isFinite = true) :
    rank f = ((number f : WithTop ℚ) : WithBot (WithTop ℚ)) := by
  obtain ⟨s, rfl⟩ | ⟨s, m, e, hm, rfl⟩ := finite_cases hf <;> rfl

/-- Numbers in canonical form are compared as their ranks. -/
theorem compare_eq_cmp_rank {f g : UnpackedFloat} (hf : Canonical f) (hg : Canonical g) (hf' : f.isNaN = false)
    (hg' : g.isNaN = false) : f.compare g = some (cmp (rank f) (rank g)) := by
  have hlow : ∀ q : ℚ, (⊥ : WithBot (WithTop ℚ)) < (q : WithTop ℚ) := fun q => WithBot.bot_lt_coe _
  have hhigh : ∀ q : ℚ, ((q : WithTop ℚ) : WithBot (WithTop ℚ)) < ((⊤ : WithTop ℚ) : WithBot (WithTop ℚ)) := fun q =>
    WithBot.coe_lt_coe.2 (WithTop.coe_lt_top q)
  have hfar : (⊥ : WithBot (WithTop ℚ)) < (⊤ : WithTop ℚ) := WithBot.bot_lt_coe _
  have hcases : ∀ {u : UnpackedFloat}, u.isNaN = false → (∃ s, u = .infinity s) ∨ u.isFinite = true := by
    intro u hu
    cases u with
    | notANumber => exact absurd hu.symm Bool.false_ne_true
    | infinity s => exact Or.inl ⟨s, rfl⟩
    | zero s => exact Or.inr rfl
    | finite s m e hm => exact Or.inr rfl
  obtain ⟨s, rfl⟩ | hf'' := hcases hf' <;> obtain ⟨t, rfl⟩ | hg'' := hcases hg'
  · cases s <;> cases t
    · exact congrArg some ((cmp_eq_eq_iff _ _).2 rfl).symm
    · exact congrArg some ((cmp_eq_lt_iff _ _).2 hfar).symm
    · exact congrArg some ((cmp_eq_gt_iff _ _).2 hfar).symm
    · exact congrArg some ((cmp_eq_eq_iff _ _).2 rfl).symm
  · rw [rank_of_isFinite hg'']
    cases s
    · rw [rank, (cmp_eq_lt_iff _ _).2 (hlow _)]
      cases g <;> first | rfl | exact absurd hg'' Bool.false_ne_true
    · rw [rank, (cmp_eq_gt_iff _ _).2 (hhigh _)]
      cases g <;> first | rfl | exact absurd hg'' Bool.false_ne_true
  · rw [rank_of_isFinite hf'']
    cases t
    · rw [rank, (cmp_eq_gt_iff _ _).2 (hlow _)]
      cases f with
      | finite s m e hm => cases s <;> rfl
      | zero s => rfl
      | _ => exact absurd hf'' Bool.false_ne_true
    · rw [rank, (cmp_eq_lt_iff _ _).2 (hhigh _)]
      cases f with
      | finite s m e hm => cases s <;> rfl
      | zero s => rfl
      | _ => exact absurd hf'' Bool.false_ne_true
  · rw [rank_of_isFinite hf'', rank_of_isFinite hg'', compare_eq_cmp_number hf hg hf'' hg'']
    exact congrArg some (StrictMono.cmp_map_eq
      (f := fun q : ℚ => ((q : WithTop ℚ) : WithBot (WithTop ℚ)))
      (fun _ _ h => WithBot.coe_lt_coe.2 (WithTop.coe_lt_coe.2 h)) _ _).symm

/-- What is no number is comparable with nothing. -/
theorem compare_eq_none_iff {f g : UnpackedFloat} (hf : Canonical f) (hg : Canonical g) :
    f.compare g = none ↔ f.isNaN = true ∨ g.isNaN = true := by
  by_cases h : f.isNaN = true ∨ g.isNaN = true
  · refine iff_of_true ?_ h
    rcases h with h | h
    · cases f <;> first | rfl | exact absurd h Bool.false_ne_true
    · cases g <;> first | (cases f <;> rfl) | exact absurd h Bool.false_ne_true
  · refine iff_of_false ?_ h
    rw [not_or, Bool.not_eq_true, Bool.not_eq_true] at h
    rw [compare_eq_cmp_rank hf hg h.1 h.2]
    exact Option.some_ne_none _

/-- One number is at most another if both are numbers and their ranks are so ordered. -/
theorem le_iff_rank {f g : UnpackedFloat} (hf : Canonical f) (hg : Canonical g) :
    f.le g = true ↔ f.isNaN = false ∧ g.isNaN = false ∧ rank f ≤ rank g := by
  by_cases h : f.isNaN = true ∨ g.isNaN = true
  · rw [UnpackedFloat.le, (compare_eq_none_iff hf hg).2 h]
    rcases h with h | h <;> simp [h]
  · rw [not_or, Bool.not_eq_true, Bool.not_eq_true] at h
    rw [UnpackedFloat.le, compare_eq_cmp_rank hf hg h.1 h.2, Option.any_some]
    rcases lt_trichotomy (rank f) (rank g) with hlt | heq | hgt
    · rw [(cmp_eq_lt_iff _ _).2 hlt]
      exact iff_of_true rfl ⟨h.1, h.2, hlt.le⟩
    · rw [(cmp_eq_eq_iff _ _).2 heq]
      exact iff_of_true rfl ⟨h.1, h.2, heq.le⟩
    · rw [(cmp_eq_gt_iff _ _).2 hgt]
      exact iff_of_false Bool.false_ne_true fun hle => not_le.2 hgt hle.2.2

/-- One number is less than another if both are numbers and their ranks are so ordered. -/
theorem lt_iff_rank {f g : UnpackedFloat} (hf : Canonical f) (hg : Canonical g) :
    f.lt g = true ↔ f.isNaN = false ∧ g.isNaN = false ∧ rank f < rank g := by
  by_cases h : f.isNaN = true ∨ g.isNaN = true
  · rw [UnpackedFloat.lt, (compare_eq_none_iff hf hg).2 h]
    rcases h with h | h <;> simp [h]
  · rw [not_or, Bool.not_eq_true, Bool.not_eq_true] at h
    rw [UnpackedFloat.lt, compare_eq_cmp_rank hf hg h.1 h.2, beq_iff_eq, Option.some_inj, cmp_eq_lt_iff]
    exact ⟨fun hlt => ⟨h.1, h.2, hlt⟩, fun hlt => hlt.2.2⟩

end PerfectMatching.Binary64
