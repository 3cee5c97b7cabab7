import PerfectMatching.Proofs.Scalar.Sums
import PerfectMatching.Scalar.Exact

/-!
# Exact weights are lawful

The laws that a search relies on hold of exact weights, with nothing rounded and every sum in range. What is computed from finite ones is
computed from their values, and a finite result comes from finite ones only.
-/

namespace PerfectMatching.Exact

/-- The number that an exact weight stands for; zero if it is infinite. -/
def value : Exact → ℚ
  | .finite q => q
  | .infinite => 0

/-- Exact weights are finite or infinite. -/
theorem eq_finite_of_isFinite {x : Exact} (h : Scalar.isFinite x = true) : x = .finite (value x) := by
  cases x with
  | finite q => rfl
  | infinite => exact Bool.noConfusion h

/-- The place of an exact weight in the order. -/
def rank : Exact → WithTop ℚ
  | .finite q => q
  | .infinite => ⊤

/-- The rank of a finite weight is its value. -/
theorem rank_of_isFinite {x : Exact} (h : Scalar.isFinite x = true) : rank x = value x := by
  rw [eq_finite_of_isFinite h]
  rfl

/-- Exact weights are strictly ordered as their ranks. -/
theorem lt_iff_rank {x y : Exact} : Scalar.lt x y = true ↔ rank x < rank y := by
  cases x with
  | finite p =>
    cases y with
    | finite q => exact (lt_finite_iff p q).trans WithTop.coe_lt_coe.symm
    | infinite => exact iff_of_true rfl (WithTop.coe_lt_top p)
  | infinite => exact iff_of_false Bool.noConfusion not_top_lt

/-- Exact weights are ordered as their ranks. -/
theorem le_iff_rank {x y : Exact} : Scalar.le x y = true ↔ rank x ≤ rank y := by
  change (!Scalar.lt y x) = true ↔ _
  rw [Bool.not_eq_true', ← Bool.not_eq_true, lt_iff_rank, not_lt]

/-- A count as an exact weight. -/
theorem ofNat_eq (k : ℕ) : (Scalar.ofNat k : Exact) = .finite k := by
  change Exact.finite (mkRat k 1) = _
  rw [Rat.mkRat_one]
  rfl

/-- The sum of finite weights is the sum of their values. -/
theorem sum_finite (values : List ℚ) : Scalar.sum (values.map finite) = finite values.sum := by
  have hfold : ∀ (l : List ℚ) (q : ℚ), (l.map finite).foldl (· + ·) (finite q) = finite (q + l.sum) := by
    intro l
    induction l with
    | nil => intro q; simp
    | cons p l ih =>
      intro q
      rw [List.map_cons, List.foldl_cons, finite_add_finite, ih, List.sum_cons, add_assoc]
  rw [Scalar.sum, Scalar.zero, ofNat_eq, neg_finite, hfold]
  simp

instance : LawfulScalar Exact where
  value := value
  rounded := id
  Fits _ := True
  unit := 0
  lt_iff := by
    intro x y
    rw [lt_iff_rank, le_iff_rank, ← Bool.not_eq_true, le_iff_rank, not_le]
    exact (and_iff_right_of_imp fun h => h.le).symm
  le_trans hxy hyz := le_iff_rank.2 ((le_iff_rank.1 hxy).trans (le_iff_rank.1 hyz))
  le_total _ _ := (le_total _ _).imp le_iff_rank.2 le_iff_rank.2
  le_self _ := ⟨le_iff_rank.2 le_rfl, le_iff_rank.2 le_rfl⟩
  le_infinity _ := le_iff_rank.2 le_top
  infinity_le := rfl
  lt_infinity hx := by
    rw [lt_iff_rank, rank_of_isFinite hx]
    exact WithTop.coe_lt_top _
  isFinite_of_lt {_ y} _ _ hy := by
    cases y with
    | finite q => rfl
    | infinite => exact Bool.noConfusion hy
  le_iff hx hy := by
    rw [le_iff_rank, rank_of_isFinite hx, rank_of_isFinite hy, WithTop.coe_le_coe]
  isFinite_ofNat _ := rfl
  value_ofNat {k} _ := by
    rw [ofNat_eq]
    rfl
  isFinite_neg x := by
    cases x <;> rfl
  value_neg {x} hx := by
    cases x with
    | finite q => rfl
    | infinite => exact Bool.noConfusion hx
  neg_le_neg_self x := by
    rw [le_iff_rank.2 le_rfl, le_iff_rank.2 le_rfl]
  sub_eq x y := by
    cases x with
    | finite p =>
      cases y with
      | finite q => exact congrArg Exact.finite (sub_eq_add_neg p q)
      | infinite => rfl
    | infinite => cases y <;> rfl
  isFinite_of_add {x y} h := by
    cases x <;> cases y <;> first | exact ⟨rfl, rfl⟩ | exact Bool.noConfusion h
  le_self_of_add _ := ⟨le_iff_rank.2 le_rfl, le_iff_rank.2 le_rfl⟩
  isFinite_add {x y} hx hy := by
    rw [eq_finite_of_isFinite hx, eq_finite_of_isFinite hy]
    exact iff_of_true rfl trivial
  value_add {x y} h := by
    cases x <;> cases y <;> first | rfl | exact Bool.noConfusion h
  positive_add {x y} hx hy := by
    rw [eq_finite_of_isFinite hx, eq_finite_of_isFinite hy, finite_add_finite, Scalar.positive, Scalar.zero, ofNat_eq]
    exact lt_finite_iff _ _
  isFinite_of_positive_add {x _} _ _ hx := by
    cases x with
    | finite q => rfl
    | infinite => exact Bool.noConfusion hx
  rounded_add_sub_le _ _ := by simp
  rounded_mono h := h
  rounded_value _ := rfl
  fits_value _ := trivial
  fits_of_abs_le _ _ := trivial
  unit_nonneg := le_rfl

/-- Every exact weight is at most itself. -/
theorem le_refl (x : Exact) : Scalar.le x x = true := le_iff_rank.2 le_rfl

/-- Exact weights that are at most each other are the same. -/
theorem eq_of_le_of_le {x y : Exact} (h : Scalar.le x y = true) (h' : Scalar.le y x = true) : x = y := by
  have hrank : rank x = rank y := (le_iff_rank.1 h).antisymm (le_iff_rank.1 h')
  cases x <;> cases y <;> simp_all [rank]

/-- What is at most each of some weights and is one of them, or infinite, is the least of them. -/
theorem least_eq {xs : List Exact} {x : Exact} (hle : ∀ y ∈ xs, Scalar.le x y = true) (hx : x = Scalar.infinity ∨ x ∈ xs) :
    Scalar.least xs = x := by
  refine eq_of_le_of_le ?_ ?_
  · rcases hx with rfl | hx
    · exact LawfulScalar.le_infinity (le_refl _)
    · exact LawfulScalar.least_le (le_refl x) hx
  · rcases LawfulScalar.least_eq_or_mem xs with heq | hmem
    · rw [heq]
      exact LawfulScalar.le_infinity (le_refl x)
    · exact hle _ hmem

/-- The sum of finite weights has the sum of their values. -/
theorem value_add {x y : Exact} (hx : Scalar.isFinite x = true) (hy : Scalar.isFinite y = true) :
    Scalar.isFinite (x + y) = true ∧ LawfulScalar.value (x + y) = LawfulScalar.value x + LawfulScalar.value y := by
  rw [eq_finite_of_isFinite hx, eq_finite_of_isFinite hy]
  exact ⟨rfl, rfl⟩

/-- Finite weights of the same value are the same. -/
theorem eq_of_value_eq {x y : Exact} (hx : Scalar.isFinite x = true) (hy : Scalar.isFinite y = true)
    (h : LawfulScalar.value x = LawfulScalar.value y) : x = y :=
  (eq_finite_of_isFinite hx).trans ((congrArg finite h).trans (eq_finite_of_isFinite hy).symm)

/-- The factors of a finite product are finite. -/
theorem isFinite_of_mul {x y : Exact} (h : Scalar.isFinite (x * y) = true) : Scalar.isFinite x = true ∧ Scalar.isFinite y = true := by
  cases x with
  | finite p =>
    cases y with
    | finite q => exact ⟨rfl, rfl⟩
    | infinite => exact Bool.noConfusion h
  | infinite => exact Bool.noConfusion h

/-- What is not above a finite number is finite. -/
theorem isFinite_of_le {x y : Exact} (h : Scalar.le x y = true) (hy : Scalar.isFinite y = true) : Scalar.isFinite x = true := by
  cases x with
  | finite p => rfl
  | infinite =>
    cases y with
    | finite q => exact Bool.noConfusion h
    | infinite => exact hy

/-- Only the infinite element has an infinite magnitude. -/
theorem isFinite_of_abs {x : Exact} (h : Scalar.isFinite (Scalar.abs x) = true) : Scalar.isFinite x = true := by
  cases x with
  | finite p => rfl
  | infinite => exact h

/-- The magnitude of a number. -/
theorem abs_finite (p : ℚ) : Scalar.abs (finite p) = finite |p| := by
  obtain ⟨hfin, hval⟩ := LawfulScalar.abs_spec (x := finite p) rfl
  exact eq_of_value_eq hfin rfl hval

/-- The greater of a number and one. -/
theorem max_one (p : ℚ) : Scalar.max (finite p) Scalar.one = finite (max p 1) := by
  obtain ⟨hfin, hval⟩ := LawfulScalar.max_spec (x := finite p) rfl LawfulScalar.isFinite_one
  exact eq_of_value_eq hfin rfl (hval.trans (congrArg (max p) LawfulScalar.value_one))

/-- Only the infinite element makes the greater of a magnitude and one infinite. -/
theorem isFinite_of_max_abs {x : Exact} (h : Scalar.isFinite (Scalar.max (Scalar.abs x) Scalar.one) = true) :
    Scalar.isFinite x = true := by
  cases x with
  | finite p => rfl
  | infinite => exact h

/-- Finite numbers that are not strictly ordered are ordered the other way. -/
theorem lt_finite_eq_false_iff {p q : ℚ} : Scalar.lt (finite p) (finite q) = false ↔ q ≤ p := by
  rw [← Bool.not_eq_true, lt_finite_iff, not_lt]

end PerfectMatching.Exact
