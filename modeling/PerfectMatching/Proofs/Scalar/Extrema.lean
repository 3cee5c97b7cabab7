import PerfectMatching.Proofs.Scalar.Lawful

/-!
# Least and greatest weights

The least of several weights passes over undefined ones. Main statements: it is at most each defined weight
(`least_le`), and it is infinity or one of the weights (`least_eq_or_mem`); likewise for the least and the greatest of a list
that is not empty.
-/

namespace PerfectMatching.LawfulScalar

/-! ## Choosing one of several -/

section Choice

variable {β : Type} {choose : β → β → β}

/-- Choosing one of two weights again and again yields the first one or one of the others. -/
theorem foldl_mem (h : ∀ x y, choose x y = x ∨ choose x y = y) (xs : List β) (x : β) : xs.foldl choose x ∈ x :: xs := by
  induction xs generalizing x with
  | nil => exact List.mem_cons_self
  | cons y ys ih =>
    rcases List.mem_cons.1 (ih (choose x y)) with h' | h'
    · rw [List.foldl_cons, h']
      rcases h x y with h'' | h'' <;> simp [h'']
    · exact List.mem_cons_of_mem _ (List.mem_cons_of_mem _ h')

/-- If the chosen one of two is related to either, the one chosen in the end is related to all. -/
theorem foldl_rel {R : β → β → Prop} (trans : ∀ {x y z}, R x y → R y z → R x z) (self : ∀ {x y}, R x y → R x x)
    (left : ∀ {x} y, R x x → R (choose x y) x) (right : ∀ x {y}, R y y → R (choose x y) y) {xs : List β} {x y : β}
    (hy : R y y) (h : y ∈ x :: xs) : R (xs.foldl choose x) y := by
  induction xs generalizing x y with
  | nil =>
    obtain rfl := List.mem_singleton.1 h
    exact hy
  | cons z zs ih =>
    rw [List.foldl_cons]
    have hvia : R (choose x z) y → R (zs.foldl choose (choose x z)) y := fun h' => trans (ih (self h') List.mem_cons_self) h'
    rcases List.mem_cons.1 h with rfl | h
    · exact hvia (left z hy)
    · rcases List.mem_cons.1 h with rfl | h
      · exact hvia (right x hy)
      · exact ih hy (List.mem_cons_of_mem _ h)

end Choice

variable {α : Type} [Scalar α]

/-- The lesser of two weights is one of them. -/
theorem min_eq_or (x y : α) : Scalar.min x y = x ∨ Scalar.min x y = y := by
  unfold Scalar.min
  split
  · exact Or.inr rfl
  · exact Or.inl rfl

/-- The greater of two weights is one of them. -/
theorem max_eq_or (x y : α) : Scalar.max x y = x ∨ Scalar.max x y = y := by
  unfold Scalar.max
  split
  · exact Or.inr rfl
  · exact Or.inl rfl

/-- The least of some weights is infinity or one of them. -/
theorem least_eq_or_mem (xs : List α) : Scalar.least xs = Scalar.infinity ∨ Scalar.least xs ∈ xs :=
  List.mem_cons.1 (foldl_mem min_eq_or xs Scalar.infinity)

variable [LawfulScalar α]

/-! ## Two weights -/

/-- The lesser of two weights is at most the first, if that is defined. -/
theorem min_le_left {x : α} (hx : Scalar.le x x = true) (y : α) : Scalar.le (Scalar.min x y) x = true := by
  unfold Scalar.min
  split
  · rename_i h
    rw [hx, Bool.not_true, Bool.or_false] at h
    exact le_of_lt h
  · exact hx

/-- The lesser of two weights is at most the second, if that is defined. -/
theorem min_le_right (x : α) {y : α} (hy : Scalar.le y y = true) : Scalar.le (Scalar.min x y) y = true := by
  unfold Scalar.min
  split
  · exact hy
  · rename_i h
    rw [Bool.or_eq_true, not_or, Bool.not_eq_true', Bool.not_eq_false] at h
    exact le_of_not_lt hy h.2 h.1

/-- The greater of two weights is at least the first, if that is defined. -/
theorem le_max_left {x : α} (hx : Scalar.le x x = true) (y : α) : Scalar.le x (Scalar.max x y) = true := by
  unfold Scalar.max
  split
  · rename_i h
    rw [hx, Bool.not_true, Bool.or_false] at h
    exact le_of_lt h
  · exact hx

/-- The greater of two weights is at least the second, if that is defined. -/
theorem le_max_right (x : α) {y : α} (hy : Scalar.le y y = true) : Scalar.le y (Scalar.max x y) = true := by
  unfold Scalar.max
  split
  · exact hy
  · rename_i h
    rw [Bool.or_eq_true, not_or, Bool.not_eq_true', Bool.not_eq_false] at h
    exact le_of_not_lt h.2 hy h.1

/-! ## Several weights -/

/-- The least of some weights is at most each one that is defined. -/
theorem foldl_min_le {xs : List α} {x y : α} (hy : Scalar.le y y = true) (h : y ∈ x :: xs) :
    Scalar.le (xs.foldl Scalar.min x) y = true :=
  foldl_rel (R := fun x y => Scalar.le x y = true) le_trans (fun h => (le_self h).1) (fun y hx => min_le_left hx y)
    min_le_right hy h

/-- The greatest of some weights is at least each one that is defined. -/
theorem le_foldl_max {xs : List α} {x y : α} (hy : Scalar.le y y = true) (h : y ∈ x :: xs) :
    Scalar.le y (xs.foldl Scalar.max x) = true :=
  foldl_rel (R := fun x y => Scalar.le y x = true) (fun h h' => le_trans h' h) (fun h => (le_self h).2)
    (fun y hx => le_max_left hx y) le_max_right hy h

/-- The least of some weights is defined, and at most each one that is. -/
theorem least_le {xs : List α} {y : α} (hy : Scalar.le y y = true) (h : y ∈ xs) : Scalar.le (Scalar.least xs) y = true :=
  foldl_min_le hy (List.mem_cons_of_mem _ h)

/-- The least of some weights is defined. -/
theorem le_self_least (xs : List α) : Scalar.le (Scalar.least xs) (Scalar.least xs) = true :=
  (le_self (foldl_min_le infinity_le List.mem_cons_self)).1

end PerfectMatching.LawfulScalar
