import PerfectMatching.Proofs.Scalar.Extrema

/-!
# Functions that keep the order

The least and the greatest of several numbers, and whether a number is positive, depend on their order only. So a function that keeps
the order of the numbers that satisfy some property (`Faithful`) takes the least number to the least image (`Faithful.map_least`).
-/

namespace PerfectMatching

variable {α β : Type} [Scalar α] [Scalar β]

/-- The function keeps zero, infinity and the order of the numbers that satisfy the property, all of which are defined. -/
structure Faithful (f : α → β) (P : α → Prop) : Prop where
  lt_eq : ∀ {x y : α}, P x → P y → Scalar.lt (f x) (f y) = Scalar.lt x y
  le_self : ∀ {x : α}, P x → Scalar.le x x = true ∧ Scalar.le (f x) (f x) = true
  zero : P Scalar.zero
  map_zero : f Scalar.zero = Scalar.zero
  infinity : P Scalar.infinity
  map_infinity : f Scalar.infinity = Scalar.infinity

namespace Faithful

variable {f : α → β} {P : α → Prop} (h : Faithful f P)

include h

/-- The image of a number is positive if the number is. -/
theorem positive_eq {x : α} (hx : P x) : Scalar.positive (f x) = Scalar.positive x := by
  rw [Scalar.positive, ← h.map_zero, h.lt_eq h.zero hx, Scalar.positive]

/-- The image of the lesser number is the lesser image. -/
theorem map_min {x y : α} (hx : P x) (hy : P y) : f (Scalar.min x y) = Scalar.min (f x) (f y) := by
  rw [Scalar.min, Scalar.min, h.lt_eq hy hx, (h.le_self hx).1, (h.le_self hx).2]
  split <;> rfl

/-- The image of the greater number is the greater image. -/
theorem map_max {x y : α} (hx : P x) (hy : P y) : f (Scalar.max x y) = Scalar.max (f x) (f y) := by
  rw [Scalar.max, Scalar.max, h.lt_eq hx hy, (h.le_self hx).1, (h.le_self hx).2]
  split <;> rfl

omit h [Scalar α] [Scalar β] in
/-- An image of what is chosen step by step from a list. -/
theorem map_foldl {choose : α → α → α} {choose' : β → β → β} (hor : ∀ x y, choose x y = x ∨ choose x y = y)
    (hmap : ∀ {x y}, P x → P y → f (choose x y) = choose' (f x) (f y)) {xs : List α} {x : α} (hx : P x)
    (hxs : ∀ y ∈ xs, P y) : f (xs.foldl choose x) = (xs.map f).foldl choose' (f x) := by
  induction xs generalizing x with
  | nil => rfl
  | cons y ys ih =>
    have hy := hxs y List.mem_cons_self
    have hnext : P (choose x y) := by rcases hor x y with heq | heq <;> rw [heq] <;> assumption
    rw [List.foldl_cons, List.map_cons, List.foldl_cons, ← hmap hx hy]
    exact ih hnext fun z hz => hxs z (List.mem_cons_of_mem y hz)

/-- The image of the least number is the least image. -/
theorem map_least {xs : List α} (hxs : ∀ x ∈ xs, P x) :
    f (Scalar.least xs) = Scalar.least (xs.map f) ∧ P (Scalar.least xs) := by
  constructor
  · rw [Scalar.least, Scalar.least, ← h.map_infinity]
    exact map_foldl LawfulScalar.min_eq_or h.map_min h.infinity hxs
  · rcases LawfulScalar.least_eq_or_mem xs with heq | hmem
    · rw [heq]
      exact h.infinity
    · exact hxs _ hmem

end Faithful

end PerfectMatching
