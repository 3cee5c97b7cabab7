/-!
# The numbers that weights are made of

Weights, dual variables and slacks are added, subtracted, multiplied and compared, and a slack that nothing bounds yet is
infinite. `Scalar` names these operations, so that one and the same solver runs on binary64 numbers (the instance below)
and, for the theory, on exact ones (`PerfectMatching.Exact`). No law is part of the class: what a statement needs of the
arithmetic it says itself.
-/

namespace PerfectMatching

/-- The operations a solver uses on weights. -/
class Scalar (α : Type) extends Add α, Sub α, Mul α, Neg α, OfScientific α where
  /-- A count as a weight. -/
  ofNat : Nat → α
  /-- Above every finite weight: the slack of a node that no edge has reached. -/
  infinity : α
  /-- The first weight is less than the second. -/
  lt : α → α → Bool
  /-- The first weight is at most the second. -/
  le : α → α → Bool
  /-- The weight is a number, neither infinite nor undefined. -/
  isFinite : α → Bool

namespace Scalar

variable {α : Type} [Scalar α]

/-- No weight. -/
def zero : α := ofNat 0

/-- The unit weight. -/
def one : α := ofNat 1

/-- Greater than zero. -/
def positive (x : α) : Bool := lt zero x

/-- The lesser of two weights; an undefined one gives way to the other. -/
def min (x y : α) : α := if lt y x || !le x x then y else x

/-- The greater of two weights; an undefined one gives way to the other. -/
def max (x y : α) : α := if lt x y || !le x x then y else x

/-- The magnitude of a weight. -/
def abs (x : α) : α := if lt x zero then -x else x

/-- The sum from left to right, starting from minus zero, which is neutral for the addition of binary64 numbers. -/
def sum (xs : List α) : α := xs.foldl (· + ·) (-zero)

/-- The least of the weights, infinity if there are none. -/
def least (xs : List α) : α := xs.foldl min infinity

end Scalar

instance : Scalar Float where
  ofNat := Float.ofNat
  infinity := Float.ofBits 0x7ff0000000000000
  lt := Float.lt
  le := Float.le
  isFinite := Float.isFinite

end PerfectMatching
