import PerfectMatching.Weights

/-!
# Random weight matrices

A matrix of uniform weights from zero to one, each edge forbidden with a given probability. Two draws are taken from a source of
chance with a state: whether an event happens, and a weight. Nothing is known of either, and what is not finite is forbidden here
as everywhere.
-/

namespace PerfectMatching.Weights

variable {σ : Type}

/-- The draws that a source of chance answers. -/
structure Draws (σ : Type) where
  /-- Whether an event of this probability happens. -/
  event : Float → StateM σ Bool
  /-- A weight, uniform from zero to one. -/
  weight : StateM σ Float

/-- A probability brought into the interval from zero to one; an undefined one is zero. -/
def clampProbability (p : Float) : Float := if Scalar.positive p then Scalar.min p 1 else 0

/-- An entry: first whether the edge is forbidden, then its weight if it is not. -/
def Draws.entry (draws : Draws σ) (p : Float) : StateM σ (Option Float) := do
  if ← draws.event p then pure none else some <$> draws.weight

/-- A matrix drawn row by row. -/
def sample (draws : Draws σ) (n : Nat) (forbid : Float) : StateM σ (Weights Float) :=
  ofFnM n fun _ _ => draws.entry (clampProbability forbid)

end PerfectMatching.Weights
