import PerfectMatching.Scalar

/-!
# The direction of optimization

A smallest total is the opposite of a largest total of opposite weights, so a solver only ever looks for the largest and
turns weights around on the way in and on the way out (`Goal.signed`).
-/

namespace PerfectMatching

/-- Whether the largest or the smallest total is wanted. -/
inductive Goal where
  | max
  | min
  deriving DecidableEq, Repr

namespace Goal

/-- A weight as the goal sees it: as it is for the largest total, turned around for the smallest. -/
def signed {α : Type} [Scalar α] : Goal → α → α
  | .max, x => x
  | .min, x => -x

/-- The word for a goal. -/
def name : Goal → String
  | .max => "max"
  | .min => "min"

end Goal

end PerfectMatching
