import PerfectMatching.PrimalDual

/-!
# Certificates

The dual variables of a search prove its result best: no matching weighs more than their sum if they are not negative and
no edge outweighs the two at its ends. A certificate checks this, and that the weight of the result reaches the bound,
each up to a billionth of the largest weight involved.
-/

namespace PerfectMatching.PrimalDual

variable {α : Type} [Scalar α] {n : Nat}

/-- The largest magnitude of a shifted weight, at least one. -/
def scale (m : PrimalDual α n) : α :=
  ((m.work.toList.flatMap Vector.toList).filterMap id).foldl (fun x w => Scalar.max x (Scalar.abs w)) Scalar.one

/-- A billionth of the largest weight. -/
def tolerance (m : PrimalDual α n) : α := (1e-9 : α) * m.scale

/-- The shifted weight of an edge; none if it is forbidden or not in the graph. -/
def workAt (m : PrimalDual α n) (i j : Nat) : Option α := (m.work[i]?.bind (·[j]?)).join

/-- No edge outweighs the dual variables at its ends by more than the tolerance. -/
def isFeasible (m : PrimalDual α n) (tolerance : α) : Bool :=
  (List.finRange n).all fun i => (List.finRange n).all fun j =>
    ((m.work.get i).get j).all fun w => !Scalar.lt (m.state.rowDual.get i + m.state.colDual.get j) (w - tolerance)

/-- The shifted weight of the result. -/
def primalObjective (m : PrimalDual α n) : α :=
  Scalar.sum (m.result.source.zipIdx.filterMap fun (j, i) => m.workAt i j)

/-- Checks that the result is a perfect matching and that the dual variables prove it best. -/
def certify (m : PrimalDual α n) : Except Inconsistency Unit :=
  let tolerance := m.tolerance
  let bound := Scalar.sum m.duals
  if m.result.source.length ≠ n ∨ Assignment.areInverse m.result.source m.result.dest = false then .error .notPermutation
  else if m.duals.any fun x => Scalar.lt x (-tolerance) then .error .negativeDual
  else if !m.isFeasible tolerance then .error .dualInfeasible
  else if Scalar.lt (tolerance * Scalar.max (Scalar.abs bound) Scalar.one) (Scalar.abs (m.primalObjective - bound)) then
    .error .objectivesDiffer
  else .ok ()

end PerfectMatching.PrimalDual
