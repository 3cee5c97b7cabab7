import PerfectMatching.Event
import PerfectMatching.PrimalDual.State

/-!
# Augmenting the matching

A column that is reached and not matched ends an augmenting path: back from it, each row takes the column below it and
releases the one it had, which the row above takes, up to a root. Only the first column may come unmatched, and every
other one must be matched to the row that has just released it; anything else contradicts the bookkeeping and is reported.
-/

namespace PerfectMatching.PrimalDual

/-- What walking back an augmenting path leads to. -/
structure Trail (α : Type) (n : Nat) where
  state : State α n
  fault : Option Inconsistency
  events : List (Event α)

namespace State

variable {α : Type} {n : Nat}

/-- Matches a row and a column to each other. -/
def pair (s : State α n) (i j : Fin n) : State α n :=
  { s with rowMate := s.rowMate.set i (some j) i.isLt, colMate := s.colMate.set j (some i) j.isLt }

/-- A row that has been paired is matched to its column. -/
theorem rowMate_pair (s : State α n) (i j : Fin n) : (s.pair i j).rowMate.get i = some j := Vector.getElem_set_self _

/-- A column that has been paired is matched to its row. -/
theorem colMate_pair (s : State α n) (i j : Fin n) : (s.pair i j).colMate.get j = some i := Vector.getElem_set_self _

/-- Walks back from a column, through at most so many rows. `released` is the row that has just released the column. -/
def flipFrom : Nat → Option (Fin n) → Fin n → State α n → Trail α n
  | 0, _, _, s => ⟨s, some .pathWithoutRoot, []⟩
  | rows + 1, released, j, s =>
    if s.colMate.get j ≠ released then
      ⟨s, some (if released.isNone then .pathEndsMatched else .claimedTwice), []⟩
    else
      match s.colLabel.get j with
      | none => ⟨s, some .columnUnreached, []⟩
      | some i =>
        let s := s.pair i j
        match s.rowLabel.get i with
        | .root => ⟨s, none, [.flipped i j]⟩
        | .unreached => ⟨s, some .rowUnreached, [.flipped i j]⟩
        | .via above =>
          let trail := flipFrom rows (some i) above s
          { trail with events := .flipped i j :: trail.events }

/-- Exchanges the matched and the unmatched edges on the augmenting path that ends in column `j`. -/
def flip (s : State α n) (j : Fin n) : Trail α n := flipFrom (n + 1) none j s

end State

end PerfectMatching.PrimalDual
