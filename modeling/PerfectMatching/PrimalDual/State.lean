import PerfectMatching.Scalar

/-!
# The state of a search by dual variables

A search works on a table of positive weights. Each row and each column has a dual variable, and for an allowed edge the
sum of the two at its ends is at least its weight; the edge is tight if the two are equal. The matching uses tight edges
only. Trees of tight edges grow from the rows that are not matched: a row is reached as a root or through the column it is
matched to, a column through the row whose edge lowered its slack last. The slack of a column is the least of what its
edges from rows reached so far lack from being tight, and infinite as long as there is no such edge.
-/

namespace PerfectMatching.PrimalDual

/-- The weights a search works on. -/
abbrev Table (α : Type) (n : Nat) := Vector (Vector (Option α) n) n

/-- How a row has been reached. -/
inductive Label (n : Nat) where
  /-- Not yet in this phase. -/
  | unreached
  /-- As a root: the row is not matched. -/
  | root
  /-- Through the column it is matched to. -/
  | via (col : Fin n)
  deriving DecidableEq

/-- The row has been reached. -/
def Label.isReached {n : Nat} : Label n → Bool
  | .unreached => false
  | .root | .via _ => true

/-- What a search knows. -/
structure State (α : Type) (n : Nat) where
  /-- The column each row is matched to. -/
  rowMate : Vector (Option (Fin n)) n
  /-- The row each column is matched to. -/
  colMate : Vector (Option (Fin n)) n
  /-- How each row has been reached. -/
  rowLabel : Vector (Label n) n
  /-- The row whose edge lowered the slack of each column last. -/
  colLabel : Vector (Option (Fin n)) n
  /-- The dual variables of the rows. -/
  rowDual : Vector α n
  /-- The dual variables of the columns. -/
  colDual : Vector α n
  /-- The slack of each column. -/
  slack : Vector α n
  /-- The rows reached whose edges are still to be scanned, the next one first. -/
  rowStack : List (Fin n)
  /-- The columns reached along tight edges that are still to be visited, the next one first. -/
  colStack : List (Fin n)

namespace State

variable {α : Type} [Scalar α] {n : Nat}

/-- Before any search: nothing is matched, reached or bounded. -/
def blank : State α n where
  rowMate := Vector.replicate n none
  colMate := Vector.replicate n none
  rowLabel := Vector.replicate n .unreached
  colLabel := Vector.replicate n none
  rowDual := Vector.replicate n Scalar.zero
  colDual := Vector.replicate n Scalar.zero
  slack := Vector.replicate n Scalar.infinity
  rowStack := []
  colStack := []

/-- The greatest weight of a row, zero if all its edges are forbidden. -/
def greatest (row : Vector (Option α) n) : α := (row.toList.filterMap id).foldl Scalar.max Scalar.zero

/-- Begins a search on a table: all that the last search has left is overwritten. The dual variable of a row is its greatest
weight, that of a column is zero, no node is matched, no slack is bounded, and every row is a root. The last row is scanned
first. -/
def restart (work : Table α n) (s : State α n) : State α n :=
  { s with
    rowMate := Vector.replicate n none
    colMate := Vector.replicate n none
    rowLabel := Vector.replicate n .root
    colLabel := Vector.replicate n none
    rowDual := work.map greatest
    colDual := Vector.replicate n Scalar.zero
    slack := Vector.replicate n Scalar.infinity
    rowStack := (List.finRange n).reverse
    colStack := [] }

/-- The beginning of the first search. -/
def start (work : Table α n) : State α n := (blank : State α n).restart work

/-- Every search begins as the first one does. -/
theorem restart_eq_start (work : Table α n) (s : State α n) : s.restart work = start work := rfl

/-- Clears the trees and starts new ones from the rows that are not matched. -/
def reseed (s : State α n) : State α n :=
  { s with
    slack := Vector.replicate n Scalar.infinity
    rowLabel := s.rowMate.map fun mate => if mate.isNone then .root else .unreached
    colLabel := Vector.replicate n none
    rowStack := ((List.finRange n).filter fun i => (s.rowMate.get i).isNone).reverse }

/-- The number of matched rows. -/
def matched (s : State α n) : Nat := s.rowMate.countP Option.isSome

end State

end PerfectMatching.PrimalDual
