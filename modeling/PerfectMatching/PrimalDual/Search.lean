import PerfectMatching.PrimalDual.State

/-!
# Growing the trees

A search scans the edges of the rows reached and visits the columns they make tight, until it visits a column that is not
matched or nothing is left to do. Rows come before columns, and of either the one reached last comes first. Each step uses
up one of the things counted by `State.pending`: it takes a node off a stack, and a node is put on a stack only when it is
reached for the first time. So the count at the beginning is enough steps for the whole search.
-/

namespace PerfectMatching.PrimalDual.State

variable {α : Type} [Scalar α] {n : Nat}

/-- Offers a column the slack of an edge. It is taken if it is less and the column is not yet tight, and if it makes the
column tight, the column is to be visited. -/
def offer (s : State α n) (i j : Fin n) (x : α) : State α n :=
  if Scalar.positive (s.slack.get j) && Scalar.lt x (s.slack.get j) then
    { s with
      colLabel := s.colLabel.set j (some i) j.isLt
      slack := s.slack.set j x j.isLt
      colStack := if Scalar.positive x then s.colStack else j :: s.colStack }
  else s

/-- Scans the edge from row `i` to column `j`, unless it is forbidden or row `i` is matched to column `j`. -/
def scanEdge (work : Table α n) (i : Fin n) (s : State α n) (j : Fin n) : State α n :=
  if s.rowMate.get i = some j then s
  else
    match (work.get i).get j with
    | none => s
    | some w => s.offer i j (s.rowDual.get i + s.colDual.get j - w)

/-- Scans the edges of a row from the first column to the last. -/
def scan (work : Table α n) (i : Fin n) (s : State α n) : State α n := (List.finRange n).foldl (scanEdge work i) s

/-- Reaches the row that a column is matched to, unless it has been reached before. -/
def reach (s : State α n) (i j : Fin n) : State α n :=
  if (s.rowLabel.get i).isReached then s
  else { s with rowLabel := s.rowLabel.set i (.via j) i.isLt, rowStack := i :: s.rowStack }

/-- Grows the trees by at most so many steps. The column that is returned is reached along tight edges and not matched. -/
def searchFor (work : Table α n) : Nat → State α n → Option (Fin n) × State α n
  | 0, s => (none, s)
  | steps + 1, s =>
    match s.rowStack with
    | i :: rows => searchFor work steps (scan work i { s with rowStack := rows })
    | [] =>
      match s.colStack with
      | [] => (none, s)
      | j :: cols =>
        match s.colMate.get j with
        | none => (some j, { s with colStack := cols })
        | some i => searchFor work steps (reach { s with colStack := cols } i j)

/-- How many steps a search can still take: the nodes on the stacks, and those that have not been on one in this phase. -/
def pending (s : State α n) : Nat :=
  s.rowStack.length + s.colStack.length + s.rowLabel.countP (fun l => !l.isReached) + s.slack.countP Scalar.positive

/-- Grows the trees until a column is visited that is not matched, or nothing is left to do. -/
def search (work : Table α n) (s : State α n) : Option (Fin n) × State α n := searchFor work s.pending s

end PerfectMatching.PrimalDual.State
