import PerfectMatching.PrimalDual.Augment
import PerfectMatching.PrimalDual.Search

/-!
# Rounds

A round searches for an augmenting path. If there is one, the matching is augmented and the trees are cleared. If there is
none, the dual variables of the rows reached are lowered and those of the tight columns raised by the same amount, the
least slack of the other columns: this keeps the edges of the trees tight and makes at least one more edge tight. If a
dual variable would become negative by that, no perfect matching exists.

A phase, from one augmentation to the next, makes at most as many dual updates as there are columns, and there are at most
as many phases as rows. So `(n + 1) ^ 2` rounds are enough for every search (`rounds`).
-/

namespace PerfectMatching.PrimalDual

/-- Where a search stands after a round. -/
inductive Verdict where
  /-- There is more to do. -/
  | unfinished
  /-- Every row is matched. -/
  | perfect
  /-- There is no perfect matching. -/
  | infeasible
  /-- The bookkeeping contradicts itself. -/
  | broken (cause : Inconsistency)
  deriving DecidableEq

/-- A search after some rounds: its state, the work done, what is to become of it, and the events on the way. -/
structure Progress (α : Type) (n : Nat) where
  state : State α n
  effort : Effort
  verdict : Verdict
  events : List (Event α)

namespace State

variable {α : Type} [Scalar α] {n : Nat}

/-- The least dual variable of a row that has been reached. -/
def leastDual (s : State α n) : α :=
  Scalar.least (((List.finRange n).filter fun i => (s.rowLabel.get i).isReached).map s.rowDual.get)

/-- The least positive slack of a column. -/
def leastSlack (s : State α n) : α := Scalar.least (s.slack.toList.filter Scalar.positive)

/-- The slack of a column after a dual update: it shrinks if it is positive and bounded. -/
def slackAfter (s : State α n) (amount : α) (j : Fin n) : α :=
  if Scalar.positive (s.slack.get j) && (s.colLabel.get j).isSome then s.slack.get j - amount else s.slack.get j

/-- A dual update makes the column tight. -/
def tightens (s : State α n) (amount : α) (j : Fin n) : Bool :=
  Scalar.positive (s.slack.get j) && !Scalar.positive (s.slackAfter amount j)

/-- Lowers the dual variables of the rows reached and raises those of the tight columns. The columns that become tight are
to be visited, the last one first. -/
def update (s : State α n) (amount : α) : State α n :=
  { s with
    rowDual := Vector.ofFn fun i => if (s.rowLabel.get i).isReached then s.rowDual.get i - amount else s.rowDual.get i
    colDual := Vector.ofFn fun j => if Scalar.positive (s.slack.get j) then s.colDual.get j else s.colDual.get j + amount
    slack := Vector.ofFn (s.slackAfter amount)
    colStack := ((List.finRange n).filter (s.tightens amount)).reverse ++ s.colStack }

/-- Augments along the path that ends in column `j` and starts new trees. When no row is left, the matching is perfect. -/
def augment (s : State α n) (effort : Effort) (j : Fin n) : Progress α n :=
  match s.flip j with
  | ⟨s, some cause, events⟩ => ⟨s, effort, .broken cause, events⟩
  | ⟨s, none, events⟩ =>
    let s := s.reseed
    let effort := { effort with augmentations := effort.augmentations + 1 }
    if s.rowStack.isEmpty then ⟨s, effort, .perfect, events⟩
    else ⟨{ s with colStack := [] }, effort, .unfinished, events⟩

/-- Makes the dual update that the slacks allow, unless a dual variable would become negative. -/
def relax (s : State α n) (effort : Effort) : Progress α n :=
  if Scalar.lt s.leastDual s.leastSlack then ⟨s, effort, .infeasible, []⟩
  else
    ⟨s.update s.leastSlack, { effort with updates := effort.updates + 1 }, .unfinished, [.dualUpdate s.leastSlack]⟩

/-- One round. -/
def round (work : Table α n) (s : State α n) (effort : Effort) : Progress α n :=
  match s.search work with
  | (some j, s) => s.augment effort j
  | (none, s) => s.relax effort

/-- At most so many rounds. -/
def run (work : Table α n) : Nat → State α n → Effort → Progress α n
  | 0, s, effort => ⟨s, effort, .broken .searchUnfinished, []⟩
  | rounds + 1, s, effort =>
    let first := s.round work effort
    match first.verdict with
    | .unfinished =>
      let rest := run work rounds first.state first.effort
      { rest with events := first.events ++ rest.events }
    | _ => first

end State

/-- Enough rounds for every search with `n` rows. -/
def rounds (n : Nat) : Nat := (n + 1) * (n + 1)

/-- The whole search on a table of weights. -/
def complete {α : Type} [Scalar α] {n : Nat} (work : Table α n) : Progress α n :=
  (State.start work).run work (rounds n) ⟨0, 0⟩

end PerfectMatching.PrimalDual
