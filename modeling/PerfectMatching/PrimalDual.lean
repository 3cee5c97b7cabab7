import PerfectMatching.Assignment
import PerfectMatching.PrimalDual.Round
import PerfectMatching.Weights.Text

/-!
# Matching by dual variables

A matcher that is built for `n` nodes a side and called again and again. A call shifts all weights by a constant, which
changes every perfect matching by the same amount, so that they become positive, and runs a search on the shifted table.
When edges are forbidden the shift is so large that every perfect matching outweighs every smaller one
(`PrimalDual.margin`). A smallest total is found as a largest one of opposite weights.

A call that fails leaves no result. What the search works on - the table, the shift, the goal and the state - changes only
when the weights can be shifted, and then all of it at once.
-/

namespace PerfectMatching

/-- A matcher for `n` nodes a side that searches by dual variables. -/
structure PrimalDual (α : Type) (n : Nat) where
  /-- The shifted weights of the last search. -/
  work : PrimalDual.Table α n
  /-- What was subtracted from each weight. -/
  offset : α
  /-- The goal of the last search. -/
  goal : Goal
  /-- What the last search knew at its end. -/
  state : PrimalDual.State α n
  /-- The result of the last call, empty if it failed. -/
  result : Assignment α
  /-- The work done by the last call. -/
  effort : Effort

namespace PrimalDual

variable {α : Type} [Scalar α] {n : Nat}

/-- A matcher that has not been called; its table holds unit weights. -/
def new (n : Nat) : PrimalDual α n where
  work := Vector.replicate n (Vector.replicate n (some Scalar.one))
  offset := Scalar.zero
  goal := .max
  state := State.blank
  result := .empty
  effort := ⟨0, 0⟩

/-! ## Shifting the weights -/

/-- The least and the greatest weight as the goal sees them, if there is one. -/
def bounds? (goal : Goal) (w : Weights α) : Option (α × α) :=
  match w.allowed.map goal.signed with
  | [] => none
  | x :: xs => some (xs.foldl Scalar.min x, xs.foldl Scalar.max x)

/-- What the least weight is shifted to. If no edge is forbidden every heaviest matching of positive weights is perfect;
else `n` least weights have to outweigh `n - 1` greatest ones. -/
def margin (w : Weights α) (least greatest : α) : α :=
  if w.anyForbidden then Scalar.ofNat (w.n - 1) * (greatest - least) + Scalar.one else Scalar.one

/-- What is subtracted from each weight. -/
def offsetOf (w : Weights α) (least greatest : α) : α := least - margin w least greatest

/-- The shift leaves the least weight positive and the greatest one finite. -/
def isShiftable (least greatest offset : α) : Bool :=
  Scalar.positive (least - offset) && Scalar.isFinite (greatest - offset)

/-- The table of shifted weights. -/
def shift (goal : Goal) (offset : α) (w : Weights α) (h : w.n = n) : Table α n :=
  Vector.ofFn fun i => Vector.ofFn fun j => (w.edge (i.cast h.symm) (j.cast h.symm)).map fun x => goal.signed x - offset

/-! ## Publishing a matching -/

/-- The weight of an edge before the shift; none if it is forbidden. -/
def unshifted? (work : Table α n) (offset : α) (goal : Goal) (i j : Fin n) : Option α :=
  ((work.get i).get j).map fun x => goal.signed (x + offset)

/-- The weight of a matching before the shift; none if it uses a forbidden edge. -/
def unshiftedTotal? (work : Table α n) (offset : α) (goal : Goal) (mates : List (Fin n)) : Option α :=
  (((List.finRange n).zip mates).mapM fun e => unshifted? work offset goal e.1 e.2).map Scalar.sum

/-- The result of a search that has matched every row. -/
def publish (work : Table α n) (offset : α) (goal : Goal) (s : State α n) : Except Inconsistency (Assignment α) :=
  match s.rowMate.toList.mapM id with
  | none => .error .rowUnmatched
  | some source =>
    match s.colMate.toList.mapM id with
    | none => .error .columnUnmatched
    | some dest =>
      let sourceNodes := source.map Fin.val
      let destNodes := dest.map Fin.val
      if Assignment.areInverse sourceNodes destNodes then
        match unshiftedTotal? work offset goal source with
        | none => .error .forbiddenMatch
        | some total => .ok ⟨sourceNodes, destNodes, total⟩
      else .error .notInverse

/-! ## Calls -/

/-- The matcher without a result. -/
def cleared (m : PrimalDual α n) : PrimalDual α n := { m with result := .empty, effort := ⟨0, 0⟩ }

/-- The matcher with the goal, the shift and the table of a new search. What the last search knew is still there. -/
def load (m : PrimalDual α n) (goal : Goal) (offset : α) (work : Table α n) : PrimalDual α n :=
  { m with goal := goal, offset := offset, work := work }

/-- The end of a search on the table of the matcher: publishes what has been found. -/
def conclude (m : PrimalDual α n) (found : Progress α n) : Solved α (PrimalDual α n) :=
  let stopped : PrimalDual α n := { m with state := found.state, effort := found.effort }
  let fail (e : Failure α) : Solved α (PrimalDual α n) :=
    ⟨.error e, stopped, found.events ++ [.searchFailed n m.goal e]⟩
  match found.verdict with
  | .perfect =>
    match publish m.work m.offset m.goal found.state with
    | .ok result =>
      ⟨.ok (), { stopped with result := result }, found.events ++ [.searched n m.goal found.effort result.weight]⟩
    | .error cause => ⟨.error (.inconsistent cause), stopped, found.events⟩
  | .infeasible => fail (.noPerfectMatching found.state.matched n)
  | .broken cause => fail (.inconsistent cause)
  | .unfinished => fail (.inconsistent .searchUnfinished)

/-- Searches the table of the matcher, counting on from its effort. -/
def search (m : PrimalDual α n) : Solved α (PrimalDual α n) :=
  m.conclude ((m.state.restart m.work).run m.work (rounds n) m.effort)

/-- The search of a table by a new matcher. -/
def searchTable (goal : Goal) (offset : α) (work : Table α n) : Solved α (PrimalDual α n) :=
  ((new n).load goal offset work).search

/-- Finds a perfect matching of greatest or least weight. A matrix of another size leaves the matcher as it was; any other
failure leaves it without a result. -/
def solve (m : PrimalDual α n) (goal : Goal) (w : Weights α) : Solved α (PrimalDual α n) :=
  if h : w.n = n then
    if n = 0 then ⟨.ok (), m.cleared, []⟩
    else
      match bounds? goal w with
      | none => ⟨.error .noEdge, m.cleared, []⟩
      | some (least, greatest) =>
        let offset := offsetOf w least greatest
        if isShiftable least greatest offset then (m.cleared.load goal offset (shift goal offset w h)).search
        else
          let x := goal.signed least
          let y := goal.signed greatest
          ⟨.error (.unshiftable (Scalar.min x y) (Scalar.max x y)), m.cleared, []⟩
  else ⟨.error (.sizeMismatch n w.n), m, []⟩

/-- A search of a matcher without a result is that of a new one: nothing else of the past matters to it. -/
theorem search_load_cleared (m : PrimalDual α n) (goal : Goal) (offset : α) (work : Table α n) :
    (m.cleared.load goal offset work).search = searchTable goal offset work := by
  rw [searchTable, search, search, State.restart_eq_start, State.restart_eq_start]
  rfl

/-- What a search of a table leads to, from what the search itself finds. -/
theorem searchTable_eq (goal : Goal) (offset : α) (work : Table α n) :
    searchTable goal offset work =
      (⟨work, offset, goal, State.blank, .empty, ⟨0, 0⟩⟩ : PrimalDual α n).conclude (complete work) := rfl

/-! ## What a search leaves behind -/

/-- All dual variables, those of the rows first. -/
def duals (m : PrimalDual α n) : List α := m.state.rowDual.toList ++ m.state.colDual.toList

/-- The bound that the dual variables give, before the shift and as the goal sees it. -/
def dualObjective (m : PrimalDual α n) : α :=
  m.goal.signed (Scalar.sum m.duals + Scalar.ofNat n * m.offset)

/-- The shifted weights as text, a line for each row. -/
def workText (m : PrimalDual Float n) : String :=
  String.ofList (m.work.toList.flatMap fun row => Weights.rowText row.toList)

end PrimalDual

end PerfectMatching
