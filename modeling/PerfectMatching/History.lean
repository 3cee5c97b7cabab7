import PerfectMatching.Solver

/-!
# A matcher and its past

A matcher is called again and again. A history is the list of its calls, and what a matcher holds depends on it only
through the last calls that changed anything. A call that is refused because the matrix has another size changes nothing
(`PrimalDual.lastHeard?`, `Solver.lastHeard?`). A search by dual variables keeps its table and its dual variables until the
next search, and a call makes a matcher search only if its weights pass the range check (`PrimalDual.lastSearched?`).
-/

namespace PerfectMatching

/-- A call: the goal and the weights. -/
abbrev Call (α : Type) := Goal × Weights α

/-- A call with what it returned. -/
abbrev Returned (α : Type) := Call α × Except (Failure α) Unit

/-- The call was refused because the matrix has another size than the matcher. -/
def isMismatch {α : Type} : Except (Failure α) Unit → Bool
  | .error (.sizeMismatch _ _) => true
  | _ => false

/-- The call was refused for its matrix or its weights, before any search. -/
def isRefused {α : Type} : Except (Failure α) Unit → Bool
  | .error (.sizeMismatch _ _) | .error .noEdge | .error (.unshiftable _ _) => true
  | _ => false

/-- What each of some calls returns, one call after the other. -/
def returnsOf {α M : Type} (solve : M → Goal → Weights α → Solved α M) : M → List (Call α) → List (Returned α)
  | _, [] => []
  | m, call :: calls =>
    let r := solve m call.1 call.2
    (call, r.outcome) :: returnsOf solve r.matcher calls

variable {α : Type} [Scalar α] {n : Nat}

/-- A new matcher after some calls. -/
def PrimalDual.after (calls : List (Call α)) : PrimalDual α n :=
  calls.foldl (fun m call => (m.solve call.1 call.2).matcher) (.new n)

/-- A new matcher after some calls. -/
def Enumeration.after (calls : List (Call α)) : Enumeration α n :=
  calls.foldl (fun m call => (m.solve call.1 call.2).matcher) (.new n)

/-- A new matcher of a method after some calls. -/
def Solver.after (method : Method) (calls : List (Call α)) : Solver α n :=
  calls.foldl (fun m call => (m.solve call.1 call.2).matcher) (.new method n)

/-- The last call of a new matcher that was not refused for the size of its matrix, with what it returned. -/
def PrimalDual.lastHeard? (n : Nat) (calls : List (Call α)) : Option (Returned α) :=
  ((returnsOf PrimalDual.solve (.new n) calls).filter fun r => !isMismatch r.2).getLast?

/-- The last call of a new matcher of a method that was not refused for the size of its matrix, with what it returned. -/
def Solver.lastHeard? (method : Method) (n : Nat) (calls : List (Call α)) : Option (Returned α) :=
  ((returnsOf Solver.solve (.new method n) calls).filter fun r => !isMismatch r.2).getLast?

/-- A call makes a matcher for `n` nodes a side search: the matrix has its size, an edge is allowed, and the weights pass the
range check. -/
def PrimalDual.isSearched (n : Nat) (call : Call α) : Bool :=
  call.2.n == n && (PrimalDual.bounds? call.1 call.2).any fun (least, greatest) =>
    PrimalDual.isShiftable least greatest (PrimalDual.offsetOf call.2 least greatest)

/-- The last call that made a matcher for `n` nodes a side search. -/
def PrimalDual.lastSearched? (n : Nat) (calls : List (Call α)) : Option (Call α) :=
  (calls.filter (PrimalDual.isSearched n)).getLast?

/-- What a matcher shows of its last search, besides the result: the dual variables, the bound that they give, the shifted
weights as text, and the goal and the shift that lead back from them. -/
structure PrimalDual.View (n : Nat) where
  rowDual : Vector Float n
  colDual : Vector Float n
  dualObjective : Float
  workText : String
  goal : Goal
  offset : Float

/-- What a matcher shows of its last search. -/
def PrimalDual.view (m : PrimalDual Float n) : PrimalDual.View n :=
  ⟨m.state.rowDual, m.state.colDual, m.dualObjective, m.workText, m.goal, m.offset⟩

/-- One more call is a call of the matcher that the others left. -/
theorem PrimalDual.after_concat (calls : List (Call α)) (call : Call α) :
    (PrimalDual.after (calls ++ [call]) : PrimalDual α n) =
      ((PrimalDual.after calls : PrimalDual α n).solve call.1 call.2).matcher := by
  simp [PrimalDual.after]

end PerfectMatching
