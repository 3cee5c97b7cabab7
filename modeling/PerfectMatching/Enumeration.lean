import PerfectMatching.Assignment
import PerfectMatching.Event
import PerfectMatching.Permutations
import PerfectMatching.Weights

/-!
# Matching by enumeration

Tries every permutation and keeps the first of the best ones. It takes `n · n!` steps and so refuses large problems; it
needs no theory and shares nothing with the search by dual variables, which makes it a check of that search.
-/

namespace PerfectMatching

/-- A matcher for `n` nodes a side that tries every permutation. -/
structure Enumeration (α : Type) (n : Nat) where
  /-- The result of the last call, empty if it failed. -/
  result : Assignment α

namespace Enumeration

/-- The largest problem that is enumerated. -/
def limit : Nat := 10

/-- What the permutations seen so far amount to. -/
structure Tally (α : Type) where
  /-- The first of the best permutations on allowed edges, and its total. -/
  best : Option (List Nat × α)
  /-- The most allowed edges on a permutation that uses a forbidden one. -/
  matched : Nat

variable {α : Type} [Scalar α] {n : Nat}

/-- A matcher that has not been called. -/
def new (n : Nat) : Enumeration α n := ⟨.empty⟩

/-- The number of allowed edges on a permutation. -/
def countAllowed (w : Weights α) (columns : List Nat) : Nat :=
  columns.zipIdx.countP fun (j, i) => (w.get? i j).join.isSome

/-- Takes one more permutation into account. -/
def Tally.add (goal : Goal) (w : Weights α) (tally : Tally α) (columns : List Nat) : Tally α :=
  match (w.total? columns).join with
  | some total =>
    match tally.best with
    | some (_, best) =>
      if Scalar.le (goal.signed total) (goal.signed best) then tally else { tally with best := some (columns, total) }
    | none => { tally with best := some (columns, total) }
  | none => { tally with matched := Nat.max tally.matched (countAllowed w columns) }

/-- What all permutations amount to. -/
def tally (goal : Goal) (w : Weights α) : Tally α :=
  let start := Permutations.ofSize w.n
  start.fold (Tally.add goal w) start.remaining ⟨none, 0⟩

/-- The row of each column. -/
def inverse (columns : List Nat) : List Nat := (List.range columns.length).map fun j => columns.idxOf j

/-- Finds the first of the best perfect matchings. A matrix of another size leaves the matcher as it was; any other
failure leaves it empty. -/
def solve (m : Enumeration α n) (goal : Goal) (w : Weights α) : Solved α (Enumeration α n) :=
  if w.n ≠ n then ⟨.error (.sizeMismatch n w.n), m, []⟩
  else if n = 0 then ⟨.ok (), new n, []⟩
  else if limit < n then ⟨.error (.tooLarge n limit), new n, []⟩
  else if w.min?.isNone then ⟨.error .noEdge, new n, []⟩
  else
    let tally := tally goal w
    match tally.best with
    | some (columns, total) => ⟨.ok (), ⟨⟨columns, inverse columns, total⟩⟩, [.enumerated n goal total]⟩
    | none => ⟨.error (.noPerfectMatching tally.matched n), new n, [.enumerationFailed n goal]⟩

end Enumeration

end PerfectMatching
