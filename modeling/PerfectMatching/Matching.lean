import PerfectMatching.Goal
import PerfectMatching.Weights

/-!
# What a matcher looks for

A matching is a set of allowed edges of which no two share a row or a column. It is perfect if it matches every row, and
can then be written as the list of the columns of the rows. `Weights.IsBest` says that a perfect matching has the greatest
or the least total of all. None of this mentions a method of finding one.
-/

namespace PerfectMatching.Weights

variable {α : Type}

/-- There is an edge from row `i` to column `j`, and it is allowed. -/
def Allows (w : Weights α) (i j : Nat) : Prop := ∃ (hi : i < w.n) (hj : j < w.n), (w.edge ⟨i, hi⟩ ⟨j, hj⟩).isSome

/-- Every weight is finite. -/
def IsFinite [Scalar α] (w : Weights α) : Prop := ∀ x ∈ w.allowed, Scalar.isFinite x = true

/-- A set of allowed edges of which no two share a row or a column. -/
structure IsMatching (w : Weights α) (edges : List (Nat × Nat)) : Prop where
  allowed : ∀ e ∈ edges, w.Allows e.1 e.2
  rows_nodup : (edges.map Prod.fst).Nodup
  cols_nodup : (edges.map Prod.snd).Nodup

/-- A permutation of the columns, as the columns of the rows in order, that uses allowed edges only. -/
structure IsPerfect (w : Weights α) (columns : List Nat) : Prop where
  perm : columns.Perm (List.range w.n)
  allowed : ∀ (i : Nat) (h : i < columns.length), w.Allows i columns[i]

/-- There is a perfect matching. -/
def HasPerfect (w : Weights α) : Prop := ∃ columns, w.IsPerfect columns

/-- A perfect matching whose total no other one surpasses in the direction of the goal. -/
structure IsBest [Scalar α] (w : Weights α) (goal : Goal) (columns : List Nat) : Prop where
  perfect : w.IsPerfect columns
  best : ∀ other x y, w.IsPerfect other → w.total? columns = some (some x) → w.total? other = some (some y) →
    Scalar.le (goal.signed y) (goal.signed x) = true

end PerfectMatching.Weights
