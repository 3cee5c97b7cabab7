import PerfectMatching.Decimal.Layout
import PerfectMatching.Scalar

/-!
# Assignments

The result of a matcher, detached from it: the column of each row, the row of each column, and the total weight. The two
lists of a perfect matching are inverse to each other (`Assignment.areInverse`).
-/

namespace PerfectMatching

/-- A matching as two lists, and its weight. -/
structure Assignment (α : Type) where
  /-- The column that each row is matched to. -/
  source : List Nat
  /-- The row that each column is matched to. -/
  dest : List Nat
  /-- The total weight of the matched edges. -/
  weight : α
  deriving DecidableEq

namespace Assignment

/-- What a matcher holds before its first success and after every failure. -/
def empty {α : Type} [Scalar α] : Assignment α := ⟨[], [], Scalar.zero⟩

/-- The matched pairs of a row and a column, by rows. -/
def pairs {α : Type} (a : Assignment α) : List (Nat × Nat) := a.source.zipIdx.map fun (j, i) => (i, j)

/-- One list undoes the other: they are equally long, and each number of the first, used as a place in the second, leads
back to its own place. -/
def areInverse (source dest : List Nat) : Bool :=
  source.length == dest.length && source.zipIdx.all fun (j, i) => dest[j]? == some i

/-- The matched pairs, a line each, and the weight; rows and columns are numbered from `base` on. -/
def lines (a : Assignment Float) (base : Nat) : String :=
  String.join (a.pairs.map fun (i, j) => s!"{i + base} {j + base}\n") ++ "weight: " ++ Layout.plain.text a.weight

/-- An assignment as text, its nodes numbered from zero on. -/
def text (a : Assignment Float) : String := a.lines 0

end Assignment

end PerfectMatching
