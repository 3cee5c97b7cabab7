import PerfectMatching.PrimalDual

/-!
# Tight edges and the nodes they reach

A search is right if its trees hold exactly the nodes that alternating paths of tight edges reach from the rows that are
not matched (`State.Reaches`), if its labels spell such paths (`State.Spells`), and if the sums of its dual variables bound the weights
of all edges (`State.Covers`) and of all matchings (`State.Invariant`). The states of which this is said are those at the beginning of
a round (`Stage`), and those whose trees are complete or have just been cleared (`StablePoint`).
-/

namespace PerfectMatching.PrimalDual

variable {α : Type} [Scalar α] {n : Nat}

namespace State

/-- The edge is allowed, and the dual variables at its ends add up to its weight. -/
def IsTight (work : Table α n) (s : State α n) (i j : Fin n) : Prop :=
  (work.get i).get j = some (s.rowDual.get i + s.colDual.get j)

/-- The dual variables are not negative, and no edge outweighs the two at its ends. -/
structure Covers (work : Table α n) (s : State α n) : Prop where
  row_nonneg : ∀ i, Scalar.le Scalar.zero (s.rowDual.get i) = true
  col_nonneg : ∀ j, Scalar.le Scalar.zero (s.colDual.get j) = true
  edge_le : ∀ i j x, (work.get i).get j = some x → Scalar.le x (s.rowDual.get i + s.colDual.get j) = true

/-- The mates of the rows and those of the columns say the same. -/
def MatesAgree (s : State α n) : Prop := ∀ i j, s.rowMate.get i = some j ↔ s.colMate.get j = some i

/-- The matched pairs of a row and a column. -/
def edges (s : State α n) : List (Nat × Nat) :=
  (List.finRange n).filterMap fun i => (s.rowMate.get i).map fun j => (i.val, j.val)

/-- The rows and columns that an alternating path of tight edges leads to from a row that is not matched: by an edge that
is not matched to a column, and by a matched one back to a row. -/
inductive Reaches (work : Table α n) (s : State α n) : Fin n ⊕ Fin n → Prop where
  | root {i : Fin n} : s.rowMate.get i = none → Reaches work s (.inl i)
  | forth {i j : Fin n} : Reaches work s (.inl i) → s.rowMate.get i ≠ some j → IsTight work s i j →
      Reaches work s (.inr j)
  | back {i j : Fin n} : Reaches work s (.inr j) → s.colMate.get j = some i → Reaches work s (.inl i)

/-- The labels spell an alternating path of tight edges that ends in a column: its unmatched edges, the last one first. They lead from
a column to the row that labels it, and this row is a root and not matched, or they lead on from the column that it has been reached
through and is matched to. -/
inductive Spells (work : Table α n) (s : State α n) : Fin n → List (Fin n × Fin n) → Prop where
  | root {i j : Fin n} : s.colLabel.get j = some i → s.rowLabel.get i = .root → s.rowMate.get i = none →
      IsTight work s i j → Spells work s j [(i, j)]
  | via {i j k : Fin n} {path : List (Fin n × Fin n)} : Spells work s k path → s.colLabel.get j = some i →
      s.rowLabel.get i = .via k → s.rowMate.get i = some k → k ≠ j → IsTight work s i k → IsTight work s i j →
      Spells work s j ((i, j) :: path)

/-- The sum of all dual variables, those of the rows first. -/
def dualSum (s : State α n) : α := Scalar.sum (s.rowDual.toList ++ s.colDual.toList)

end State

/-- Allowed edges, with their weights, of which no two share a row or a column. -/
structure IsMatching (work : Table α n) (edges : List (Fin n × Fin n)) (weights : List α) : Prop where
  weights_eq : (edges.map fun e => (work.get e.1).get e.2) = weights.map some
  rows_nodup : (edges.map Prod.fst).Nodup
  cols_nodup : (edges.map Prod.snd).Nodup

/-- The matching uses tight edges only, and the dual variables bound the weight of every matching, perfect or not. -/
structure State.Invariant (work : Table α n) (s : State α n) : Prop where
  agree : s.MatesAgree
  tight : ∀ i j, s.rowMate.get i = some j → s.IsTight work i j
  covers : s.Covers work
  unmatched : ∀ j, s.colMate.get j = none → s.colDual.get j = Scalar.zero
  sum_le : ∀ edges weights, IsMatching work edges weights → Scalar.le (Scalar.sum weights) s.dualSum = true

/-- The states at the beginning of the rounds of a search, with the work done so far. -/
inductive Stage (work : Table α n) : State α n → Effort → Prop where
  | start : Stage work (State.start work) ⟨0, 0⟩
  | next {s : State α n} {effort : Effort} : Stage work s effort → (s.round work effort).verdict = .unfinished →
      Stage work (s.round work effort).state (s.round work effort).effort

/-- The states in which the trees of a search are complete, and those in which they have just been cleared. -/
inductive StablePoint (work : Table α n) : State α n → Prop where
  | searched {s t : State α n} {effort : Effort} : Stage work s effort → s.search work = (none, t) → StablePoint work t
  | augmented {s t u : State α n} {effort : Effort} {j : Fin n} {events : List (Event α)} : Stage work s effort →
      s.search work = (some j, t) → t.flip j = ⟨u, none, events⟩ → StablePoint work u.reseed

end PerfectMatching.PrimalDual
