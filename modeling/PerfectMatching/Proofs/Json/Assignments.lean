import PerfectMatching.Assignment.Json
import PerfectMatching.Proofs.Binary64.Decimals

/-!
# Assignments in JSON

What is known of a library for JSON (`Json.Library.Lawful`): a finite weight is read from its text up to a unit in the last place, a weight
that is not finite is written as null, which no weight is read from, and lists of nodes and the fields of an object are read as they were
written. So the nodes of an assignment are read as they are and a finite weight is read as one nearby (`Assignment.exists_ofJson?`),
but an assignment with a weight that is not finite is not read at all (`Assignment.ofJson?_eq_none`).
-/

namespace PerfectMatching

open Binary64

/-- The unit in the last place of a finite number. -/
def Binary64.unit (x : Float) : ℚ := 2 ^ (Decimal.binaryMagnitude x).2

namespace Json

/-- A text that the library writes for a weight or for a list of nodes. -/
inductive Library.IsWritten (library : Library) : String → Prop where
  | weight (x : Float) : library.IsWritten (library.weightText x)
  | nodes (nodes : List ℕ) : library.IsWritten (library.nodesText nodes)

/-- What is known of a library. Nodes are words of 64 bits, and the names of fields need no escapes. -/
structure Library.Lawful (library : Library) : Prop where
  /-- A finite weight is read as a finite one at most a unit in the last place from it. -/
  near : ∀ x, x.isFinite = true →
    ∃ y, library.weight? (library.weightText x) = some y ∧ y.isFinite = true ∧ |value y - value x| ≤ unit x
  /-- A weight that is not finite is written as null. -/
  null : ∀ x, x.isFinite = false → library.weightText x = "null"
  /-- Null is refused for a weight. -/
  refused : library.weight? "null" = none
  /-- Nodes are read as they were written. -/
  nodes : ∀ nodes, (∀ n ∈ nodes, n < wordLimit) → library.nodes? (library.nodesText nodes) = some nodes
  /-- The fields of an object are read in their order, each with the text that was written for its value. -/
  fields : ∀ fields, (∀ field ∈ fields, (∀ c ∈ field.1.toList, IsPlain c) ∧ library.IsWritten field.2) →
    library.fields? (library.objectText fields) = some fields

end Json

namespace Assignment

open Json

variable {library : Library} {a : Assignment Float}

/-- An assignment is read as one with the same nodes and with the weight that is read from the text of its weight. -/
theorem ofJson?_json (h : library.Lawful) (hsource : ∀ n ∈ a.source, n < wordLimit) (hdest : ∀ n ∈ a.dest, n < wordLimit) :
    ofJson? library (a.json library) =
      (library.weight? (library.weightText a.weight)).map fun y => ⟨a.source, a.dest, y⟩ := by
  have hfields := h.fields
    [("source", library.nodesText a.source), ("dest", library.nodesText a.dest), ("weight", library.weightText a.weight)] (by
      simp only [List.forall_mem_cons, List.not_mem_nil, false_imp_iff, implies_true, and_true]
      exact ⟨⟨by simp [IsPlain], .nodes _⟩, ⟨by simp [IsPlain], .nodes _⟩, by simp [IsPlain], .weight _⟩)
  rw [ofJson?, json, hfields]
  simp only [valuesNamed]
  change ofValues? library _ _ _ = _
  rw [ofValues?, h.nodes _ hsource, h.nodes _ hdest]
  cases library.weight? (library.weightText a.weight) <;> rfl

/-- An assignment with a finite weight is read as one with the same nodes and with a finite weight at most a unit in the last place
from it. -/
theorem exists_ofJson? (h : library.Lawful) (hsource : ∀ n ∈ a.source, n < wordLimit) (hdest : ∀ n ∈ a.dest, n < wordLimit)
    (hfinite : a.weight.isFinite = true) :
    ∃ y, ofJson? library (a.json library) = some ⟨a.source, a.dest, y⟩ ∧ y.isFinite = true ∧
      |value y - value a.weight| ≤ unit a.weight := by
  obtain ⟨y, hread, hy, hnear⟩ := h.near a.weight hfinite
  refine ⟨y, ?_, hy, hnear⟩
  rw [ofJson?_json h hsource hdest, hread, Option.map_some]

/-- An assignment with a weight that is not finite is not read. -/
theorem ofJson?_eq_none (h : library.Lawful) (hsource : ∀ n ∈ a.source, n < wordLimit) (hdest : ∀ n ∈ a.dest, n < wordLimit)
    (hnot : a.weight.isFinite = false) : ofJson? library (a.json library) = none := by
  rw [ofJson?_json h hsource hdest, h.null _ hnot, h.refused, Option.map_none]

end Assignment

end PerfectMatching
