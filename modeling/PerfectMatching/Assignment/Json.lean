import PerfectMatching.Assignment
import PerfectMatching.Json

/-!
# Assignments as JSON

An assignment is written as an object with the fields `source`, `dest` and `weight`, in this order. The reader takes them in any order
among other fields, but each exactly once, or the three values as an array. The texts are those of a library.
-/

namespace PerfectMatching.Assignment

open Json

/-- An assignment as a JSON object. -/
def json (library : Library) (a : Assignment Float) : String :=
  library.objectText
    [("source", library.nodesText a.source), ("dest", library.nodesText a.dest), ("weight", library.weightText a.weight)]

/-- The assignment of three values. -/
def ofValues? (library : Library) (source dest weight : String) : Option (Assignment Float) := do
  some ⟨← library.nodes? source, ← library.nodes? dest, ← library.weight? weight⟩

/-- The values of the fields with this name. -/
def valuesNamed (name : String) (fields : List (String × String)) : List String :=
  (fields.filter fun field => field.1 == name).map (·.2)

/-- Reads a text as an assignment. -/
def ofJson? (library : Library) (text : String) : Option (Assignment Float) :=
  match library.fields? text with
  | some fields =>
    match valuesNamed "source" fields, valuesNamed "dest" fields, valuesNamed "weight" fields with
    | [source], [dest], [weight] => ofValues? library source dest weight
    | _, _, _ => none
  | none =>
    match library.items? text with
    | some [source, dest, weight] => ofValues? library source dest weight
    | _ => none

end PerfectMatching.Assignment
