/-!
# JSON

What a library that writes values as JSON texts and reads them has to offer for assignments: weights, lists of nodes, and objects.
The values in an object are given to the library and handed out by it as texts of their own. How the texts look is left to the
library; `Json.standard` is one.
-/

namespace PerfectMatching.Json

/-- A library that writes values as JSON texts and reads them. What it reads it may also refuse. -/
structure Library where
  /-- The text of a weight. -/
  weightText : Float → String
  /-- The weight that a text gives. -/
  weight? : String → Option Float
  /-- The text of a list of nodes. -/
  nodesText : List Nat → String
  /-- The nodes that a text lists. -/
  nodes? : String → Option (List Nat)
  /-- The text of an object from the names of its fields and the texts of their values, in this order. -/
  objectText : List (String × String) → String
  /-- The fields of an object in their order, each by its name and the text of its value. -/
  fields? : String → Option (List (String × String))
  /-- The texts of the items of an array in their order. -/
  items? : String → Option (List String)

/-- A character that stands for itself in a string. -/
def IsPlain (c : Char) : Prop := c ≠ '"' ∧ c ≠ '\\' ∧ 0x20 ≤ c.toNat

end PerfectMatching.Json
