import PerfectMatching.Weights.Text

/-!
# What stands for a matrix

What the tokens of a text have to be for it to stand for a matrix (`Weights.IsMatrix`), which matrix that is (`Weights.Spells`), and
what is wrong with the tokens otherwise (`Weights.Flawed`): the first of six defects, in the order in which the tokens come. The same
for lists of rows: what each row has to be (`Weights.IsRow`), which matrix the rows list (`Weights.Lists`), and what is wrong with the
first faulty one (`Weights.Faulty`).
-/

namespace PerfectMatching.Weights

/-! ## Texts -/

/-- A token stands for an entry: for a forbidden edge if it is a word for one in small or capital letters, for a weight if it is a
numeral whose nearest binary64 number is finite. -/
inductive Denotes : List Char → Option Float → Prop where
  | forbidden {token : List Char} : token.map Char.toLower ∈ forbiddenMarks → Denotes token none
  | weight {token : List Char} {numeral : Numeral} :
      Numeral.read? token = some numeral → numeral.toFloat.isFinite = true → Denotes token (some numeral.toFloat)

/-- A token stands for some entry. -/
def IsEntry (token : List Char) : Prop := ∃ entry, Denotes token entry

/-- The tokens of some matrix: a dimension `n` whose square is a word of 64 bits, and `n * n` entries. -/
inductive IsMatrix : List (List Char) → Prop where
  | mk {dimension : List Char} {n : Nat} {weights : List (List Char)} :
      wordNumeral? dimension = some n → n * n < wordLimit → weights.length = n * n → (∀ token ∈ weights, IsEntry token) →
      IsMatrix (dimension :: weights)

/-- The tokens of a matrix: its dimension first, and then its entries row by row. -/
structure Spells (tokens : List (List Char)) (w : Weights Float) : Prop where
  dimension : ∃ token, tokens[0]? = some token ∧ wordNumeral? token = some w.n
  size_lt : w.n * w.n < wordLimit
  length_eq : tokens.length = 1 + w.n * w.n
  entry : ∀ i j : Fin w.n, ∃ token, tokens[1 + i.val * w.n + j.val]? = some token ∧ Denotes token (w.edge i j)

/-- What is wrong with the tokens of a text: the first of these defects that applies. -/
inductive Flawed : List (List Char) → TextDefect → Prop where
  | missingDimension : Flawed [] .missingDimension
  | badDimension {token : List Char} {rest : List (List Char)} :
      wordNumeral? token = none → Flawed (token :: rest) (.badDimension token)
  | dimensionTooLarge {token : List Char} {n : Nat} {rest : List (List Char)} :
      wordNumeral? token = some n → wordLimit ≤ n * n → Flawed (token :: rest) (.dimensionTooLarge n)
  | badWeight {dimension token : List Char} {n : Nat} {before after : List (List Char)} :
      wordNumeral? dimension = some n → n * n < wordLimit → before.length < n * n → (∀ t ∈ before, IsEntry t) → ¬IsEntry token →
      Flawed (dimension :: (before ++ token :: after)) (.badWeight token)
  | tooFew {dimension : List Char} {n : Nat} {weights : List (List Char)} :
      wordNumeral? dimension = some n → n * n < wordLimit → weights.length < n * n → (∀ t ∈ weights, IsEntry t) →
      Flawed (dimension :: weights) (.tooFew (n * n) weights.length)
  | trailing {dimension token : List Char} {n : Nat} {weights after : List (List Char)} :
      wordNumeral? dimension = some n → n * n < wordLimit → weights.length = n * n → (∀ t ∈ weights, IsEntry t) →
      Flawed (dimension :: (weights ++ token :: after)) (.trailing token)

/-! ## Lists of rows -/

section Rows

variable {α β : Type}

/-- A row of a matrix with `n` rows: `n` entries, all of which may stand in a matrix. -/
def IsRow (may : β → Prop) (n : Nat) (row : List β) : Prop := row.length = n ∧ ∀ x ∈ row, may x

/-- The matrix with these rows: it has as many rows, and each of its edges is what the entry of its row and column stands for. -/
structure Lists (stands : β → Option α → Prop) (rows : List (List β)) (w : Weights α) : Prop where
  n_eq : w.n = rows.length
  edge : ∀ i j : Fin w.n, ∃ row x, rows[i.val]? = some row ∧ row[j.val]? = some x ∧ stands x (w.edge i j)

/-- What is wrong with some rows: the length of the first one that is faulty, or its first bad entry if its length is right. -/
inductive Faulty (may : β → Prop) (rows : List (List β)) : Failure α → Prop where
  | length {before after : List (List β)} {row : List β} :
      rows = before ++ row :: after → (∀ r ∈ before, IsRow may rows.length r) → row.length ≠ rows.length →
      Faulty may rows (.sizeMismatch rows.length row.length)
  | entry {before after : List (List β)} {row front back : List β} {x : β} :
      rows = before ++ row :: after → (∀ r ∈ before, IsRow may rows.length r) → row.length = rows.length →
      row = front ++ x :: back → (∀ y ∈ front, may y) → ¬may x →
      Faulty may rows (.notFinite before.length front.length)

/-- An entry is forbidden or a finite weight. -/
def IsFiniteEntry [Scalar α] (entry : Option α) : Prop := ∀ x ∈ entry, Scalar.isFinite x = true

/-- An entry is neither undefined nor plus infinity. -/
def IsMarkedEntry (x : Float) : Prop := x.isNaN = false ∧ x ≠ Scalar.infinity

/-- An edge is forbidden if its entry is minus infinity, and else has exactly the weight of its entry. -/
def Marks (x : Float) (edge : Option Float) : Prop := (edge = none ↔ x = -Scalar.infinity) ∧ ∀ y ∈ edge, y = x

end Rows

end PerfectMatching.Weights
