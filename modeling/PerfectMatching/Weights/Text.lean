import PerfectMatching.Decimal.Numeral
import PerfectMatching.Text.Blank
import PerfectMatching.Weights

/-!
# Weight matrices as text

The text of a matrix is its dimension, followed by its entries row by row, with white space between any two. A forbidden
edge is written as `x`, `-inf` or `-infinity`, in small or capital letters. The writer puts each row on a line of its own
and writes `-inf`; the reader takes any white space and names the first defect it meets.
-/

namespace PerfectMatching.Weights

/-! ## Writing -/

/-- An entry as text. -/
def entryText : Option Float → List Char
  | some x => Layout.plain.chars x
  | none => ['-', 'i', 'n', 'f']

/-- The entries of a row with a space between any two, and a line end. -/
def rowText (row : List (Option Float)) : List Char := [' '].intercalate (row.map entryText) ++ ['\n']

/-- The text of a matrix: a line for its dimension and one for each row. -/
def text (w : Weights Float) : String :=
  String.ofList (Nat.toDigits 10 w.n ++ '\n' :: w.rows.flatMap rowText)

/-! ## Reading -/

/-- The words for a forbidden edge, in small letters. -/
def forbiddenMarks : List (List Char) := ["x".toList, "-inf".toList, "-infinity".toList]

/-- Reads an entry: a word for a forbidden edge, or a numeral whose nearest binary64 number is finite. -/
def readEntry (token : List Char) : Except TextDefect (Option Float) :=
  if token.map Char.toLower ∈ forbiddenMarks then .ok none
  else
    match (Numeral.read? token).map Numeral.toFloat with
    | some x => if x.isFinite then .ok (some x) else .error (.badWeight token)
    | none => .error (.badWeight token)

/-- Reads the tokens of a matrix. -/
def ofTokens : List (List Char) → Except TextDefect (Weights Float)
  | [] => .error .missingDimension
  | token :: rest =>
    match wordNumeral? token with
    | none => .error (.badDimension token)
    | some n =>
      if wordLimit ≤ n * n then .error (.dimensionTooLarge n)
      else do
        let entries ← (rest.take (n * n)).mapM readEntry
        if h : entries.length = n * n then
          match rest.drop (n * n) with
          | [] => .ok ⟨n, ⟨entries.toArray, h⟩⟩
          | extra :: _ => .error (.trailing extra)
        else .error (.tooFew (n * n) entries.length)

/-- Reads a text as a matrix. -/
def ofText (text : String) : Except (Failure Float) (Weights Float) :=
  (ofTokens (Text.tokens text.toList)).mapError .malformed

end PerfectMatching.Weights
