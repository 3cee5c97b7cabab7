import PerfectMatching.Decimal

/-!
# Reading numerals

Two kinds of numerals occur in a matrix: its dimension, a natural number below `2 ^ 64`, and its weights, decimals with an
optional sign, point and power of ten. A weight numeral needs a digit before or after the point, and one after the `e`.
-/

namespace PerfectMatching

/-- The least natural number that is no word of 64 bits. -/
def wordLimit : Nat := 0x10000000000000000

/-- A natural number below `2 ^ 64` written in decimal digits, which a plus sign may precede. -/
def wordNumeral? (text : List Char) : Option Nat :=
  let digits := match text with
    | '+' :: rest => rest
    | _ => text
  if digits.isEmpty || !digits.all Char.isDigit then none
  else
    let n := Nat.ofDigitChars 10 digits 0
    if n < wordLimit then some n else none

/-- A decimal with a sign; a negative zero is told apart from zero. -/
structure Numeral where
  negative : Bool
  magnitude : Decimal
  deriving DecidableEq, Repr

namespace Numeral

/-- An optional sign: whether it is a minus, and what follows it. -/
def splitSign : List Char → Bool × List Char
  | '-' :: rest => (true, rest)
  | '+' :: rest => (false, rest)
  | text => (false, text)

/-- The power of ten that ends a numeral; without one it is zero. -/
def exponent? : List Char → Option Int
  | [] => some 0
  | c :: text =>
    if c = 'e' ∨ c = 'E' then
      let (negative, digits) := splitSign text
      if digits.isEmpty || !digits.all Char.isDigit then none
      else
        let n : Int := Nat.ofDigitChars 10 digits 0
        some (if negative then -n else n)
    else none

/-- The digits after a point, if there is one, and what follows them. -/
def splitFraction : List Char → List Char × List Char
  | '.' :: text => (text.takeWhile Char.isDigit, text.dropWhile Char.isDigit)
  | text => ([], text)

/-- Reads a whole text as a numeral. -/
def read? (text : List Char) : Option Numeral :=
  let (negative, text) := splitSign text
  let whole := text.takeWhile Char.isDigit
  let (fraction, text) := splitFraction (text.dropWhile Char.isDigit)
  if whole.isEmpty && fraction.isEmpty then none
  else (exponent? text).map fun e => ⟨negative, ⟨Nat.ofDigitChars 10 (whole ++ fraction) 0, e - fraction.length⟩⟩

/-- The binary64 number nearest to a numeral. -/
def toFloat (x : Numeral) : Float :=
  if x.negative then -x.magnitude.toFloat else x.magnitude.toFloat

end Numeral

end PerfectMatching
