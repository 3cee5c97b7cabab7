import PerfectMatching.Decimal.Numeral

/-!
# Numbers in JSON

A number of a JSON text is its sign, its digits before and after the point, and its power of ten. It stands for a decimal with a
sign, and its value is the nearest binary64 number.
-/

namespace PerfectMatching.Json

/-- A number as it is written: digits before the point, after it, and a power of ten with its sign. -/
structure Number where
  negative : Bool
  whole : List Char
  fraction : Option (List Char)
  power : Option (Bool × List Char)
  deriving DecidableEq

namespace Number

/-- The power of ten that is written. -/
def exponent (x : Number) : Int :=
  match x.power with
  | none => 0
  | some (negative, digits) => if negative then -Nat.ofDigitChars 10 digits 0 else Nat.ofDigitChars 10 digits 0

/-- The decimal that is written. -/
def numeral (x : Number) : Numeral where
  negative := x.negative
  magnitude := ⟨Nat.ofDigitChars 10 (x.whole ++ x.fraction.getD []) 0, x.exponent - (x.fraction.getD []).length⟩

/-- The value of a number; none if it is beyond the largest binary64 number. -/
def value? (x : Number) : Option Float := if x.numeral.toFloat.isFinite then some x.numeral.toFloat else none

/-- The natural number that is written, if there is no sign, no point and no power of ten, and it fits into a word. -/
def index? (x : Number) : Option Nat :=
  let n := Nat.ofDigitChars 10 x.whole 0
  if !x.negative && x.fraction.isNone && x.power.isNone && n < wordLimit then some n else none

end Number

/-! ## Reading -/

/-- The digits a text starts with, at least one, and what follows them. -/
def digits? (text : List Char) : Option (List Char × List Char) :=
  match text.takeWhile Char.isDigit with
  | [] => none
  | digits => some (digits, text.dropWhile Char.isDigit)

/-- The part of a number after a point, if there is a point. -/
def fraction? : List Char → Option (Option (List Char) × List Char)
  | '.' :: text => (digits? text).map fun (digits, rest) => (some digits, rest)
  | text => some (none, text)

/-- The power of ten of a number, if there is one. -/
def power? : List Char → Option (Option (Bool × List Char) × List Char)
  | [] => some (none, [])
  | c :: text =>
    if c = 'e' ∨ c = 'E' then
      let (negative, text) := match text with
        | '-' :: rest => (true, rest)
        | '+' :: rest => (false, rest)
        | _ => (false, text)
      (digits? text).map fun (digits, rest) => (some (negative, digits), rest)
    else some (none, c :: text)

/-- A number: its first digit is a zero only if it is the only digit before the point. -/
def number? (text : List Char) : Option (Number × List Char) := do
  let (negative, text) := match text with
    | '-' :: rest => (true, rest)
    | _ => (false, text)
  let (whole, text) ← digits? text
  if whole.head? = some '0' ∧ whole ≠ ['0'] then none
  else
    let (fraction, text) ← fraction? text
    let (power, text) ← power? text
    some (⟨negative, whole, fraction, power⟩, text)

end PerfectMatching.Json
