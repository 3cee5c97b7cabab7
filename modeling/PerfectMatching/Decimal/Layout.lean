import PerfectMatching.Decimal.Shortest

/-!
# How weights are written

The digits of a weight are its shortest decimal. A `Layout` fixes the rest: when an exponent is used, whether a whole
number keeps a point, what stands for a weight that is no number. Messages and matrices use `Layout.plain`, JSON uses
`Layout.json`.
-/

namespace PerfectMatching

/-- The decisions a written form makes beyond the digits. -/
structure Layout where
  /-- Which of two equally near shortest decimals is written. -/
  tie : Tie
  /-- The least power of ten of the first digit that is written without an exponent, if there is one. -/
  lowest : Option Int
  /-- The greatest power of ten of the first digit that is written without an exponent, if there is one. -/
  highest : Option Int
  /-- A whole number ends in a point and a zero. -/
  wholePoint : Bool
  /-- The word for an undefined result. -/
  undefined : String
  /-- The word for infinity. -/
  infinite : String
  /-- The word for minus infinity. -/
  minusInfinite : String

namespace Layout

/-- Weights in messages and matrices are never written with an exponent, and whole ones without a point. -/
def plain : Layout where
  tie := .up
  lowest := none
  highest := none
  wholePoint := false
  undefined := "NaN"
  infinite := "inf"
  minusInfinite := "-inf"

/-- Weights in JSON have an exponent below a hundred-thousandth and from ten to the sixteenth on; what is no number is
null. -/
def json : Layout where
  tie := .toEven
  lowest := some (-5)
  highest := some 15
  wholePoint := true
  undefined := "null"
  infinite := "null"
  minusInfinite := "null"

/-- Digits with the point after the first `point` of them, filled up with zeros on either side. -/
def positional (wholePoint : Bool) (digits : List Char) (point : Int) : List Char :=
  if point ≤ 0 then '0' :: '.' :: (List.replicate (-point).toNat '0' ++ digits)
  else if point < digits.length then digits.take point.toNat ++ '.' :: digits.drop point.toNat
  else digits ++ List.replicate (point.toNat - digits.length) '0' ++ (if wholePoint then ['.', '0'] else [])

/-- Digits with the point after the first of them and a signed power of ten. -/
def scientific (digits : List Char) (power : Int) : List Char :=
  let tail := 'e' :: (if power < 0 then '-' else '+') :: Nat.toDigits 10 power.natAbs
  match digits with
  | [] => tail
  | [d] => d :: tail
  | d :: rest => d :: '.' :: (rest ++ tail)

/-- A power of ten of the first digit that is written without an exponent. -/
def isPositional (l : Layout) (power : Int) : Bool :=
  l.lowest.all (· ≤ power) && l.highest.all (power ≤ ·)

/-- The digits of a whole number without the zeros it ends in. -/
def significantDigits (d : Nat) : List Char :=
  ((Nat.toDigits 10 d).reverse.dropWhile (· == '0')).reverse

/-- A decimal, unsigned. -/
def decimal (l : Layout) (d : Decimal) : List Char :=
  if d.digits = 0 then positional l.wholePoint ['0'] 1
  else
    let power := ((Nat.toDigits 10 d.digits).length : Int) - 1 + d.exponent
    if l.isPositional power then positional l.wholePoint (significantDigits d.digits) (power + 1)
    else scientific (significantDigits d.digits) power

/-- A weight as a list of characters. -/
def chars (l : Layout) (x : Float) : List Char :=
  if x.isNaN then l.undefined.toList
  else if x.isInf then (if Float.lt x 0 then l.minusInfinite else l.infinite).toList
  else (if x.toBits >>> 63 == 1 then ['-'] else []) ++ l.decimal (Decimal.shortest l.tie x)

/-- A weight as text. -/
def text (l : Layout) (x : Float) : String := String.ofList (l.chars x)

end Layout

end PerfectMatching
