/-!
# Decimal numbers

A decimal is a whole number times a power of ten. Two facts connect decimals and binary64 numbers: every decimal has a
nearest binary64 number (`Decimal.toFloat`), and every finite binary64 number is a decimal, since a half is five tenths
(`Decimal.ofMagnitude`).
-/

namespace PerfectMatching

/-- The number `digits · 10 ^ exponent`. -/
structure Decimal where
  digits : Nat
  exponent : Int
  deriving DecidableEq, Repr

namespace Decimal

/-- The nearest binary64 number, of two equally near ones the even one; beyond the largest it is infinite. -/
def toFloat (d : Decimal) : Float :=
  match d.exponent with
  | .ofNat e => Float.ofScientific d.digits false e
  | .negSucc e => Float.ofScientific d.digits true (e + 1)

/-- The magnitude of a finite binary64 number as `m · 2 ^ q`, read off its bits. -/
def binaryMagnitude (x : Float) : Nat × Int :=
  let hidden : Nat := 0x10000000000000
  let exponent : Nat := x.toBits.toNat / hidden % 2048
  let fraction : Nat := x.toBits.toNat % hidden
  if exponent = 0 then (fraction, -1074) else (hidden + fraction, (exponent : Int) - 1075)

/-- The magnitude of a finite binary64 number, exactly: `m · 2 ^ -k` is `m · 5 ^ k · 10 ^ -k`. -/
def ofMagnitude (x : Float) : Decimal :=
  match binaryMagnitude x with
  | (0, _) => ⟨0, 0⟩
  | (m, .ofNat q) => ⟨m * Nat.pow 2 q, 0⟩
  | (m, .negSucc q) => ⟨m * Nat.pow 5 (q + 1), .negSucc q⟩

end Decimal

end PerfectMatching
