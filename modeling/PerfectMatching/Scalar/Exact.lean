import PerfectMatching.Decimal
import PerfectMatching.Scalar

/-!
# Exact weights

Rational numbers with one infinite element. A solver that runs on them rounds nothing, so a statement about an algorithm
and not about its rounding is a statement about this instance. The infinite element only ever stands for the slack of a
node that no edge has reached; a sum, difference or product with it is infinite again.
-/

namespace PerfectMatching

/-- A rational number, or the infinite element above all of them. -/
inductive Exact where
  | finite (q : Rat)
  | infinite
  deriving DecidableEq

namespace Exact

/-- Applies an operation of rational numbers; with an infinite operand the result is infinite. -/
def lift₂ (f : Rat → Rat → Rat) : Exact → Exact → Exact
  | .finite p, .finite q => .finite (f p q)
  | _, _ => .infinite

/-- The opposite of a number; the infinite element stays what it is. -/
def opposite : Exact → Exact
  | .finite q => .finite (Rat.neg q)
  | .infinite => .infinite

/-- Strict order, infinity on top. -/
def lt : Exact → Exact → Bool
  | .finite p, .finite q => Rat.blt p q
  | .finite _, .infinite => true
  | .infinite, _ => false

/-- Order, infinity on top. -/
def le (x y : Exact) : Bool := !lt y x

instance : Scalar Exact where
  add := lift₂ Rat.add
  sub := lift₂ Rat.sub
  mul := lift₂ Rat.mul
  neg := opposite
  ofScientific m s e := .finite (OfScientific.ofScientific m s e)
  ofNat n := .finite (mkRat n 1)
  infinity := .infinite
  lt := lt
  le := le
  isFinite
    | .finite _ => true
    | .infinite => false

/-- The value of a binary64 number; what is not finite is infinite. -/
def ofFloat (x : Float) : Exact :=
  if x.isFinite then
    let (m, q) := Decimal.binaryMagnitude x
    let m : Int := if x.toBits >>> 63 == 1 then -m else m
    match q with
    | .ofNat q => .finite (mkRat (m * Nat.pow 2 q) 1)
    | .negSucc q => .finite (mkRat m (Nat.pow 2 (q + 1)))
  else .infinite

/-- An addition of numbers is their addition. -/
@[simp] theorem finite_add_finite (p q : Rat) : (finite p + finite q : Exact) = finite (p + q) := rfl

/-- A difference of numbers is their difference. -/
@[simp] theorem finite_sub_finite (p q : Rat) : (finite p - finite q : Exact) = finite (p - q) := rfl

/-- The opposite of a number is its opposite. -/
@[simp] theorem neg_finite (q : Rat) : (-finite q : Exact) = finite (-q) := rfl

/-- Numbers are ordered as numbers. -/
theorem lt_finite_iff (p q : Rat) : Scalar.lt (finite p) (finite q) = true ↔ p < q := Iff.rfl

end Exact

end PerfectMatching
