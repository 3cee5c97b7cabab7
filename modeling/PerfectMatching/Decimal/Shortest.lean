import PerfectMatching.Decimal

/-!
# The shortest decimal of a binary64 number

A finite binary64 number has finitely many decimal digits. Cutting off its last `k` digits leaves two neighbours with that
many fewer digits, one below the number and one above it. The shortest decimal is the first neighbour that still reads
back as the number, taken with as many digits cut off as possible; if both neighbours read back, it is the nearer one. By
construction the result reads back, except that the exact decimal itself is the last resort.
-/

namespace PerfectMatching

/-- Which of two equally near decimals is taken. -/
inductive Tie where
  | up
  | toEven
  deriving DecidableEq, Repr

namespace Decimal

/-- The decimal without its last `k` digits: the neighbour below. -/
def below (d : Decimal) (k : Nat) : Decimal := ⟨d.digits / Nat.pow 10 k, d.exponent + k⟩

/-- The next decimal with `k` digits fewer: the neighbour above. -/
def above (d : Decimal) (k : Nat) : Decimal := ⟨d.digits / Nat.pow 10 k + 1, d.exponent + k⟩

/-- The neighbour above is nearer, or it is as near and the tie goes to it. -/
def nearerAbove (tie : Tie) (d : Decimal) (k : Nat) : Bool :=
  match compare (2 * (d.digits % Nat.pow 10 k)) (Nat.pow 10 k) with
  | .lt => false
  | .gt => true
  | .eq => match tie with
    | .up => true
    | .toEven => d.digits / Nat.pow 10 k % 2 == 1

/-- The neighbour with `k` digits fewer that passes the test, the nearer one if both do. -/
def shorten? (tie : Tie) (passes : Decimal → Bool) (d : Decimal) (k : Nat) : Option Decimal :=
  match passes (d.below k), passes (d.above k) with
  | true, true => some (if nearerAbove tie d k then d.above k else d.below k)
  | true, false => some (d.below k)
  | false, true => some (d.above k)
  | false, false => none

/-- Cuts off at most `k` digits, as many as the test allows. -/
def shorten (tie : Tie) (passes : Decimal → Bool) (d : Decimal) : Nat → Decimal
  | 0 => d
  | k + 1 => (shorten? tie passes d (k + 1)).getD (shorten tie passes d k)

/-- The decimal with the fewest digits that reads back as the magnitude of a finite binary64 number, and the nearest of
those. -/
def shortest (tie : Tie) (x : Float) : Decimal :=
  let d := ofMagnitude x
  shorten tie (fun c => c.toFloat == x.abs) d ((Nat.toDigits 10 d.digits).length - 1)

/-- A shortened decimal passes the test if the decimal does. -/
theorem passes_shorten {tie : Tie} {passes : Decimal → Bool} {d : Decimal} (h : passes d = true) (k : Nat) :
    passes (shorten tie passes d k) = true := by
  induction k with
  | zero => exact h
  | succ k ih =>
    unfold shorten shorten?
    split <;> simp_all
    split <;> assumption

end Decimal

end PerfectMatching
