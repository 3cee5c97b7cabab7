import PerfectMatching.Enumeration
import PerfectMatching.PrimalDual.Certificate

/-!
# Solvers

A matcher of either method behind one interface. The methods have names, by which a command line or a request chooses one.
-/

namespace PerfectMatching

/-- How a matching is found. -/
inductive Method where
  /-- By dual variables. -/
  | primalDual
  /-- By trying every permutation. -/
  | enumeration
  deriving DecidableEq, Repr

namespace Method

/-- The method that is used when none is chosen. -/
def default : Method := .primalDual

/-- The name of a method. -/
def name : Method → String
  | .primalDual => "lawler"
  | .enumeration => "exhaustive"

/-- The method with a name. -/
def ofName {α : Type} (name : String) : Except (Failure α) Method :=
  if name = Method.primalDual.name then .ok .primalDual
  else if name = Method.enumeration.name then .ok .enumeration
  else .error (.unknownMethod name)

end Method

/-- A matcher of either method, for `n` nodes a side. -/
inductive Solver (α : Type) (n : Nat) where
  | primalDual (m : PrimalDual α n)
  | enumeration (m : Enumeration α n)

namespace Solver

variable {α : Type} [Scalar α] {n : Nat}

/-- A new matcher of a method. -/
def new (method : Method) (n : Nat) : Solver α n :=
  match method with
  | .primalDual => .primalDual (.new n)
  | .enumeration => .enumeration (.new n)

/-- The method of a matcher. -/
def method : Solver α n → Method
  | .primalDual _ => .primalDual
  | .enumeration _ => .enumeration

/-- Finds a perfect matching of greatest or least weight. -/
def solve (e : Solver α n) (goal : Goal) (w : Weights α) : Solved α (Solver α n) :=
  match e with
  | .primalDual m =>
    let r := m.solve goal w
    ⟨r.outcome, .primalDual r.matcher, r.events⟩
  | .enumeration m =>
    let r := m.solve goal w
    ⟨r.outcome, .enumeration r.matcher, r.events⟩

/-- The result of the last call, empty if it failed. -/
def assignment : Solver α n → Assignment α
  | .primalDual m => m.result
  | .enumeration m => m.result

/-- Checks the result by the dual variables, if the matcher has any. -/
def certify? : Solver α n → Option (Except Inconsistency Unit)
  | .primalDual m => some m.certify
  | .enumeration _ => none

end Solver

end PerfectMatching
