import PerfectMatching.Failure
import PerfectMatching.Goal

/-!
# What a matcher reports

A matcher reports what it does as a list of events. Each has a level; the terminal shows what is informative, a log file
what helps to find faults as well, and the steps of a search are for tracing only.
-/

namespace PerfectMatching

/-- How important an event is. -/
inductive Level where
  | trace
  | debug
  | info
  | warn
  | error
  deriving DecidableEq, Repr

/-- The word for a level. -/
def Level.name : Level → String
  | .trace => "TRACE"
  | .debug => "DEBUG"
  | .info => "INFO"
  | .warn => "WARN"
  | .error => "ERROR"

/-- The place of a level in the order of importance. -/
def Level.rank : Level → Nat
  | .trace => 0
  | .debug => 1
  | .info => 2
  | .warn => 3
  | .error => 4

/-- How much work a search took. -/
structure Effort where
  /-- Augmenting paths. -/
  augmentations : Nat
  /-- Dual updates. -/
  updates : Nat
  deriving DecidableEq, Repr

/-- Something a matcher did. -/
inductive Event (α : Type) where
  /-- An edge of an augmenting path has been matched. -/
  | flipped (row col : Nat)
  /-- The dual variables have been changed by an amount. -/
  | dualUpdate (amount : α)
  /-- A search has found a perfect matching. -/
  | searched (n : Nat) (goal : Goal) (effort : Effort) (weight : α)
  /-- A search has found none. -/
  | searchFailed (n : Nat) (goal : Goal) (error : Failure α)
  /-- An enumeration has found a perfect matching. -/
  | enumerated (n : Nat) (goal : Goal) (weight : α)
  /-- An enumeration has found none. -/
  | enumerationFailed (n : Nat) (goal : Goal)
  deriving DecidableEq

namespace Event

/-- The level of an event. -/
def level {α : Type} : Event α → Level
  | .flipped .. | .dualUpdate _ => .trace
  | .searched .. | .enumerated .. => .debug
  | .searchFailed .. | .enumerationFailed .. => .warn

/-- The size of a problem and its goal. -/
def problem (n : Nat) (goal : Goal) : String := s!"{n}x{n} " ++ goal.name

/-- The wording of an event. -/
def message : Event Float → String
  | .flipped row col => s!"flip ({row}, {col})"
  | .dualUpdate amount => "dual update by " ++ Layout.plain.text amount
  | .searched n goal ⟨augmentations, updates⟩ weight =>
    problem n goal ++ s!" matching: {augmentations} augmentations, {updates} dual updates, weight " ++
      Layout.plain.text weight
  | .searchFailed n goal error => problem n goal ++ " matching failed: " ++ error.message
  | .enumerated n goal weight => problem n goal ++ " enumeration: weight " ++ Layout.plain.text weight
  | .enumerationFailed n goal => problem n goal ++ " enumeration found no perfect matching"

end Event

/-- What one call of a matcher leads to: its outcome, the matcher afterwards, and the events on the way. -/
structure Solved (α M : Type) where
  outcome : Except (Failure α) Unit
  matcher : M
  events : List (Event α)

end PerfectMatching
