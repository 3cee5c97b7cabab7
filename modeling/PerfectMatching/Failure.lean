import PerfectMatching.Decimal.Layout
import PerfectMatching.Text.Quoted

/-!
# What can go wrong

Every failure is a cause with the numbers or tokens that show it; `Failure.message` holds all the wording. Nothing is ever
downgraded to a partial result: a matcher that fails holds no matching until its next success.
-/

namespace PerfectMatching

/-- Why a text is no matrix of weights. -/
inductive TextDefect where
  /-- The text has no token at all. -/
  | missingDimension
  /-- The first token is no natural number below `2 ^ 64`. -/
  | badDimension (token : List Char)
  /-- The square of the dimension is not below `2 ^ 64`. -/
  | dimensionTooLarge (n : Nat)
  /-- A token is neither a forbidden edge nor a finite weight. -/
  | badWeight (token : List Char)
  /-- The text ends before the last weight. -/
  | tooFew (expected found : Nat)
  /-- A token follows the last weight. -/
  | trailing (token : List Char)
  /-- A defect that another reader describes in its own words. -/
  | other (text : String)
  deriving DecidableEq

/-- The wording of a defect. -/
def TextDefect.message : TextDefect → String
  | .missingDimension => "missing dimension"
  | .badDimension token => "bad dimension " ++ String.ofList (Text.quote token)
  | .dimensionTooLarge n => s!"dimension {n} too large"
  | .badWeight token => "bad weight " ++ String.ofList (Text.quote token)
  | .tooFew expected found => s!"expected {expected} weights, found {found}"
  | .trailing token => "trailing token " ++ String.ofList (Text.quote token)
  | .other text => text

/-- Which part of a matcher's bookkeeping contradicts another. -/
inductive Inconsistency where
  /-- The column an augmenting path ends in is matched. -/
  | pathEndsMatched
  /-- A column on the path is matched to another row than the one that releases it. -/
  | claimedTwice
  /-- A column on the path was never reached. -/
  | columnUnreached
  /-- A row on the path was never reached. -/
  | rowUnreached
  /-- Following the path back visits more rows than there are. -/
  | pathWithoutRoot
  /-- The search was given up after as many rounds as it can take. -/
  | searchUnfinished
  /-- A row has no mate at the end. -/
  | rowUnmatched
  /-- A column has no mate at the end. -/
  | columnUnmatched
  /-- The mates of the rows and those of the columns disagree. -/
  | notInverse
  /-- A matched edge is forbidden. -/
  | forbiddenMatch
  /-- A certificate was asked for something that is no perfect matching. -/
  | notPermutation
  /-- A dual variable is negative. -/
  | negativeDual
  /-- An edge outweighs the dual variables of its ends. -/
  | dualInfeasible
  /-- The weight of the matching and the bound of the dual variables differ. -/
  | objectivesDiffer
  /-- A contradiction that is described in its own words. -/
  | other (text : String)
  deriving DecidableEq

/-- The wording of a contradiction. -/
def Inconsistency.message : Inconsistency → String
  | .pathEndsMatched => "augmenting path ends at a matched T-node"
  | .claimedTwice => "T-node claimed by two S-nodes"
  | .columnUnreached => "augmenting path reaches an unlabeled T-node"
  | .rowUnreached => "augmenting path reaches an unlabeled S-node"
  | .pathWithoutRoot => "augmenting path never reaches a root"
  | .searchUnfinished => "search never ends"
  | .rowUnmatched => "S-node left unmatched"
  | .columnUnmatched => "T-node left unmatched"
  | .notInverse => "matching arrays are not mutually inverse"
  | .forbiddenMatch => "matched a forbidden edge"
  | .notPermutation => "matching is not a permutation"
  | .negativeDual => "negative dual variable"
  | .dualInfeasible => "dual not feasible"
  | .objectivesDiffer => "primal dual mismatch"
  | .other text => text

/-- Everything that can keep a matcher, or the reader of its input, from an answer. -/
inductive Failure (α : Type) where
  /-- A matrix has another dimension than the matcher, or a row another length than there are rows. -/
  | sizeMismatch (expected found : Nat)
  /-- An entry is neither a finite weight nor a forbidden edge. -/
  | notFinite (row col : Nat)
  /-- Every edge is forbidden. -/
  | noEdge
  /-- The edges that are allowed admit no perfect matching; so many nodes of a side could be matched. -/
  | noPerfectMatching (matched n : Nat)
  /-- The weights cannot be shifted so that all of them are positive and finite. -/
  | unshiftable (min max : α)
  /-- The bookkeeping of a matcher contradicts itself. -/
  | inconsistent (cause : Inconsistency)
  /-- There are too many permutations to try. -/
  | tooLarge (n limit : Nat)
  /-- There is no matcher of this name. -/
  | unknownMethod (name : String)
  /-- A text is no matrix of weights. -/
  | malformed (defect : TextDefect)
  deriving DecidableEq

/-- The wording of an error. -/
def Failure.message : Failure Float → String
  | .sizeMismatch expected found => s!"badly sized weight array: expected {expected}, found {found}"
  | .notFinite row col => s!"non-finite weight at ({row}, {col})"
  | .noEdge => "no minimum weight: every edge is forbidden"
  | .noPerfectMatching matched n => s!"no perfect matching possible: matched {matched} of {n}"
  | .unshiftable min max =>
    "weights span [" ++ Layout.plain.text min ++ ", " ++ Layout.plain.text max ++ "] cannot be shifted positive"
  | .inconsistent cause => "inconsistent matching state: " ++ cause.message
  | .tooLarge n limit => s!"problem too large to enumerate: {n} > {limit}"
  | .unknownMethod name => "unknown matcher type: " ++ name
  | .malformed defect => "invalid weight matrix: " ++ defect.message

end PerfectMatching
