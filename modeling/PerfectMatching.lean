import PerfectMatching.Assignment
import PerfectMatching.Assignment.Json
import PerfectMatching.CommandLine.Disk
import PerfectMatching.CommandLine.Options
import PerfectMatching.CommandLine.Run
import PerfectMatching.Decimal
import PerfectMatching.Decimal.Layout
import PerfectMatching.Decimal.Numeral
import PerfectMatching.Decimal.Shortest
import PerfectMatching.Enumeration
import PerfectMatching.Event
import PerfectMatching.Failure
import PerfectMatching.Goal
import PerfectMatching.History
import PerfectMatching.Json
import PerfectMatching.Json.Number
import PerfectMatching.Json.Standard
import PerfectMatching.Main
import PerfectMatching.Matching
import PerfectMatching.Permutations
import PerfectMatching.PrimalDual
import PerfectMatching.PrimalDual.Augment
import PerfectMatching.PrimalDual.Certificate
import PerfectMatching.PrimalDual.Image
import PerfectMatching.PrimalDual.Round
import PerfectMatching.PrimalDual.Search
import PerfectMatching.PrimalDual.State
import PerfectMatching.PrimalDual.Tight
import PerfectMatching.Proofs.Augmentation
import PerfectMatching.Proofs.Binary64.Arithmetic
import PerfectMatching.Proofs.Binary64.Decimals
import PerfectMatching.Proofs.Binary64.Lawful
import PerfectMatching.Proofs.Binary64.Opposite
import PerfectMatching.Proofs.Binary64.Order
import PerfectMatching.Proofs.Binary64.Packed
import PerfectMatching.Proofs.Binary64.Rounding
import PerfectMatching.Proofs.Binary64.Unpacked
import PerfectMatching.Proofs.Binary64.Whole
import PerfectMatching.Proofs.Built
import PerfectMatching.Proofs.Calls
import PerfectMatching.Proofs.Certificate
import PerfectMatching.Proofs.Certified
import PerfectMatching.Proofs.Comparison
import PerfectMatching.Proofs.CompleteGraphs
import PerfectMatching.Proofs.Completeness
import PerfectMatching.Proofs.Contract
import PerfectMatching.Proofs.Duality
import PerfectMatching.Proofs.Effort
import PerfectMatching.Proofs.Entries
import PerfectMatching.Proofs.Enumeration
import PerfectMatching.Proofs.Grammar
import PerfectMatching.Proofs.Histories
import PerfectMatching.Proofs.Invariant
import PerfectMatching.Proofs.InverseLists
import PerfectMatching.Proofs.Json.Assignments
import PerfectMatching.Proofs.Json.Documents
import PerfectMatching.Proofs.Json.Solved
import PerfectMatching.Proofs.Json.Standard
import PerfectMatching.Proofs.Json.Weights
import PerfectMatching.Proofs.LargestMatching
import PerfectMatching.Proofs.Lockstep
import PerfectMatching.Proofs.Margin
import PerfectMatching.Proofs.Negation
import PerfectMatching.Proofs.Numerals
import PerfectMatching.Proofs.Optimality
import PerfectMatching.Proofs.Perfect
import PerfectMatching.Proofs.Permutations
import PerfectMatching.Proofs.Preference
import PerfectMatching.Proofs.Publish
import PerfectMatching.Proofs.RangeCheck
import PerfectMatching.Proofs.Refutation
import PerfectMatching.Proofs.ReportedWeight
import PerfectMatching.Proofs.Reuse
import PerfectMatching.Proofs.RoundTrip
import PerfectMatching.Proofs.Rows
import PerfectMatching.Proofs.Runs
import PerfectMatching.Proofs.Scalar.Exact
import PerfectMatching.Proofs.Scalar.Extrema
import PerfectMatching.Proofs.Scalar.Faithful
import PerfectMatching.Proofs.Scalar.Lawful
import PerfectMatching.Proofs.Scalar.Sums
import PerfectMatching.Proofs.Search.AllEdges
import PerfectMatching.Proofs.Search.Budget
import PerfectMatching.Proofs.Search.Drift
import PerfectMatching.Proofs.Search.Flip
import PerfectMatching.Proofs.Search.Lockstep
import PerfectMatching.Proofs.Search.Numbers
import PerfectMatching.Proofs.Search.Reachability
import PerfectMatching.Proofs.Search.Rounds
import PerfectMatching.Proofs.Search.Scan
import PerfectMatching.Proofs.Search.Steps
import PerfectMatching.Proofs.Search.Trees
import PerfectMatching.Proofs.Search.Verdict
import PerfectMatching.Proofs.Search.WholeNumbers
import PerfectMatching.Proofs.Shift
import PerfectMatching.Proofs.Signs
import PerfectMatching.Proofs.Slacks
import PerfectMatching.Proofs.Soundness
import PerfectMatching.Proofs.Tolerance
import PerfectMatching.Proofs.Translation
import PerfectMatching.Proofs.WholeShift
import PerfectMatching.Proofs.WholeWeights
import PerfectMatching.Scalar
import PerfectMatching.Scalar.Exact
import PerfectMatching.Solver
import PerfectMatching.Text.Blank
import PerfectMatching.Text.Extending
import PerfectMatching.Text.Quoted
import PerfectMatching.Text.Unprintable
import PerfectMatching.Weights
import PerfectMatching.Weights.Built
import PerfectMatching.Weights.Grammar
import PerfectMatching.Weights.Sample
import PerfectMatching.Weights.Text
