import MarkovCheck.Algebra.Monomial
import MarkovCheck.Algebra.Polynomial.Basic
import MarkovCheck.Algebra.Polynomial.Division
import MarkovCheck.Algebra.Polynomial.Gcd
import MarkovCheck.Algebra.Polynomial.PseudoDivision
import MarkovCheck.Algebra.Polynomial.Text
import MarkovCheck.Algebra.Polynomial.Univariate
import MarkovCheck.Algebra.RationalFunction
import MarkovCheck.Algebra.Valuation
import MarkovCheck.Bisim.Error
import MarkovCheck.Bisim.Preserved
import MarkovCheck.Bisim.Quotient
import MarkovCheck.Bisim.Reduce
import MarkovCheck.Bisim.Rounds
import MarkovCheck.Bisim.Signature
import MarkovCheck.Bisim.Validity
import MarkovCheck.Bisim.Worklist
import MarkovCheck.Chain.Builder
import MarkovCheck.Chain.Compressed
import MarkovCheck.Chain.Instantiate
import MarkovCheck.Chain.Labeling
import MarkovCheck.Chain.Model
import MarkovCheck.Chain.Predecessors
import MarkovCheck.Chain.StateSet
import MarkovCheck.Chain.Text
import MarkovCheck.Chain.Union
import MarkovCheck.CommandLine.Arguments
import MarkovCheck.CommandLine.Directory
import MarkovCheck.CommandLine.Path
import MarkovCheck.CommandLine.Progress
import MarkovCheck.CommandLine.Request
import MarkovCheck.CommandLine.Run
import MarkovCheck.CommandLine.Verbosity
import MarkovCheck.Decimal.Literal
import MarkovCheck.Decimal.Shortest
import MarkovCheck.Double.Basic
import MarkovCheck.Double.Rounding
import MarkovCheck.Double.Text
import MarkovCheck.Explicit.Error
import MarkovCheck.Explicit.Reader
import MarkovCheck.Explicit.Writer
import MarkovCheck.Logic.Formula
import MarkovCheck.Main
import MarkovCheck.Numbering
import MarkovCheck.Partition.Basic
import MarkovCheck.Partition.Marked
import MarkovCheck.Program.Build
import MarkovCheck.Program.CaseStudies
import MarkovCheck.Program.Choices
import MarkovCheck.Program.Constants
import MarkovCheck.Program.Error
import MarkovCheck.Program.Evaluation
import MarkovCheck.Program.Expression
import MarkovCheck.Program.Options
import MarkovCheck.Program.Syntax
import MarkovCheck.Program.Variables
import MarkovCheck.Proofs.Algebra.Monomial
import MarkovCheck.Proofs.Algebra.Polynomial
import MarkovCheck.Proofs.Algebra.PseudoDivision
import MarkovCheck.Reach.Check
import MarkovCheck.Reach.Graph
import MarkovCheck.Reach.LinearSystem
import MarkovCheck.Text.Blank
import MarkovCheck.Text.Grouped
import MarkovCheck.Text.Integer
import MarkovCheck.Text.Line
import MarkovCheck.Text.Names
import MarkovCheck.Text.Printed
import MarkovCheck.Text.Quoted
import MarkovCheck.Value.Basic
import MarkovCheck.Value.Cache
import MarkovCheck.Proofs.Algebra.Univariate
import MarkovCheck.Proofs.Algebra.Division
import MarkovCheck.Proofs.Algebra.Gcd
import MarkovCheck.Proofs.Algebra.RationalFunction
import MarkovCheck.Proofs.Algebra.Evaluation
import MarkovCheck.Proofs.Bisim.Signature
import MarkovCheck.Proofs.Bisim.Bisimulation
import MarkovCheck.Proofs.Bisim.Rounds
import MarkovCheck.Proofs.Partition.Basic
import MarkovCheck.Proofs.Partition.Distribution
import MarkovCheck.Proofs.Bisim.Preserved
import MarkovCheck.Proofs.Partition.Arrangement
import MarkovCheck.Proofs.Partition.Marked
import MarkovCheck.Proofs.Partition.Separate
import MarkovCheck.Proofs.Partition.Split
import MarkovCheck.Proofs.Partition.Operations
import MarkovCheck.Proofs.Bisim.Worklist
import MarkovCheck.Proofs.Bisim.Reduce
import MarkovCheck.Proofs.Chain.StateSet
import MarkovCheck.Proofs.Reach.Graph
import MarkovCheck.Proofs.Reach.LinearSystem
import MarkovCheck.Proofs.Reach.Harmonic
import MarkovCheck.Proofs.Reach.Equations
import MarkovCheck.Proofs.Reach.Until
import MarkovCheck.Proofs.Chain.Union
import MarkovCheck.Proofs.Bisim.Quotient
import MarkovCheck.Proofs.Bisim.Consistent
import MarkovCheck.Proofs.Reach.Reward
import MarkovCheck.Proofs.Bisim.Transfer
import MarkovCheck.Proofs.Bisim.Soundness
import MarkovCheck.Proofs.Bisim.Idempotent
import MarkovCheck.Proofs.Bisim.Joint
import MarkovCheck.Proofs.Bisim.Compare
import MarkovCheck.Proofs.Bisim.Exactness
import MarkovCheck.Proofs.Algebra.Computation
import MarkovCheck.Proofs.Algebra.Definedness
import MarkovCheck.Proofs.Algebra.Homomorphism
import MarkovCheck.Proofs.Algebra.Order
import MarkovCheck.Proofs.Chain.Evaluated
import MarkovCheck.Proofs.Chain.Merge
import MarkovCheck.Proofs.Reach.Evaluated
import MarkovCheck.Proofs.Program.Variables
import MarkovCheck.Proofs.Program.Semantics
import MarkovCheck.Proofs.Program.BreadthFirst
import MarkovCheck.Proofs.Program.Choices
import MarkovCheck.Proofs.Program.Values
import MarkovCheck.Proofs.Program.Exploration
import MarkovCheck.Proofs.Program.Moves
import MarkovCheck.Proofs.Program.Annotations
import MarkovCheck.Proofs.Program.Build
import MarkovCheck.Proofs.Program.Substitution
import MarkovCheck.Proofs.Program.Parameters
import MarkovCheck.Proofs.Program.Simulation
import MarkovCheck.Proofs.Program.Rewards
import MarkovCheck.Proofs.Program.Search
import MarkovCheck.Proofs.Program.Instance
import MarkovCheck.Proofs.Bisim.Validity
import MarkovCheck.Proofs.Chain.Conservation
import MarkovCheck.Proofs.Chain.StoredForm
import MarkovCheck.Proofs.Bisim.Conservation
import MarkovCheck.Proofs.Program.Conservation
import MarkovCheck.Proofs.Double.Rounding
import MarkovCheck.Proofs.Program.Positivity
import MarkovCheck.Proofs.Reach.Singular
import MarkovCheck.Proofs.Program.Labels
import MarkovCheck.Proofs.Program.Checking
import MarkovCheck.Proofs.Chain.Compressed
import MarkovCheck.Proofs.Chain.Entries
import MarkovCheck.Proofs.Chain.Operations
import MarkovCheck.Proofs.Reach.Dependence
import MarkovCheck.Proofs.Program.Selection
import MarkovCheck.Proofs.Text.Line
import MarkovCheck.Proofs.Text.Field
import MarkovCheck.Proofs.Text.Integer
import MarkovCheck.Proofs.Text.Words
import MarkovCheck.Proofs.Double.Bits
import MarkovCheck.Proofs.Decimal.Literal
import MarkovCheck.Proofs.Explicit.Lines
import MarkovCheck.Proofs.Explicit.Read
import MarkovCheck.Proofs.Occurrences
import MarkovCheck.Proofs.Double.Sum
import MarkovCheck.Proofs.Decimal.Shortest
import MarkovCheck.Proofs.Decimal.Positional
import MarkovCheck.Proofs.Double.Nearest
import MarkovCheck.Proofs.Double.Text
import MarkovCheck.Proofs.Explicit.Written
import MarkovCheck.Proofs.Explicit.RoundTrip
import MarkovCheck.Proofs.Bisim.Iterations
import MarkovCheck.Proofs.Reach.Horizon
import MarkovCheck.Proofs.Reach.Expectation
import MarkovCheck.Proofs.Algebra.LeadingTerm
import MarkovCheck.Proofs.Reach.Paths
import MarkovCheck.Proofs.Chain.Permutation
import MarkovCheck.Proofs.Algebra.Coefficients
import MarkovCheck.Proofs.Decimal.Grammar
import MarkovCheck.Proofs.Program.Meaning
import MarkovCheck.Proofs.Program.Agreement
import MarkovCheck.Partition.Grouping
import MarkovCheck.Proofs.Partition.Grouping
import MarkovCheck.Proofs.Logic.Formula
import MarkovCheck.Proofs.Chain.Labeling
import MarkovCheck.Proofs.Chain.Instantiate
import MarkovCheck.Proofs.Algebra.OrderedMonoid
import MarkovCheck.Proofs.Algebra.PrimitivePart
import MarkovCheck.Proofs.Reach.Precomputation
import MarkovCheck.Proofs.Algebra.UnivariateView
import MarkovCheck.Proofs.Bisim.SharedCache
