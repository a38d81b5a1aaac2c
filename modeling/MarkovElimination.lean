import MarkovElimination.Checking.Conditional
import MarkovElimination.Checking.Error
import MarkovElimination.Checking.Property
import MarkovElimination.Checking.Reachability
import MarkovElimination.Checking.Result
import MarkovElimination.Checking.Satisfaction
import MarkovElimination.Checking.Subsystem
import MarkovElimination.Command.Arguments
import MarkovElimination.Command.Outcome
import MarkovElimination.Elimination.Config
import MarkovElimination.Elimination.Constant
import MarkovElimination.Elimination.Monitor
import MarkovElimination.Elimination.Problem
import MarkovElimination.Elimination.Ranking
import MarkovElimination.Elimination.Step
import MarkovElimination.Elimination.Strategy
import MarkovElimination.Elimination.WorkStack
import MarkovElimination.Fault
import MarkovElimination.Formula.Basic
import MarkovElimination.Formula.Reading
import MarkovElimination.Formula.Token
import MarkovElimination.Graph.Basic
import MarkovElimination.Graph.ComponentSearch
import MarkovElimination.Graph.Components
import MarkovElimination.Graph.Distance
import MarkovElimination.Graph.Search
import MarkovElimination.Graph.Trimming
import MarkovElimination.Main
import MarkovElimination.Matrix.Basic
import MarkovElimination.Matrix.Builder
import MarkovElimination.Matrix.Instance
import MarkovElimination.Matrix.Row
import MarkovElimination.Model.Builder
import MarkovElimination.Model.Call
import MarkovElimination.Model.Chain
import MarkovElimination.Model.Error
import MarkovElimination.Model.Files
import MarkovElimination.Model.Path
import MarkovElimination.Model.Reading
import MarkovElimination.Number.Binary64
import MarkovElimination.Number.Float
import MarkovElimination.Number.Rational
import MarkovElimination.Number.Reading
import MarkovElimination.Number.Shortest
import MarkovElimination.Polynomial.Basic
import MarkovElimination.Polynomial.Checked
import MarkovElimination.Polynomial.Division
import MarkovElimination.Polynomial.Gcd
import MarkovElimination.Polynomial.Monomial
import MarkovElimination.Polynomial.Range
import MarkovElimination.Proofs.Checking.Answer
import MarkovElimination.Proofs.Checking.Cancellation
import MarkovElimination.Proofs.Checking.Conditional
import MarkovElimination.Proofs.Checking.Instantiation
import MarkovElimination.Proofs.Checking.Reward
import MarkovElimination.Proofs.Checking.Subsystem
import MarkovElimination.Proofs.Checking.Until
import MarkovElimination.Proofs.Elimination.Bypass
import MarkovElimination.Proofs.Elimination.Cancellation
import MarkovElimination.Proofs.Elimination.ChainForm
import MarkovElimination.Proofs.Elimination.Chains
import MarkovElimination.Proofs.Elimination.Collapse
import MarkovElimination.Proofs.Elimination.Conservation
import MarkovElimination.Proofs.Elimination.Consistency
import MarkovElimination.Proofs.Elimination.Constant
import MarkovElimination.Proofs.Elimination.Depth
import MarkovElimination.Proofs.Elimination.Driver
import MarkovElimination.Proofs.Elimination.Equations
import MarkovElimination.Proofs.Elimination.Harmonic
import MarkovElimination.Proofs.Elimination.KeptRows
import MarkovElimination.Proofs.Elimination.Leakage
import MarkovElimination.Proofs.Elimination.OrderIndependence
import MarkovElimination.Proofs.Elimination.Progress
import MarkovElimination.Proofs.Elimination.Ranking
import MarkovElimination.Proofs.Elimination.Reports
import MarkovElimination.Proofs.Elimination.Resumption
import MarkovElimination.Proofs.Elimination.Schedule
import MarkovElimination.Proofs.Elimination.Sides
import MarkovElimination.Proofs.Elimination.Strategy
import MarkovElimination.Proofs.Elimination.Substitution
import MarkovElimination.Proofs.Elimination.WorkStack
import MarkovElimination.Proofs.Fault
import MarkovElimination.Proofs.Formula.Grammar
import MarkovElimination.Proofs.Formula.RoundTrip
import MarkovElimination.Proofs.Graph.ComponentSearch
import MarkovElimination.Proofs.Graph.Decomposition
import MarkovElimination.Proofs.Graph.Distance
import MarkovElimination.Proofs.Graph.Layers
import MarkovElimination.Proofs.Graph.Search
import MarkovElimination.Proofs.Graph.StrongComponents
import MarkovElimination.Proofs.Graph.Trimming
import MarkovElimination.Proofs.Kernel.Comparison
import MarkovElimination.Proofs.Kernel.Joint
import MarkovElimination.Proofs.Kernel.Reward
import MarkovElimination.Proofs.Kernel.Until
import MarkovElimination.Proofs.Matrix.Builder
import MarkovElimination.Proofs.Matrix.Extraction
import MarkovElimination.Proofs.Matrix.Row
import MarkovElimination.Proofs.Matrix.Shape
import MarkovElimination.Proofs.Model.Building
import MarkovElimination.Proofs.Model.CallOrder
import MarkovElimination.Proofs.Model.Path
import MarkovElimination.Proofs.Model.Qualitative
import MarkovElimination.Proofs.Model.Restriction
import MarkovElimination.Proofs.Model.Semantics
import MarkovElimination.Proofs.Number.Decimal
import MarkovElimination.Proofs.Number.Difference
import MarkovElimination.Proofs.Number.Rounding
import MarkovElimination.Proofs.Outcome
import MarkovElimination.Proofs.Polynomial.Canonical
import MarkovElimination.Proofs.Polynomial.Checked
import MarkovElimination.Proofs.Polynomial.Degree
import MarkovElimination.Proofs.Polynomial.Divisibility
import MarkovElimination.Proofs.Polynomial.Division
import MarkovElimination.Proofs.Polynomial.DivisionRange
import MarkovElimination.Proofs.Polynomial.Evaluation
import MarkovElimination.Proofs.Polynomial.Gcd
import MarkovElimination.Proofs.Polynomial.MonicGcd
import MarkovElimination.Proofs.Polynomial.Monomial
import MarkovElimination.Proofs.Polynomial.MonomialOrder
import MarkovElimination.Proofs.Polynomial.Range
import MarkovElimination.Proofs.Polynomial.Representation
import MarkovElimination.Proofs.Polynomial.Ring
import MarkovElimination.Proofs.Polynomial.Univariate
import MarkovElimination.Proofs.RationalFunction.Arithmetic
import MarkovElimination.Proofs.RationalFunction.CanonicalForm
import MarkovElimination.Proofs.RationalFunction.Evaluation
import MarkovElimination.Proofs.RationalFunction.FractionField
import MarkovElimination.Proofs.RationalFunction.Grammar
import MarkovElimination.Proofs.RationalFunction.Homomorphism
import MarkovElimination.Proofs.RationalFunction.Numeral
import MarkovElimination.Proofs.RationalFunction.Operation
import MarkovElimination.Proofs.RationalFunction.Reading
import MarkovElimination.Proofs.RationalFunction.RoundTrip
import MarkovElimination.Proofs.RationalFunction.Token
import MarkovElimination.Proofs.RationalFunction.Valuation
import MarkovElimination.Proofs.StateSet
import MarkovElimination.Proofs.Text
import MarkovElimination.Proofs.Weight.Interpretation
import MarkovElimination.RationalFunction.Basic
import MarkovElimination.RationalFunction.Reading
import MarkovElimination.RationalFunction.Token
import MarkovElimination.RationalFunction.Weight
import MarkovElimination.StateSet
import MarkovElimination.Text.Alphanumeric
import MarkovElimination.Text.Blank
import MarkovElimination.Text.Numeral
import MarkovElimination.Weight
