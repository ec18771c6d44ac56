import ConstrainedOpt.Barrier
import ConstrainedOpt.Decimal.Digits
import ConstrainedOpt.Decimal.Reader
import ConstrainedOpt.Decimal.Scientific
import ConstrainedOpt.Decimal.Shortest
import ConstrainedOpt.Diagnostics
import ConstrainedOpt.Diagnostics.Checks
import ConstrainedOpt.Diagnostics.Random
import ConstrainedOpt.Failure
import ConstrainedOpt.Failure.Source
import ConstrainedOpt.Journal
import ConstrainedOpt.Matrix
import ConstrainedOpt.Matrix.Layout
import ConstrainedOpt.Matrix.Product
import ConstrainedOpt.Messaging
import ConstrainedOpt.Operator
import ConstrainedOpt.Parameters
import ConstrainedOpt.Parameters.Environment
import ConstrainedOpt.Problem
import ConstrainedOpt.Problem.Perturbed
import ConstrainedOpt.Problem.Polynomial
import ConstrainedOpt.Problem.Quadratic
import ConstrainedOpt.QuasiNewton
import ConstrainedOpt.Registry
import ConstrainedOpt.Registry.Catalogue
import ConstrainedOpt.Registry.Choices
import ConstrainedOpt.Registry.Location
import ConstrainedOpt.Registry.StopReasons
import ConstrainedOpt.Run.Entry
import ConstrainedOpt.Run.Gradient
import ConstrainedOpt.Run.Iteration
import ConstrainedOpt.Run.LineSearch
import ConstrainedOpt.Run.Monad
import ConstrainedOpt.Run.Rule
import ConstrainedOpt.Run.State
import ConstrainedOpt.Run.Table
import ConstrainedOpt.Run.TrustRegion
import ConstrainedOpt.Run.UserStep
import ConstrainedOpt.Scalar
import ConstrainedOpt.Scalar.Binary64
import ConstrainedOpt.Scalar.Dyadic
import ConstrainedOpt.Solver
import ConstrainedOpt.Step.Error
import ConstrainedOpt.Step.NormalEquations
import ConstrainedOpt.Step.Quasinormal
import ConstrainedOpt.Step.Safeguard
import ConstrainedOpt.Step.Sphere
import ConstrainedOpt.Step.TruncatedCG
import ConstrainedOpt.Step.TruncatedCG.Ring
import ConstrainedOpt.Text.Blank
import ConstrainedOpt.Text.Column
import ConstrainedOpt.Vec
import ConstrainedOpt.Vec.Orthant
import ConstrainedOpt.Proofs.Assertion.History
import ConstrainedOpt.Proofs.Assertion.Journaled
import ConstrainedOpt.Proofs.Assertion.Running
import ConstrainedOpt.Proofs.Certificate
import ConstrainedOpt.Proofs.Containment.Composite
import ConstrainedOpt.Proofs.Containment.Lengths
import ConstrainedOpt.Proofs.Containment.Points
import ConstrainedOpt.Proofs.Containment.Runs
import ConstrainedOpt.Proofs.Exact.Gradient
import ConstrainedOpt.Proofs.Exact.Number
import ConstrainedOpt.Proofs.Exact.Operator
import ConstrainedOpt.Proofs.Exact.Strict
import ConstrainedOpt.Proofs.Exact.Vector
import ConstrainedOpt.Proofs.History.Faults
import ConstrainedOpt.Proofs.History.Intact
import ConstrainedOpt.Proofs.History.Requests
import ConstrainedOpt.Proofs.History.Steps
import ConstrainedOpt.Proofs.Interior
import ConstrainedOpt.Proofs.Parameters
import ConstrainedOpt.Proofs.Reduction.Predicted
import ConstrainedOpt.Proofs.Reduction.Runs
import ConstrainedOpt.Proofs.Run.Course
import ConstrainedOpt.Proofs.Run.Effects
import ConstrainedOpt.Proofs.Run.Gradient
import ConstrainedOpt.Proofs.Run.Kept
import ConstrainedOpt.Proofs.Run.Loop
import ConstrainedOpt.Proofs.Run.Opening
import ConstrainedOpt.Proofs.Run.Search
import ConstrainedOpt.Proofs.Run.Step
import ConstrainedOpt.Proofs.Scalar.Absorbing
import ConstrainedOpt.Proofs.Step.Boundary
import ConstrainedOpt.Proofs.Step.Descent
import ConstrainedOpt.Proofs.Step.Krylov
import ConstrainedOpt.Proofs.Step.NormalEquations
import ConstrainedOpt.Proofs.Step.Quasinormal
import ConstrainedOpt.Proofs.Step.Safeguard
import ConstrainedOpt.Proofs.Step.Sphere
import ConstrainedOpt.Proofs.Step.TruncatedCG
import ConstrainedOpt.Proofs.Vec.Length
import ConstrainedOpt.Proofs.Reduction.Merit
import ConstrainedOpt.Proofs.Quadratic.Attempts
import ConstrainedOpt.Proofs.Diagnostics
import ConstrainedOpt.Proofs.Quadratic.Runs
import ConstrainedOpt.Proofs.Quadratic.Solutions
import ConstrainedOpt.Proofs.Reuse.Runs
import ConstrainedOpt.Proofs.Route.Budgets
import ConstrainedOpt.Proofs.Completion.Runs
import ConstrainedOpt.Proofs.Derivatives
import ConstrainedOpt.Proofs.Globalization.Attempts
import ConstrainedOpt.Proofs.Globalization.Runs
import ConstrainedOpt.Proofs.Secants.Pairs
import ConstrainedOpt.Proofs.Secants.Steps
import ConstrainedOpt.Proofs.Secants.Runs
import ConstrainedOpt.Proofs.Secants.Iterates
import ConstrainedOpt.Proofs.Step.Cauchy
import ConstrainedOpt.Proofs.Step.Moves
import ConstrainedOpt.Proofs.Step.Reach
import ConstrainedOpt.Proofs.Step.Turns
import ConstrainedOpt.Proofs.Step.Recurrence
import ConstrainedOpt.Proofs.Step.Segments
import ConstrainedOpt.Proofs.Step.Downhill
import ConstrainedOpt.Proofs.Step.Unguarded
import ConstrainedOpt.Proofs.Step.Fractions
import ConstrainedOpt.Proofs.Step.Restoration
import ConstrainedOpt.Proofs.Reporting.Runs
import ConstrainedOpt.Proofs.Verdict
import ConstrainedOpt.Proofs.Multipliers.Solves
import ConstrainedOpt.Proofs.Multipliers.Runs
import ConstrainedOpt.Proofs.Run.Newton
import ConstrainedOpt.Proofs.Step.Consistent
import ConstrainedOpt.Proofs.Step.Breakdown
import ConstrainedOpt.Proofs.Sizes.Refusals
import ConstrainedOpt.Proofs.Step.Overflow
import ConstrainedOpt.Proofs.Scalar.Comparable
import ConstrainedOpt.Proofs.Step.Slack
import ConstrainedOpt.Proofs.QuasiNewton.Curvature
import ConstrainedOpt.Proofs.QuasiNewton.Duality
import ConstrainedOpt.Proofs.QuasiNewton.Inverse
import ConstrainedOpt.Proofs.QuasiNewton.RankOne
import ConstrainedOpt.Proofs.QuasiNewton.Reproduction
import ConstrainedOpt.Proofs.GoldenSection
import ConstrainedOpt.Proofs.Matrix.Positions
import ConstrainedOpt.Proofs.Matrix.Writes
import ConstrainedOpt.Proofs.Failure.Capture
import ConstrainedOpt.Proofs.Failure.Lines
import ConstrainedOpt.Proofs.Diagnostics.DegreeTwo
import ConstrainedOpt.Proofs.Route.Directions
import ConstrainedOpt.Proofs.Secants.Conjugate
import ConstrainedOpt.Proofs.Step.Exits
import ConstrainedOpt.Proofs.Step.Recall
