import ReducedSpace.Decimal.Dyadic
import ReducedSpace.Decimal.Scientific
import ReducedSpace.Decimal.Shortest
import ReducedSpace.Expression.Basic
import ReducedSpace.Expression.Op
import ReducedSpace.Fault
import ReducedSpace.Ident
import ReducedSpace.Linear.Dense
import ReducedSpace.Linear.Factorization
import ReducedSpace.Linear.RemovalOrder
import ReducedSpace.Linear.SparseVector
import ReducedSpace.Linear.Triplets
import ReducedSpace.Newton.Config
import ReducedSpace.Newton.Solve
import ReducedSpace.Number.Binary
import ReducedSpace.Number.Dual
import ReducedSpace.Number.Power
import ReducedSpace.Number.Scalar
import ReducedSpace.Reduction.Curvature
import ReducedSpace.Reduction.Error
import ReducedSpace.Reduction.Partition
import ReducedSpace.Reduction.ReducedModel
import ReducedSpace.Reduction.Resolve
import ReducedSpace.Reduction.Sensitivity
import ReducedSpace.System.Block
import ReducedSpace.System.Error
import ReducedSpace.System.Lagrangian
import ReducedSpace.System.Model
import ReducedSpace.Tape.Basic
import ReducedSpace.Tape.Derivative
import ReducedSpace.Tape.Sweep
import ReducedSpace.Proofs.Expression.Variables
import ReducedSpace.Proofs.Expression.Value
import ReducedSpace.Proofs.Expression.Derivative
import ReducedSpace.Proofs.Tape.Layout
import ReducedSpace.Proofs.Tape.Compile
import ReducedSpace.Proofs.Tape.Adjoint
import ReducedSpace.Proofs.Tape.Gradient
import ReducedSpace.Proofs.Number.Rational
import ReducedSpace.Proofs.Expression.Dual
import ReducedSpace.Proofs.Tape.Hessian
import ReducedSpace.Proofs.System.Frame
import ReducedSpace.Proofs.System.Block
import ReducedSpace.Proofs.System.Lagrangian
import ReducedSpace.Proofs.Newton.Solve
import ReducedSpace.Proofs.Reduction.Partition
import ReducedSpace.Proofs.Reduction.Resolve
import ReducedSpace.Proofs.Reduction.Curvature
import ReducedSpace.Proofs.Reduction.History
import ReducedSpace.Proofs.Expression.Expansion
import ReducedSpace.Proofs.Linear.Dense
import ReducedSpace.Proofs.Linear.Triplets
import ReducedSpace.Proofs.Linear.Factorization
import ReducedSpace.Proofs.System.Derivatives
import ReducedSpace.Proofs.Reduction.Sensitivity
import ReducedSpace.Proofs.Reduction.Derivatives
import ReducedSpace.Proofs.Reduction.Solution
import ReducedSpace.Proofs.Reduction.Expansion
import ReducedSpace.Proofs.Tape.Recompile
import ReducedSpace.Proofs.Tape.Isolation
import ReducedSpace.Proofs.System.Selection
import ReducedSpace.Proofs.Reduction.Isolation
import ReducedSpace.Proofs.System.Jacobian
import ReducedSpace.Proofs.Reduction.Queries
import ReducedSpace.Proofs.Reduction.Cache
import ReducedSpace.Proofs.Reduction.Retraction
import ReducedSpace.Proofs.Number.Order
import ReducedSpace.Proofs.Newton.Iteration
import ReducedSpace.Proofs.Newton.Contract
import ReducedSpace.Proofs.Newton.Outcomes
import ReducedSpace.Proofs.System.Requests
import ReducedSpace.Proofs.Reduction.Shape
import ReducedSpace.Proofs.Reduction.Totality
import ReducedSpace.Proofs.Reduction.Failures
import ReducedSpace.Proofs.Reduction.Symmetry
import ReducedSpace.Proofs.Linear.RemovalOrder
import ReducedSpace.Proofs.Linear.SparseVector
import ReducedSpace.Proofs.Linear.Reach
import ReducedSpace.Proofs.Linear.Elimination
import ReducedSpace.Proofs.Linear.Substitution
import ReducedSpace.Proofs.Reduction.Singularity
import ReducedSpace.Proofs.Reduction.Rollback
import ReducedSpace.Proofs.Reduction.Inquiries
import ReducedSpace.Proofs.System.Moves
import ReducedSpace.Proofs.Linear.Completeness
import ReducedSpace.Proofs.System.Slopes
import ReducedSpace.Proofs.System.Neighbours
import ReducedSpace.Proofs.Newton.Reordering
import ReducedSpace.Proofs.Reduction.Reordering
import ReducedSpace.Proofs.Reduction.Equivariance
import ReducedSpace.Proofs.Reduction.Algebra
import ReducedSpace.Proofs.Expression.Affine
import ReducedSpace.Proofs.Newton.Affine
import ReducedSpace.Proofs.Tape.ConstantPower
import ReducedSpace.Proofs.Tape.Support
import ReducedSpace.Proofs.Linear.Entries
import ReducedSpace.Proofs.System.Pattern
import ReducedSpace.Proofs.System.Extraction
import ReducedSpace.Proofs.Linear.Invertible
import ReducedSpace.Proofs.Reduction.Validation
import ReducedSpace.Proofs.Tape.Extension
import ReducedSpace.Proofs.System.Extension
import ReducedSpace.Proofs.System.Growth
import ReducedSpace.Proofs.Reduction.Capture
import ReducedSpace.Proofs.Reduction.UnusedInputs
import ReducedSpace.Proofs.Expression.Rules
import ReducedSpace.Proofs.System.Numbering
import ReducedSpace.Proofs.Tape.Folding
import ReducedSpace.Proofs.Newton.Log
import ReducedSpace.Proofs.Newton.Termination
import ReducedSpace.Proofs.System.Variables
import ReducedSpace.Proofs.Tape.Structure
import ReducedSpace.Proofs.Tape.Exponents
