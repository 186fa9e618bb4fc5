import Surd.Main
import Surd.Calculator
import Surd.Expr.Shape
import Surd.Expr.Value
import Surd.Expr.Polynomial
import Surd.Expr.RootMonomial
import Surd.Grammar
import Surd.Canonical
import Surd.Proofs.SquareSplit
import Surd.Proofs.Outcome
import Surd.Proofs.Combine
import Surd.Proofs.Names
import Surd.Proofs.Leftovers
import Surd.Proofs.Fixed
import Surd.Proofs.Canonical
import Surd.Proofs.Written
import Surd.Proofs.Stable
import Surd.Proofs.Idempotent
import Surd.Proofs.Derivations
import Surd.Proofs.Acceptance
import Surd.Proofs.Lexemes
import Surd.Proofs.RoundTrip
import Surd.Proofs.Keys
import Surd.Proofs.Meaning
import Surd.Proofs.TermMeaning
import Surd.Proofs.Preservation
import Surd.Proofs.Expanded
import Surd.Proofs.Polynomial
import Surd.Proofs.Multiplicity
import Surd.Proofs.RootMonomials
import Surd.Proofs.Rejection
import Surd.Proofs.Unsupported
import Surd.Proofs.Settling
import Surd.Proofs.Termination
import Surd.Simplifier.Counting
import Surd.Simplifier
import Surd.Simplifier.Program
import Surd.Proofs.Grouping
import Surd.Proofs.NegativeInteger
import Surd.Proofs.Counting
import Surd.Proofs.Reuse
import Surd.Proofs.Scaling
import Surd.Proofs.Operands
import Surd.Proofs.AddendOrder
import Surd.Proofs.Commuting
import Surd.Proofs.RootOrder
import Surd.Proofs.FactorOrder
import Surd.Proofs.Stages
import Surd.Proofs.ImplicitProduct
import Surd.Proofs.DirectRoots
import Surd.Proofs.Shallow
import Surd.Proofs.FlatSums
import Surd.Proofs.TokenSpans
