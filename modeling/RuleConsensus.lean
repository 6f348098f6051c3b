import RuleConsensus.Consensus.Round
import RuleConsensus.Grounding.Document
import RuleConsensus.Json.Message
import RuleConsensus.Minimizer.Sample
import RuleConsensus.Term.Fallback
import RuleConsensus.Proofs.Binary.Finite
import RuleConsensus.Proofs.Binary.Order
import RuleConsensus.Proofs.Binary.Value
import RuleConsensus.Proofs.Binary.Rounding
import RuleConsensus.Proofs.Binary.Arithmetic
import RuleConsensus.Proofs.Consensus.Balance
import RuleConsensus.Proofs.Consensus.Conservation
import RuleConsensus.Proofs.Consensus.Descent
import RuleConsensus.Proofs.Consensus.Energy
import RuleConsensus.Proofs.Consensus.FixedPoint
import RuleConsensus.Proofs.Consensus.Reordered
import RuleConsensus.Proofs.Consensus.Retry
import RuleConsensus.Proofs.Consensus.Tracing
import RuleConsensus.Proofs.Decimal.Written
import RuleConsensus.Proofs.Exact.Coordinates
import RuleConsensus.Proofs.Exact.Cost
import RuleConsensus.Proofs.Exact.Nonexpansive
import RuleConsensus.Proofs.Exact.Profile
import RuleConsensus.Proofs.Exact.Secant
import RuleConsensus.Proofs.Exact.Stationary
import RuleConsensus.Proofs.Grounding.Acceptance
import RuleConsensus.Proofs.Grounding.RoundTrip
import RuleConsensus.Proofs.Json.Reads
import RuleConsensus.Proofs.Json.Records
import RuleConsensus.Proofs.Json.Scanned
import RuleConsensus.Proofs.Json.Trees
import RuleConsensus.Proofs.Json.Yields
import RuleConsensus.Proofs.Minimizer.Points
import RuleConsensus.Proofs.Term.Accepted
import RuleConsensus.Proofs.Term.Alike
import RuleConsensus.Proofs.Term.Demand
import RuleConsensus.Proofs.Term.Frame
import RuleConsensus.Proofs.Term.Indices
import RuleConsensus.Proofs.Term.Run
import RuleConsensus.Proofs.Term.Step
import RuleConsensus.Proofs.Term.WellFormed
import RuleConsensus.Proofs.Json.LaidOut
import RuleConsensus.Proofs.Grounding.Rewriting
import RuleConsensus.Proofs.Json.Fields
import RuleConsensus.Proofs.Settings.Document
import RuleConsensus.Proofs.Settings.Request
import RuleConsensus.Proofs.Minimizer.Course
import RuleConsensus.Proofs.Minimizer.Faults
import RuleConsensus.Proofs.Minimizer.Improvement
import RuleConsensus.Proofs.Exact.Growth
import RuleConsensus.Proofs.Exact.HingeMinimizers
import RuleConsensus.Proofs.Exact.Projection
import RuleConsensus.Proofs.Exact.Accuracy
import RuleConsensus.Proofs.Exact.Convexity
import RuleConsensus.Proofs.Term.Pivots
import RuleConsensus.Proofs.Binary.Drift
import RuleConsensus.Proofs.Term.Residual
import RuleConsensus.Proofs.Term.Stopping
import RuleConsensus.Proofs.Binary.Squares
import RuleConsensus.Proofs.Exact.Penalty
import RuleConsensus.Proofs.Minimizer.Differences
import RuleConsensus.Proofs.Term.Containment
import RuleConsensus.Proofs.Term.Feasibility
import RuleConsensus.Proofs.Term.Weightless
