import Polyadic.Session
import Polyadic.Workload
import Polyadic.Proofs.Filling
import Polyadic.Proofs.EmptyUnions
import Polyadic.Proofs.Stages
import Polyadic.Proofs.Outcome
import Polyadic.Proofs.Extension
import Polyadic.Proofs.Rules
import Polyadic.Proofs.Soundness
import Polyadic.Proofs.Completeness
import Polyadic.Proofs.Replay
import Polyadic.Proofs.Lockstep
import Polyadic.Proofs.Realization
import Polyadic.Proofs.Checking
import Polyadic.Proofs.Ambiguity
import Polyadic.Proofs.Invariants
import Polyadic.Proofs.Occurrence
import Polyadic.Proofs.DisjointUnion
import Polyadic.Proofs.Values
import Polyadic.Proofs.Instantiation
import Polyadic.Proofs.References
import Polyadic.Proofs.Recursion
import Polyadic.Proofs.Anchoring
import Polyadic.Proofs.NormalForms
import Polyadic.Proofs.Hygiene
import Polyadic.Proofs.Inversion
import Polyadic.Proofs.Becoming
import Polyadic.Proofs.Carrying
import Polyadic.Proofs.Commutation
import Polyadic.Proofs.Positions
import Polyadic.Proofs.Framing
import Polyadic.Proofs.AnchorReports
import Polyadic.Proofs.Constraints
import Polyadic.Proofs.Registration
import Polyadic.Proofs.ExtraKeywords
import Polyadic.Proofs.Acceptance
import Polyadic.Proofs.KeywordOrder
import Polyadic.Proofs.ReportedTypes
import Polyadic.Proofs.SplitReports
import Polyadic.Proofs.SelfMatching
import Polyadic.Proofs.WrappedForms
import Polyadic.Proofs.FailureCauses
import Polyadic.Proofs.SingleTuple
import Polyadic.Proofs.DepthLimit
import Polyadic.Proofs.ArgumentSpelling
import Polyadic.Proofs.CanonicalTypes
import Polyadic.Proofs.UniqueTexts
import Polyadic.Proofs.Scaling
import Polyadic.Proofs.Mirroring
import Polyadic.Proofs.Histories
import Polyadic.Proofs.FaithfulLogs
import Polyadic.Proofs.Rounds
import Polyadic.Proofs.Bounds
import Polyadic.Proofs.Descent
