import FiniteDomain.Constraint.Evaluation
import FiniteDomain.Engine.Meaning
import FiniteDomain.InProcess.Backend
import FiniteDomain.MiniZinc.Arguments
import FiniteDomain.MiniZinc.Backend
import FiniteDomain.Session.Enumeration
import FiniteDomain.Proofs.Constraint.Circuit
import FiniteDomain.Proofs.Constraint.Decomposition
import FiniteDomain.Proofs.Constraint.Dependence
import FiniteDomain.Proofs.Constraint.Lookup
import FiniteDomain.Proofs.Constraint.Preservation
import FiniteDomain.Proofs.Engine.BoundsConsistency
import FiniteDomain.Proofs.Engine.CommonFixpoint
import FiniteDomain.Proofs.Engine.Connectives
import FiniteDomain.Proofs.Engine.Contract
import FiniteDomain.Proofs.Engine.Counting
import FiniteDomain.Proofs.Engine.Detection
import FiniteDomain.Proofs.Engine.Histories
import FiniteDomain.Proofs.Engine.Reachability
import FiniteDomain.Proofs.Engine.Traces
import FiniteDomain.Proofs.InProcess.Acceptance
import FiniteDomain.Proofs.InProcess.Account
import FiniteDomain.Proofs.InProcess.Answers
import FiniteDomain.Proofs.InProcess.Completion
import FiniteDomain.Proofs.InProcess.Views
import FiniteDomain.Proofs.MiniZinc.Circuits
import FiniteDomain.Proofs.MiniZinc.ReadBack
import FiniteDomain.Proofs.MiniZinc.Runs
import FiniteDomain.Proofs.MiniZinc.Scoping
import FiniteDomain.Proofs.MiniZinc.Texts
import FiniteDomain.Proofs.MiniZinc.Transcripts
import FiniteDomain.Proofs.Session.Answers
import FiniteDomain.Proofs.Session.Enumeration
import FiniteDomain.Proofs.Session.Objectives
import FiniteDomain.Proofs.Session.Refusals
import FiniteDomain.Proofs.Session.Reports
