import ProbDatalog.Document.Codec
import ProbDatalog.Reasoner
import ProbDatalog.Tables.Quota
import ProbDatalog.Proofs.Judgment
import ProbDatalog.Proofs.Bindings
import ProbDatalog.Proofs.NormalForms
import ProbDatalog.Proofs.Groups
import ProbDatalog.Proofs.Probabilities
import ProbDatalog.Proofs.Certificates
import ProbDatalog.Proofs.Contents
import ProbDatalog.Proofs.Datalog
import ProbDatalog.Proofs.Deepening
import ProbDatalog.Proofs.Distribution
import ProbDatalog.Proofs.Closedness
import ProbDatalog.Proofs.Recovery
import ProbDatalog.Proofs.Filing
import ProbDatalog.Proofs.AssertionOrder
import ProbDatalog.Proofs.Lockstep
import ProbDatalog.Proofs.Decisions
import ProbDatalog.Proofs.Worlds
import ProbDatalog.Proofs.CertainPrograms
import ProbDatalog.Proofs.EntryPoints
import ProbDatalog.Proofs.PositivePrograms
import ProbDatalog.Proofs.Indexes
import ProbDatalog.Proofs.Exactness
import ProbDatalog.Proofs.Evaluations
import ProbDatalog.Proofs.Marks
import ProbDatalog.Proofs.Sufficiency
import ProbDatalog.Proofs.Validity
import ProbDatalog.Proofs.Anonymity
import ProbDatalog.Proofs.Closures
import ProbDatalog.Proofs.Merging
import ProbDatalog.Proofs.Rescoping
import ProbDatalog.Proofs.RoundTrips
import ProbDatalog.Proofs.RangeRestriction
import ProbDatalog.Proofs.Scopes
