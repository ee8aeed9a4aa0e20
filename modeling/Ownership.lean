import Ownership.Exchange.Declarations
import Ownership.Exchange.Sources
import Ownership.Exchange.Trees
import Ownership.Race.Panel
import Ownership.Search.Contest
import Ownership.Proofs.Contract
import Ownership.Proofs.Requests
import Ownership.Proofs.Books
import Ownership.Proofs.Scene
import Ownership.Proofs.Steps
import Ownership.Proofs.Decisions
import Ownership.Proofs.Runs
import Ownership.Proofs.Halting
import Ownership.Proofs.Evaluation
import Ownership.Proofs.Ground
import Ownership.Proofs.GroundRules
import Ownership.Proofs.Preorder
import Ownership.Proofs.Instances
import Ownership.Proofs.ChainInstances
import Ownership.Proofs.Instantiation
import Ownership.Proofs.Promises
import Ownership.Proofs.Records
import Ownership.Proofs.Ledger
import Ownership.Proofs.Propagation
import Ownership.Proofs.FlatConstraints
import Ownership.Proofs.Saturation
import Ownership.Proofs.Custody
import Ownership.Proofs.Holdings
import Ownership.Proofs.Scoping
import Ownership.Proofs.Idling
import Ownership.Proofs.Bindings
import Ownership.Proofs.BindingRules
import Ownership.Proofs.Valuations
import Ownership.Proofs.Opening
import Ownership.Proofs.Schedules
import Ownership.Proofs.EvaluationOrder
import Ownership.Proofs.AcyclicBounds
import Ownership.Proofs.BoundWalks
import Ownership.Proofs.Lexicon
import Ownership.Proofs.Growth
import Ownership.Proofs.Regime
import Ownership.Proofs.RegimeConstraints
import Ownership.Proofs.RegimeAnnotations
import Ownership.Proofs.RegimeCalls
import Ownership.Proofs.RegimeExpressions
import Ownership.Proofs.ResolvedTerms
import Ownership.Proofs.Sessions
import Ownership.Proofs.InferenceState
import Ownership.Proofs.PlaceQueries
import Ownership.Proofs.ArgumentTypes
import Ownership.Proofs.Universes
import Ownership.Proofs.Requirements
import Ownership.Proofs.Conduct
import Ownership.Proofs.ConductExpressions
import Ownership.Proofs.Resumptions
import Ownership.Proofs.WaiterHistories
import Ownership.Proofs.Alternatives
import Ownership.Proofs.ChainSearches
import Ownership.Proofs.ChainTests
import Ownership.Proofs.NumericDefaults
import Ownership.Proofs.NormalForms
import Ownership.Proofs.ChainOrder
import Ownership.Proofs.Projection
import Ownership.Proofs.SoloRuns
import Ownership.Proofs.FieldPaths
import Ownership.Proofs.SourceTypes
import Ownership.Proofs.Connectives
import Ownership.Proofs.Provenance
import Ownership.Proofs.SubstitutionLaws
import Ownership.Proofs.TestTermination
