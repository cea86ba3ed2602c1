import MixedInteger.Scalar.Binary64
import MixedInteger.Scalar.Exact
import MixedInteger.Model.Listing
import MixedInteger.Simplex.Solver
import MixedInteger.Cut.Pool
import MixedInteger.Cut.Gomory
import MixedInteger.Search.NodePool
import MixedInteger.Search.Tree
import MixedInteger.Search.Incumbent
import MixedInteger.Search.Tally
import MixedInteger.Text.Blank
import MixedInteger.Text.Quoted
import MixedInteger.Json
import MixedInteger.Settings.Document
import MixedInteger.Telemetry
import MixedInteger.Search.Controller
import MixedInteger.Proofs.SearchOptimum
import MixedInteger.Proofs.CutSafety
import MixedInteger.Proofs.SimplexOptimality
import MixedInteger.Proofs.RowIdentity
import MixedInteger.Proofs.SimplexInfeasibility
import MixedInteger.Proofs.Motion
import MixedInteger.Proofs.BlockingRow
import MixedInteger.Proofs.RatioTest
import MixedInteger.Proofs.SimplexStep
import MixedInteger.Proofs.BlandRule
import MixedInteger.Proofs.SimplexProgress
import MixedInteger.Proofs.SimplexUnbounded
import MixedInteger.Proofs.TreeRecords
import MixedInteger.Proofs.SearchLedger
import MixedInteger.Proofs.NodeDisposal
import MixedInteger.Proofs.SearchProgress
import MixedInteger.Proofs.IterationCap
import MixedInteger.Proofs.NodeBounds
import MixedInteger.Proofs.OpenNodes
import MixedInteger.Proofs.SearchBudget
import MixedInteger.Proofs.BestBound
import MixedInteger.Proofs.Observers
import MixedInteger.Proofs.Rendezvous
import MixedInteger.Proofs.Transcript
import MixedInteger.Proofs.Undefined
import MixedInteger.Proofs.NodeModels
import MixedInteger.Proofs.SearchErrors
import MixedInteger.Proofs.IncumbentRecord
import MixedInteger.Proofs.SolutionPresence
import MixedInteger.Proofs.Infinities
import MixedInteger.Proofs.SolverArrays
import MixedInteger.Proofs.CutLedger
import MixedInteger.Proofs.CutRows
import MixedInteger.Proofs.NumberText
import MixedInteger.Proofs.JsonText
import MixedInteger.Proofs.EventText
import MixedInteger.Proofs.SettingsText
import MixedInteger.Proofs.CutSeparation
import MixedInteger.Proofs.BranchSplit
import MixedInteger.Proofs.QueueOrder
import MixedInteger.Proofs.ModelIntegrity
import MixedInteger.Proofs.NumberOrder
import MixedInteger.Proofs.RowAddition
import MixedInteger.Proofs.FirstLargest
import MixedInteger.Proofs.IdAllocation
import MixedInteger.Proofs.TreeShape
import MixedInteger.Proofs.TreeListing
import MixedInteger.Proofs.PoolOrder
import MixedInteger.Proofs.CutInjection
import MixedInteger.Proofs.Deliveries
import MixedInteger.Proofs.PivotLimit
import MixedInteger.Proofs.LineFraming
