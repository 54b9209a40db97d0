import Fabrication.Double
import Fabrication.Double.Arith
import Fabrication.Text.Unicode
import Fabrication.Text.Quoted
import Fabrication.Table
import Fabrication.Decimal.Basic
import Fabrication.Decimal.Arith
import Fabrication.Decimal.Parse
import Fabrication.Ident
import Fabrication.Fault
import Fabrication.Error
import Fabrication.Recipe
import Fabrication.Facility
import Fabrication.Skill
import Fabrication.Quantity
import Fabrication.Duration
import Fabrication.Config
import Fabrication.Json
import Fabrication.Json.Number
import Fabrication.Json.Read
import Fabrication.Api.Codec
import Fabrication.Api.Shapes
import Fabrication.Api.Basic
import Fabrication.Api.Respond
import Fabrication.Config.Text
import Fabrication.Api.Settings
import Fabrication.World
import Fabrication.Catalog
import Fabrication.Tree
import Fabrication.Step
import Fabrication.Snapshot
import Fabrication.Tree.Expand
import Fabrication.Step.Merge
import Fabrication.Step.Reconcile
import Fabrication.Step.Schedule
import Fabrication.Calculation
import Fabrication.Api.World
import Fabrication.Api.Steps
import Fabrication.Api.Calculation
import Fabrication.Step.Edit
import Fabrication.Step.Recalculate
import Fabrication.Matching.Jobs
import Fabrication.Matching.Profit
import Fabrication.Store
import Fabrication.Service
import Fabrication.Api.Matching
import Fabrication.Api.Service
import Fabrication.Demo
import Fabrication.Main
import Fabrication.Proofs.Outcome
import Fabrication.Proofs.Table
import Fabrication.Proofs.Step.Frame
import Fabrication.Proofs.Snapshot
import Fabrication.Proofs.Tree.Expand
import Fabrication.Proofs.Tree.Lookups
import Fabrication.Proofs.Snapshot.Levels
import Fabrication.Proofs.Snapshot.Reference
import Fabrication.Proofs.Step.Merge
import Fabrication.Proofs.Step.Reconcile
import Fabrication.Proofs.Step.Kahn
import Fabrication.Proofs.Step.Settle
import Fabrication.Proofs.Step.Schedule
import Fabrication.Proofs.Calculation.Coverage
import Fabrication.Proofs.Store
import Fabrication.Proofs.Matching.Jobs
import Fabrication.Proofs.Store.JobClaims
import Fabrication.Proofs.Service.Operations
import Fabrication.Proofs.Service.JobClaims
import Fabrication.Proofs.Step.Runs
import Fabrication.Proofs.Step.Split
import Fabrication.Proofs.Step.Ceiling
import Fabrication.Proofs.Service.Profit
import Fabrication.Proofs.Step.Logical
import Fabrication.Proofs.Step.Reassign
import Fabrication.Proofs.Step.Demand
import Fabrication.Proofs.Step.Recalculate
import Fabrication.Proofs.Matching.Again
import Fabrication.Proofs.Service.Rematch
import Fabrication.Proofs.Step.Stable
import Fabrication.Proofs.Calculation.Depth
import Fabrication.Proofs.Matching.Fifo
import Fabrication.Proofs.Tree.Unfolding
import Fabrication.Proofs.Step.Restore
import Fabrication.Proofs.Calculation.WellFormed
import Fabrication.Proofs.Step.Edit
import Fabrication.Proofs.Matching.WellFormed
import Fabrication.Proofs.Matching.Adapt
import Fabrication.Proofs.Matching.Follow
import Fabrication.Proofs.Service.WellFormed
import Fabrication.Proofs.Step.Cycles
import Fabrication.Proofs.Matching.Select
import Fabrication.Proofs.Quantity.Bounds
import Fabrication.Proofs.Matching.UnitCost
import Fabrication.Proofs.Facility
import Fabrication.Proofs.Step.Identifiers
import Fabrication.Proofs.Step.Consolidate
import Fabrication.Proofs.Calculation.Order
