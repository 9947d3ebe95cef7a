import BranchBound.Box
import BranchBound.Branch
import BranchBound.Count
import BranchBound.Decimal.Binary64
import BranchBound.Decimal.Fraction
import BranchBound.Decimal.Shortest
import BranchBound.Decimal.Text
import BranchBound.Error
import BranchBound.Frontier
import BranchBound.Incumbent
import BranchBound.Journal
import BranchBound.Json.Basic
import BranchBound.Json.Number
import BranchBound.Json.Reader
import BranchBound.Json.Writer
import BranchBound.LinearProgram.Basic
import BranchBound.LinearProgram.DualSimplex
import BranchBound.LinearProgram.Matrix
import BranchBound.LinearProgram.Tableau
import BranchBound.Problem.Basic
import BranchBound.Problem.Codec
import BranchBound.Proofs.LinearProgram.Feasible
import BranchBound.Proofs.Scalar.Exact
import BranchBound.Pseudocost
import BranchBound.Relaxation.Answer
import BranchBound.Relaxation.Backend
import BranchBound.Relaxation.Oracle
import BranchBound.Relaxation.Script
import BranchBound.Relaxation.Simplex
import BranchBound.Scalar.Basic
import BranchBound.Scalar.Binary64
import BranchBound.Scalar.Exact
import BranchBound.Scalar.Text
import BranchBound.Search.Run
import BranchBound.Search.State
import BranchBound.Search.Visit
import BranchBound.Selection.Candidate
import BranchBound.Selection.Hybrid
import BranchBound.Selection.Reliability
import BranchBound.Selection.Scoring
import BranchBound.Selection.Select
import BranchBound.Settings.Basic
import BranchBound.Settings.Codec
import BranchBound.Solution.Basic
import BranchBound.Solution.Codec
import BranchBound.Strategy.Basic
import BranchBound.Strategy.Codec
import BranchBound.Strategy.Names
import BranchBound.Text.Blank
import BranchBound.Tree.Basic
import BranchBound.Tree.Node
import BranchBound.Proofs.LinearProgram.StandardForm
import BranchBound.Proofs.LinearProgram.Tableau
import BranchBound.Proofs.LinearProgram.Choice
import BranchBound.Proofs.LinearProgram.RatioTest
import BranchBound.Proofs.LinearProgram.Run
import BranchBound.Proofs.LinearProgram.OptimalPoint
import BranchBound.Proofs.LinearProgram.Infeasible
import BranchBound.Proofs.LinearProgram.WeakDuality
import BranchBound.Proofs.Search.Runs
import BranchBound.Proofs.Search.Selection
import BranchBound.Proofs.Search.Path
import BranchBound.Proofs.Search.Visit
import BranchBound.Proofs.Search.Fractional
import BranchBound.Proofs.Search.Reachable
import BranchBound.Proofs.Problem.Constructed
import BranchBound.Proofs.Search.Cover
import BranchBound.Proofs.Search.Bound
import BranchBound.Proofs.LinearProgram.Unbounded
import BranchBound.Proofs.LinearProgram.Undisturbed
import BranchBound.Proofs.Search.Partition
import BranchBound.Proofs.Scalar.Ordered
import BranchBound.Proofs.Search.FullTree
import BranchBound.Proofs.Search.OrderIndependence
import BranchBound.Proofs.Search.Lockstep
import BranchBound.Proofs.Search.HybridExact
import BranchBound.Proofs.Search.BestFirst
import BranchBound.Proofs.Search.Kept
import BranchBound.Proofs.Search.DepthLimit
import BranchBound.Proofs.Search.Enumeration
import BranchBound.Proofs.Search.Steady
import BranchBound.Proofs.Relaxation.Simplex
import BranchBound.Proofs.Search.ZeroOne
import BranchBound.Proofs.Problem.Dense
import BranchBound.Proofs.Search.Exhaustive
import BranchBound.Proofs.Search.Failures
import BranchBound.Proofs.Search.Links
import BranchBound.Proofs.Search.Turns
import BranchBound.Proofs.Search.Conservation
import BranchBound.Proofs.Search.EventStream
import BranchBound.Proofs.Search.DepthFirst
import BranchBound.Proofs.Search.Replay
import BranchBound.Proofs.Search.ReplayDoubles
import BranchBound.Proofs.Scalar.Comparable
import BranchBound.Proofs.Search.History
import BranchBound.Proofs.Search.Termination
import BranchBound.Proofs.Search.Incumbents
import BranchBound.Proofs.Search.Requests
import BranchBound.Proofs.Search.Budget
import BranchBound.Proofs.Relaxation.Dependable
import BranchBound.Proofs.Search.Delivers
import BranchBound.Proofs.Search.Succeeds
import BranchBound.Proofs.Search.Errors
import BranchBound.Proofs.Search.Accounting
import BranchBound.Proofs.Search.Stuck
import BranchBound.Proofs.Search.DepthGuard
import BranchBound.Proofs.LinearProgram.Truncation
import BranchBound.Proofs.Relaxation.Capped
import BranchBound.Proofs.Search.ReliabilityWalk
import BranchBound.Proofs.Search.Observations
import BranchBound.Proofs.Search.EnumerationOrder
import BranchBound.Proofs.Search.FrontierQueue
import BranchBound.Proofs.Search.Composition
import BranchBound.Proofs.Search.HybridProbes
import BranchBound.Proofs.Search.RealBranching
import BranchBound.Proofs.Search.MeanLosses
import BranchBound.Proofs.Search.AskedChildren
import BranchBound.Proofs.Search.ObservedRounds
import BranchBound.Proofs.Search.PseudocostMeans
import BranchBound.Proofs.Search.PathReplay
import BranchBound.Proofs.Search.Coherence
import BranchBound.Proofs.Settings.RoundTrip
import BranchBound.Proofs.LinearProgram.Representation
import BranchBound.Proofs.Strategy.Names
