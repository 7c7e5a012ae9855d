import FlowHistory.Analysis.Basic
import FlowHistory.Analysis.Catalogue
import FlowHistory.Analysis.ConstantBits
import FlowHistory.Analysis.ConstantFolding
import FlowHistory.Analysis.Kind
import FlowHistory.Analysis.LiveVariables
import FlowHistory.Analysis.ReachingDefinitions
import FlowHistory.Analysis.Taint
import FlowHistory.Bits.Arithmetic
import FlowHistory.Bits.Bit
import FlowHistory.Bits.Pattern
import FlowHistory.Decimal.Plain
import FlowHistory.Decimal.Shortest
import FlowHistory.Digraph
import FlowHistory.Engine.Log
import FlowHistory.Engine.Run
import FlowHistory.Engine.Step
import FlowHistory.Env
import FlowHistory.Fault
import FlowHistory.Flowgraph.Basic
import FlowHistory.Flowgraph.Draft
import FlowHistory.History
import FlowHistory.IndexSet
import FlowHistory.Lattice
import FlowHistory.Navigator
import FlowHistory.Program.Expr
import FlowHistory.Program.Instruction
import FlowHistory.Program.Local
import FlowHistory.Proofs.BitConstants
import FlowHistory.Proofs.BitLaws
import FlowHistory.Proofs.BitMeaning
import FlowHistory.Proofs.BitProduct
import FlowHistory.Proofs.BitSoundness
import FlowHistory.Proofs.BlockStep
import FlowHistory.Proofs.BuiltGraph
import FlowHistory.Proofs.ControllerCalls
import FlowHistory.Proofs.ElementaryStep
import FlowHistory.Proofs.Execution
import FlowHistory.Proofs.Fixpoint
import FlowHistory.Proofs.FoldSoundness
import FlowHistory.Proofs.FoldedBits
import FlowHistory.Proofs.Growth
import FlowHistory.Proofs.GuardedWrites
import FlowHistory.Proofs.Lawful
import FlowHistory.Proofs.LeastSolution
import FlowHistory.Proofs.Liveness
import FlowHistory.Proofs.Order
import FlowHistory.Proofs.PathStates
import FlowHistory.Proofs.Paths
import FlowHistory.Proofs.ReachingSites
import FlowHistory.Proofs.Recording
import FlowHistory.Proofs.Refinement
import FlowHistory.Proofs.Refusals
import FlowHistory.Proofs.Simulation
import FlowHistory.Proofs.Snapshots
import FlowHistory.Proofs.Stability
import FlowHistory.Proofs.TaintPaths
import FlowHistory.Proofs.Termination
import FlowHistory.Proofs.TransferLaws
import FlowHistory.Proofs.Waiting
import FlowHistory.Random.KeyStream
import FlowHistory.Session.Controller
import FlowHistory.Session.Hooks
import FlowHistory.Session.Lifecycle
import FlowHistory.Session.Worker
import FlowHistory.Worklist
import FlowHistory.Proofs.Sessions
import FlowHistory.Proofs.LifecycleMoves
import FlowHistory.Proofs.Replay
import FlowHistory.Proofs.SteeredHistory
import FlowHistory.Proofs.RisingStates
import FlowHistory.Proofs.LiveAgreement
import FlowHistory.Proofs.Normalization
import FlowHistory.Proofs.BestPatterns
import FlowHistory.Proofs.UnreachedBits
import FlowHistory.Proofs.ProductRules
import FlowHistory.Proofs.MonotoneTransfers
import FlowHistory.Proofs.JoinBounds
import FlowHistory.Proofs.FoldingAgreement
import FlowHistory.Proofs.LastingViolations
import FlowHistory.Proofs.LinkedCursors
import FlowHistory.Proofs.BreakpointSearch
import FlowHistory.Proofs.PackedSets
import FlowHistory.Proofs.WaitingCalls
import FlowHistory.Proofs.UniformPicks
import FlowHistory.Proofs.Adjacency
import FlowHistory.Proofs.Conversions
