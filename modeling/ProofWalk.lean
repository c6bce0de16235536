import ProofWalk.Clause.Goal
import ProofWalk.Clause.Grammar
import ProofWalk.Clause.Label
import ProofWalk.Clause.Rule
import ProofWalk.Clause.Token
import ProofWalk.Code.Instruction
import ProofWalk.Code.LogicError
import ProofWalk.Code.Program
import ProofWalk.Config.Document
import ProofWalk.Config.FilePath
import ProofWalk.Config.Files
import ProofWalk.Config.Kind
import ProofWalk.Config.NullDevice
import ProofWalk.Config.Options
import ProofWalk.Config.Setting
import ProofWalk.Decimal.Dyadic
import ProofWalk.Decimal.Layout
import ProofWalk.Decimal.Numeral
import ProofWalk.Decimal.Rounded
import ProofWalk.Decimal.Scaled
import ProofWalk.Decimal.Shortest
import ProofWalk.Engine
import ProofWalk.Error
import ProofWalk.Graph.Dump
import ProofWalk.Graph.IdGraph
import ProofWalk.Graph.Link
import ProofWalk.Graph.ProofGraph
import ProofWalk.Graph.Prune
import ProofWalk.Graph.StateGraph
import ProofWalk.Graph.Store
import ProofWalk.Interned
import ProofWalk.Json.Reader
import ProofWalk.Json.Value
import ProofWalk.Machine.Builtin
import ProofWalk.Machine.Canonical
import ProofWalk.Machine.Facts
import ProofWalk.Machine.Form
import ProofWalk.Machine.Heap
import ProofWalk.Machine.Outlinks
import ProofWalk.Machine.Run
import ProofWalk.Machine.State
import ProofWalk.Proofs.Alike
import ProofWalk.Proofs.AnswerDistribution
import ProofWalk.Proofs.AnswerTexts
import ProofWalk.Proofs.Bisimulation
import ProofWalk.Proofs.BridgedRows
import ProofWalk.Proofs.CanonicalForm
import ProofWalk.Proofs.CarriedRuns
import ProofWalk.Proofs.ClauseCode
import ProofWalk.Proofs.CodeShape
import ProofWalk.Proofs.Computations
import ProofWalk.Proofs.ConsistentGraphs
import ProofWalk.Proofs.DenseProofs
import ProofWalk.Proofs.DepthBounds
import ProofWalk.Proofs.Derivation
import ProofWalk.Proofs.EngineFailures
import ProofWalk.Proofs.ExactNumbers
import ProofWalk.Proofs.Explorations
import ProofWalk.Proofs.FactsLikeClauses
import ProofWalk.Proofs.FinerThresholds
import ProofWalk.Proofs.FirstFault
import ProofWalk.Proofs.FormPaths
import ProofWalk.Proofs.GatheredFeatures
import ProofWalk.Proofs.GraphAgreement
import ProofWalk.Proofs.GraphGrowth
import ProofWalk.Proofs.GroundClauses
import ProofWalk.Proofs.HeadMatching
import ProofWalk.Proofs.Heap
import ProofWalk.Proofs.IndependentQueries
import ProofWalk.Proofs.Interning
import ProofWalk.Proofs.LeftmostResolution
import ProofWalk.Proofs.LegibleDumps
import ProofWalk.Proofs.LegibleForms
import ProofWalk.Proofs.Lookahead
import ProofWalk.Proofs.MassStorage
import ProofWalk.Proofs.MergedAnswers
import ProofWalk.Proofs.Namesakes
import ProofWalk.Proofs.NumberedFeatures
import ProofWalk.Proofs.OpenCalls
import ProofWalk.Proofs.PathSums
import ProofWalk.Proofs.Phrases
import ProofWalk.Proofs.PowerSums
import ProofWalk.Proofs.PriorityOrder
import ProofWalk.Proofs.ProofRuns
import ProofWalk.Proofs.PrunedAnswers
import ProofWalk.Proofs.Pruning
import ProofWalk.Proofs.PushAccuracy
import ProofWalk.Proofs.PushBalance
import ProofWalk.Proofs.PushDepth
import ProofWalk.Proofs.PushRuns
import ProofWalk.Proofs.QueueOrder
import ProofWalk.Proofs.RegularAnswers
import ProofWalk.Proofs.RenamedCode
import ProofWalk.Proofs.RenamedGraphs
import ProofWalk.Proofs.RenamedProofs
import ProofWalk.Proofs.RenamedRuns
import ProofWalk.Proofs.ReportedFeatures
import ProofWalk.Proofs.Resolution
import ProofWalk.Proofs.RestedGraphs
import ProofWalk.Proofs.RunSteps
import ProofWalk.Proofs.Safety
import ProofWalk.Proofs.SeparatedTexts
import ProofWalk.Proofs.SharedForms
import ProofWalk.Proofs.SolvedForm
import ProofWalk.Proofs.SparseColumns
import ProofWalk.Proofs.Standing
import ProofWalk.Proofs.StateReading
import ProofWalk.Proofs.SteadyAnswers
import ProofWalk.Proofs.StepBounds
import ProofWalk.Proofs.TextLayout
import ProofWalk.Proofs.TreeViews
import ProofWalk.Proofs.TreeWalks
import ProofWalk.Proofs.Unification
import ProofWalk.Proofs.VariableRanks
import ProofWalk.Proofs.VariableRegisters
import ProofWalk.Proofs.WalkSums
import ProofWalk.Proofs.Ways
import ProofWalk.Proofs.Weighing
import ProofWalk.Proofs.WrittenForms
import ProofWalk.Prove.Answer
import ProofWalk.Prove.DepthFirst
import ProofWalk.Prove.Mass
import ProofWalk.Prove.Power
import ProofWalk.Prove.Priority
import ProofWalk.Prove.PriorityQueue
import ProofWalk.Prove.Prover
import ProofWalk.Prove.Push
import ProofWalk.Prove.Settings
import ProofWalk.Prove.Walk
import ProofWalk.Scalar
import ProofWalk.Slots
import ProofWalk.SortedMap
import ProofWalk.Sparse.Dense
import ProofWalk.Sparse.Row
import ProofWalk.Sparse.Vector
import ProofWalk.Text.Alphanumeric
import ProofWalk.Text.Blank
import ProofWalk.Text.Join
import ProofWalk.Text.Keyword
import ProofWalk.Text.Ranges
import ProofWalk.Text.Uppercase
import ProofWalk.Toml.Number
import ProofWalk.Toml.Quoted
import ProofWalk.Toml.Reader
import ProofWalk.Toml.Table
import ProofWalk.Weight.Document
import ProofWalk.Weight.Features
import ProofWalk.Weight.Squash
import ProofWalk.Weight.Weighter
import ProofWalk.Word
