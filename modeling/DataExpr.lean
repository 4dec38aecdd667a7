import DataExpr.Compiler.Config
import DataExpr.Compiler.Session
import DataExpr.Error
import DataExpr.Eval.Aggregate
import DataExpr.Eval.Basic
import DataExpr.Eval.Builtin
import DataExpr.Eval.Candidate
import DataExpr.Eval.Cursor
import DataExpr.Eval.Frame
import DataExpr.Eval.Join
import DataExpr.Eval.Loop
import DataExpr.Eval.Op
import DataExpr.Expr.Analysis
import DataExpr.Expr.Basic
import DataExpr.Expr.Build
import DataExpr.Expr.Equality
import DataExpr.Expr.Operator
import DataExpr.Expr.ReducerKind
import DataExpr.Expr.Sharing
import DataExpr.Expr.Size
import DataExpr.Expr.Smaller
import DataExpr.Expr.Traverse
import DataExpr.Expr.Traverse.Lemmas
import DataExpr.Expr.Weight
import DataExpr.Json.Basic
import DataExpr.Json.Numeral
import DataExpr.Json.Parser
import DataExpr.Json.Printer
import DataExpr.Json.Token
import DataExpr.Lowering.Aggregate
import DataExpr.Lowering.Context
import DataExpr.Lowering.Error
import DataExpr.Lowering.Join
import DataExpr.Lowering.JoinPlan
import DataExpr.Lowering.Lower
import DataExpr.Lowering.Occurrences
import DataExpr.Lowering.Slots
import DataExpr.Lowering.State
import DataExpr.Lru
import DataExpr.NameSet
import DataExpr.Number.Double
import DataExpr.Number.Places
import DataExpr.Number.Read
import DataExpr.Number.Shortest
import DataExpr.Number.Word
import DataExpr.Program.Basic
import DataExpr.Program.Fold
import DataExpr.Program.Render
import DataExpr.Reduction.Accumulator
import DataExpr.Reduction.Percentile
import DataExpr.Signature
import DataExpr.Sort
import DataExpr.Sort.Block
import DataExpr.Sort.Comparison
import DataExpr.Sort.Insertion
import DataExpr.Sort.Merge
import DataExpr.Sort.Quick
import DataExpr.Sort.Run
import DataExpr.Text.Blank
import DataExpr.Text.Case
import DataExpr.Text.CaseTable
import DataExpr.Text.CodeRange
import DataExpr.Text.Hidden
import DataExpr.Text.Quoted
import DataExpr.Text.Search
import DataExpr.Value.Arithmetic
import DataExpr.Value.Basic
import DataExpr.Value.Collection
import DataExpr.Value.Entries
import DataExpr.Value.Equality
import DataExpr.Value.Json
import DataExpr.Value.KeyList
import DataExpr.Value.Lookup
import DataExpr.Value.Native
import DataExpr.Value.Order
import DataExpr.Value.Sort
import DataExpr.Value.Stamp
import DataExpr.Value.Table
import DataExpr.Value.Text
import DataExpr.Proofs.CacheTransparency
import DataExpr.Proofs.LabelSafety
import DataExpr.Proofs.Independence
import DataExpr.Proofs.Yields
import DataExpr.Proofs.Draining
import DataExpr.Proofs.ScopedRuns
import DataExpr.Proofs.ProgramMeaning
import DataExpr.Proofs.LruRequests
import DataExpr.Proofs.SiblingHandlers
import DataExpr.Proofs.SharedHandles
import DataExpr.Proofs.EmptyAggregates
import DataExpr.Proofs.ExactAnalysis
import DataExpr.Proofs.InputIndependence
import DataExpr.Proofs.InitialFolds
import DataExpr.Proofs.PlannedJoins
import DataExpr.Proofs.SeparateGroups
import DataExpr.Proofs.PipedPrograms
import DataExpr.Proofs.BindingThresholds
import DataExpr.Proofs.KeyOrder
import DataExpr.Proofs.HashKeys
import DataExpr.Proofs.ExactIntegers
import DataExpr.Proofs.Extremes
import DataExpr.Proofs.ParameterPassing
import DataExpr.Proofs.SharedPositions
import DataExpr.Proofs.PathCounts
import DataExpr.Proofs.JsonRoundTrip
import DataExpr.Proofs.ExactWeights
import DataExpr.Proofs.LexicographicKeys
