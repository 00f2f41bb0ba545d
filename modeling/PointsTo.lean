import PointsTo.Analysis.Basic
import PointsTo.Analysis.Format
import PointsTo.Analysis.Solution
import PointsTo.Analysis.Summary
import PointsTo.CallGraph.Basic
import PointsTo.CallGraph.ByHierarchy
import PointsTo.Check
import PointsTo.Collection.Deque
import PointsTo.Collection.Distinct
import PointsTo.Collection.IdSet
import PointsTo.Collection.Interner
import PointsTo.Collection.NameMap
import PointsTo.Collection.Table
import PointsTo.Config.Basic
import PointsTo.Config.Error
import PointsTo.Config.Format
import PointsTo.Config.Settings
import PointsTo.Context.Basic
import PointsTo.Context.Selector
import PointsTo.Decimal.Notation
import PointsTo.Decimal.Shortest
import PointsTo.Error
import PointsTo.Heap
import PointsTo.Json.Basic
import PointsTo.Json.Double
import PointsTo.Json.Numeral
import PointsTo.Json.Printer
import PointsTo.Json.Reader
import PointsTo.Json.Record
import PointsTo.Program.Basic
import PointsTo.Program.Dispatch
import PointsTo.Program.Draft
import PointsTo.Program.Edit
import PointsTo.Program.Error
import PointsTo.Program.Format
import PointsTo.Program.Hierarchy
import PointsTo.Program.Index
import PointsTo.Program.Lookup
import PointsTo.Program.Naming
import PointsTo.Program.Validation
import PointsTo.Proofs.Actions
import PointsTo.Proofs.Advance
import PointsTo.Proofs.Agreement
import PointsTo.Proofs.Arena
import PointsTo.Proofs.ArenaCalls
import PointsTo.Proofs.Arrivals
import PointsTo.Proofs.CallStrings
import PointsTo.Proofs.CallTables
import PointsTo.Proofs.CallViews
import PointsTo.Proofs.Changes
import PointsTo.Proofs.ClosestName
import PointsTo.Proofs.Consistency
import PointsTo.Proofs.ContextSuffix
import PointsTo.Proofs.ContextWindow
import PointsTo.Proofs.Correspondence
import PointsTo.Proofs.CycleSearch
import PointsTo.Proofs.Discovery
import PointsTo.Proofs.DraftFaults
import PointsTo.Proofs.DraftSteps
import PointsTo.Proofs.EditRows
import PointsTo.Proofs.Edits
import PointsTo.Proofs.EffectiveDepth
import PointsTo.Proofs.Erasure
import PointsTo.Proofs.Execution
import PointsTo.Proofs.Facts
import PointsTo.Proofs.Failures
import PointsTo.Proofs.FiniteSets
import PointsTo.Proofs.Freshness
import PointsTo.Proofs.Grouping
import PointsTo.Proofs.Growth
import PointsTo.Proofs.HierarchyBound
import PointsTo.Proofs.HierarchyClosure
import PointsTo.Proofs.HierarchyGraph
import PointsTo.Proofs.HierarchyOrder
import PointsTo.Proofs.HierarchyTargets
import PointsTo.Proofs.IndexContents
import PointsTo.Proofs.IndexFilling
import PointsTo.Proofs.Installation
import PointsTo.Proofs.Invariants
import PointsTo.Proofs.JsonRecords
import PointsTo.Proofs.JsonText
import PointsTo.Proofs.Knowledge
import PointsTo.Proofs.LeastSolution
import PointsTo.Proofs.Linking
import PointsTo.Proofs.Loading
import PointsTo.Proofs.Locality
import PointsTo.Proofs.Naming
import PointsTo.Proofs.NearestMethod
import PointsTo.Proofs.OrderIndependence
import PointsTo.Proofs.ProgramGrowth
import PointsTo.Proofs.ProgramText
import PointsTo.Proofs.Projection
import PointsTo.Proofs.Propagation
import PointsTo.Proofs.Reachability
import PointsTo.Proofs.ReceiverContexts
import PointsTo.Proofs.Rediscovery
import PointsTo.Proofs.References
import PointsTo.Proofs.Refinement
import PointsTo.Proofs.Reports
import PointsTo.Proofs.Rules
import PointsTo.Proofs.Runs
import PointsTo.Proofs.Scope
import PointsTo.Proofs.Search
import PointsTo.Proofs.Sessions
import PointsTo.Proofs.SettingsText
import PointsTo.Proofs.Simulation
import PointsTo.Proofs.Soundness
import PointsTo.Proofs.StepBound
import PointsTo.Proofs.StrictTables
import PointsTo.Proofs.SubtypeOrder
import PointsTo.Proofs.Subtypes
import PointsTo.Proofs.Tables
import PointsTo.Proofs.Termination
import PointsTo.Proofs.TypeAbstraction
import PointsTo.Proofs.UnreachedCode
import PointsTo.Proofs.Validity
import PointsTo.Proofs.Workload
import PointsTo.Proofs.WrittenNames
import PointsTo.Proofs.YamlDocuments
import PointsTo.Proofs.YamlScalars
import PointsTo.Proofs.YamlTokens
import PointsTo.Proofs.ZeroDepth
import PointsTo.Solver.Arena
import PointsTo.Solver.Element
import PointsTo.Solver.FlowGraph
import PointsTo.Solver.Format
import PointsTo.Solver.Rules
import PointsTo.Solver.Run
import PointsTo.Solver.State
import PointsTo.Solver.Worklist
import PointsTo.Text.Blank
import PointsTo.Text.Cut
import PointsTo.Text.EditDistance
import PointsTo.Yaml.Basic
import PointsTo.Yaml.Block
import PointsTo.Yaml.Character
import PointsTo.Yaml.Cursor
import PointsTo.Yaml.Folding
import PointsTo.Yaml.Lexer
import PointsTo.Yaml.Plain
import PointsTo.Yaml.Printer
import PointsTo.Yaml.Quoted
import PointsTo.Yaml.Reader
import PointsTo.Yaml.Resolution
import PointsTo.Yaml.Tag
import PointsTo.Yaml.Token
