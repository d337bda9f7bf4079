import SqfIndex.Text.Case
import SqfIndex.Text.Space
import SqfIndex.Text.Units
import SqfIndex.Text.Utf8
import SqfIndex.Path
import SqfIndex.Uri
import SqfIndex.Glob
import SqfIndex.Json.Reader
import SqfIndex.Json.Writer
import SqfIndex.Name.Classes
import SqfIndex.SourceMap
import SqfIndex.FileTree
import SqfIndex.Settings
import SqfIndex.Position.Mapper
import SqfIndex.Include
import SqfIndex.Script.Lexer
import SqfIndex.Script.Bracket
import SqfIndex.Script.Variables
import SqfIndex.Preprocess.Run
import SqfIndex.Analysis.Report
import SqfIndex.Symbol.Store
import SqfIndex.Decimal.Shortest
import SqfIndex.Debounce.Timeline
import SqfIndex.Workspace.Indexing
import SqfIndex.Fixture
import SqfIndex.Cli
import SqfIndex.Main
import SqfIndex.Proofs.Text.Standing
import SqfIndex.Proofs.Text.Ends
import SqfIndex.Proofs.SourceMap.Merging
import SqfIndex.Proofs.SourceMap.Lookup
import SqfIndex.Proofs.Position.LineIndex
import SqfIndex.Proofs.Position.Mapper
import SqfIndex.Proofs.Position.Covered
import SqfIndex.Proofs.Script.Tokens
import SqfIndex.Proofs.Script.Scanning
import SqfIndex.Proofs.Script.Lossless
import SqfIndex.Proofs.Script.Mentions
import SqfIndex.Proofs.Script.Findings
import SqfIndex.Proofs.Preprocess.Lines
import SqfIndex.Proofs.Preprocess.Placement
import SqfIndex.Proofs.Preprocess.Tiling
import SqfIndex.Proofs.Preprocess.Trace
import SqfIndex.Proofs.Preprocess.Accounting
import SqfIndex.Proofs.Preprocess.Includes
import SqfIndex.Proofs.Preprocess.Provenance
import SqfIndex.Proofs.Preprocess.Words
import SqfIndex.Proofs.Preprocess.Seams
import SqfIndex.Proofs.Analysis.IdentifierRanges
import SqfIndex.Proofs.Preprocess.Sources
import SqfIndex.Proofs.Preprocess.Refusals
import SqfIndex.Proofs.Analysis.Targets
import SqfIndex.Proofs.Analysis.Outcomes
import SqfIndex.Proofs.Analysis.RangeOrder
import SqfIndex.Proofs.Symbol.Places
import SqfIndex.Proofs.Symbol.History
import SqfIndex.Proofs.Symbol.Warnings
import SqfIndex.Proofs.Symbol.Renewal
import SqfIndex.Proofs.Symbol.Macros
import SqfIndex.Proofs.Symbol.Settling
import SqfIndex.Proofs.Symbol.Reordering
import SqfIndex.Proofs.Symbol.Search
import SqfIndex.Proofs.Symbol.Filing
import SqfIndex.Proofs.Debounce.Safety
import SqfIndex.Proofs.Debounce.Timeline
import SqfIndex.Proofs.Debounce.Succession
import SqfIndex.Proofs.Debounce.Agenda
import SqfIndex.Proofs.Debounce.Deadlines
import SqfIndex.Proofs.Uri.Distinct
import SqfIndex.Proofs.Workspace.Passes
import SqfIndex.Proofs.Workspace.Routing
import SqfIndex.Proofs.Workspace.Shown
import SqfIndex.Proofs.Workspace.Scheduling
import SqfIndex.Proofs.Workspace.Drops
import SqfIndex.Proofs.Workspace.StoredRanges
import SqfIndex.Proofs.Include.Enumeration
import SqfIndex.Proofs.Symbol.EngineNames
import SqfIndex.Proofs.Workspace.IncludeTargets
import SqfIndex.Proofs.Position.Sharing
import SqfIndex.Proofs.Analysis.SharedReads
import SqfIndex.Proofs.Analysis.Grouping
import SqfIndex.Proofs.Workspace.Signatures
import SqfIndex.Proofs.Preprocess.Substitution
import SqfIndex.Proofs.Position.Counting
import SqfIndex.Proofs.Script.Brackets
import SqfIndex.Proofs.Include.Containment
import SqfIndex.Proofs.Include.Selection
import SqfIndex.Proofs.Script.Extraction
import SqfIndex.Proofs.Script.Linting
import SqfIndex.Proofs.Debounce.Lanes
import SqfIndex.Proofs.Debounce.Timing
import SqfIndex.Proofs.Symbol.Lifetimes
import SqfIndex.Proofs.Preprocess.LineFeeds
import SqfIndex.Proofs.Analysis.MacroPlaces
import SqfIndex.Proofs.Preprocess.LineScan
import SqfIndex.Proofs.Preprocess.LineTokens
import SqfIndex.Proofs.Preprocess.Expansions
import SqfIndex.Proofs.Path.Normalization
import SqfIndex.Proofs.Preprocess.Arguments
import SqfIndex.Proofs.Workspace.Indexing
