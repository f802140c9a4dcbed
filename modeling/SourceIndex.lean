import SourceIndex.Attempt
import SourceIndex.Collaborators
import SourceIndex.Decimal.Shortest
import SourceIndex.DeclarationKind
import SourceIndex.Delivery
import SourceIndex.Effect
import SourceIndex.Entry
import SourceIndex.FileIndex
import SourceIndex.Halstead
import SourceIndex.IndexError
import SourceIndex.Json.Flat
import SourceIndex.Json.Token
import SourceIndex.Json.Value
import SourceIndex.Json.Write
import SourceIndex.Link
import SourceIndex.Live
import SourceIndex.LiveFile
import SourceIndex.LiveProject
import SourceIndex.LogFormat
import SourceIndex.Options
import SourceIndex.Outline
import SourceIndex.Package
import SourceIndex.Package.FileTree
import SourceIndex.Path
import SourceIndex.Program
import SourceIndex.Project
import SourceIndex.Session
import SourceIndex.Sink
import SourceIndex.Symbol
import SourceIndex.Symbol.Resolve
import SourceIndex.Table
import SourceIndex.Text.Blank
import SourceIndex.Text.LineMap
import SourceIndex.Text.Offset
import SourceIndex.Text.Position
import SourceIndex.Tour
import SourceIndex.Tour.Declaration
import SourceIndex.Tour.Expression
import SourceIndex.Tour.Jsx
import SourceIndex.Tour.ModuleItem
import SourceIndex.Tour.Node
import SourceIndex.Tour.Statement
import SourceIndex.Tour.Step
import SourceIndex.Tour.TypeNode
import SourceIndex.Tree.Arena
import SourceIndex.Tree.Builder
import SourceIndex.Tree.Declaration
import SourceIndex.Tree.Dump
import SourceIndex.Tree.Expression
import SourceIndex.Tree.Field
import SourceIndex.Tree.Jsx
import SourceIndex.Tree.Kind
import SourceIndex.Tree.Kind.Name
import SourceIndex.Tree.ModuleItem
import SourceIndex.Tree.Payload
import SourceIndex.Tree.Script
import SourceIndex.Tree.SourceFile
import SourceIndex.Tree.Statement
import SourceIndex.Tree.TypeNode
import SourceIndex.Proofs.Innermost
import SourceIndex.Proofs.LinkGraph
import SourceIndex.Proofs.Resolution
import SourceIndex.Proofs.Coherence
import SourceIndex.Proofs.Closure
import SourceIndex.Proofs.Meaning
import SourceIndex.Proofs.Memoised
import SourceIndex.Proofs.Calls
import SourceIndex.Proofs.KeyNumbers
import SourceIndex.Proofs.SymbolText
import SourceIndex.Proofs.Visits
import SourceIndex.Proofs.OwnerChain
import SourceIndex.Proofs.SymbolDecoding
import SourceIndex.Proofs.DepthLimit
import SourceIndex.Proofs.LinePositions
import SourceIndex.Proofs.Scopes
import SourceIndex.Proofs.Linkage
import SourceIndex.Proofs.ByteOffsets
import SourceIndex.Proofs.OwnOccurrences
import SourceIndex.Proofs.WalkedChildren
import SourceIndex.Proofs.Correspondence
import SourceIndex.Proofs.Journals
import SourceIndex.Proofs.Deliveries
import SourceIndex.Proofs.Attempts
import SourceIndex.Proofs.Counting
import SourceIndex.Proofs.LiveFiles
import SourceIndex.Proofs.LiveRuns
import SourceIndex.Proofs.SinkRuns
import SourceIndex.Proofs.SinkFailure
import SourceIndex.Proofs.Lookups
import SourceIndex.Proofs.SilentErrors
import SourceIndex.Proofs.Walk
import SourceIndex.Proofs.Survey
import SourceIndex.Proofs.FileRecords
import SourceIndex.Proofs.Enclosure
import SourceIndex.Proofs.Declarations
import SourceIndex.Proofs.LocalsLeftOut
import SourceIndex.Proofs.Packages
import SourceIndex.Proofs.LocalSymbols
import SourceIndex.Proofs.Shift
import SourceIndex.Proofs.Independence
import SourceIndex.Proofs.PackageSearch
import SourceIndex.Proofs.JsonText
import SourceIndex.Proofs.JsonLines
import SourceIndex.Proofs.TreeTokens
import SourceIndex.Proofs.Renaming
import SourceIndex.Proofs.Thinning
import SourceIndex.Proofs.RecordKinds
import SourceIndex.Proofs.GlobalOwners
import SourceIndex.Proofs.VisitDepth
import SourceIndex.Proofs.LineScan
import SourceIndex.Proofs.Parents
import SourceIndex.Proofs.ParentChains
import SourceIndex.Proofs.KeyOrder
import SourceIndex.Proofs.OffsetOrder
import SourceIndex.Proofs.TokenSpans
import SourceIndex.Proofs.NestedSpans
import SourceIndex.Proofs.OutlineCalls
import SourceIndex.Proofs.ConstructorKeyword
import SourceIndex.Proofs.PackagePlaces
import SourceIndex.Proofs.SummaryCounts
