import PackageCoupling.Analysis.Basic
import PackageCoupling.Analysis.Run
import PackageCoupling.Cancellation
import PackageCoupling.Checked.Analysis
import PackageCoupling.Checked.Basic
import PackageCoupling.Checked.Coupling
import PackageCoupling.Checked.Extraction
import PackageCoupling.Checked.Report
import PackageCoupling.Command.Check
import PackageCoupling.Command.Run
import PackageCoupling.Command.Usage
import PackageCoupling.Coupling.Metrics
import PackageCoupling.Coupling.Stats
import PackageCoupling.Cut
import PackageCoupling.Decimal.Binary
import PackageCoupling.Decimal.Fixed
import PackageCoupling.Decimal.Read
import PackageCoupling.Decimal.Shortest
import PackageCoupling.Extraction.Basic
import PackageCoupling.Extraction.Registry
import PackageCoupling.Extraction.Unquote
import PackageCoupling.Fault
import PackageCoupling.FileTree.Basic
import PackageCoupling.FileTree.Glob
import PackageCoupling.FileTree.IgnoreRules
import PackageCoupling.FileTree.Listing
import PackageCoupling.FileTree.Resolve
import PackageCoupling.Graph
import PackageCoupling.Json.Basic
import PackageCoupling.Json.Read
import PackageCoupling.Json.Token
import PackageCoupling.Language.Basic
import PackageCoupling.Language.Detect
import PackageCoupling.Main
import PackageCoupling.Modules.Descriptor
import PackageCoupling.Modules.GoDirective
import PackageCoupling.Modules.Map
import PackageCoupling.Path.Basic
import PackageCoupling.Path.Raw
import PackageCoupling.Path.Relative
import PackageCoupling.Proofs.Accounting
import PackageCoupling.Proofs.Assembly
import PackageCoupling.Proofs.ByteOrder
import PackageCoupling.Proofs.CancelFamilies
import PackageCoupling.Proofs.CapturedImports
import PackageCoupling.Proofs.CommandEnds
import PackageCoupling.Proofs.Coupling
import PackageCoupling.Proofs.CouplingTotals
import PackageCoupling.Proofs.Decoding
import PackageCoupling.Proofs.DescriptorLocality
import PackageCoupling.Proofs.Directive
import PackageCoupling.Proofs.DirectiveLines
import PackageCoupling.Proofs.ErasedColours
import PackageCoupling.Proofs.EscapeSequences
import PackageCoupling.Proofs.FilteredListing
import PackageCoupling.Proofs.Following
import PackageCoupling.Proofs.GoFiles
import PackageCoupling.Proofs.GraphDocument
import PackageCoupling.Proofs.GraphGrowth
import PackageCoupling.Proofs.ImportedPackages
import PackageCoupling.Proofs.InstabilityRatio
import PackageCoupling.Proofs.JsonReading
import PackageCoupling.Proofs.LanguageLists
import PackageCoupling.Proofs.Lexemes
import PackageCoupling.Proofs.ListedFiles
import PackageCoupling.Proofs.Listing
import PackageCoupling.Proofs.ModuleScope
import PackageCoupling.Proofs.NormalPath
import PackageCoupling.Proofs.PackagePath
import PackageCoupling.Proofs.ParserHistory
import PackageCoupling.Proofs.PathJoin
import PackageCoupling.Proofs.PathText
import PackageCoupling.Proofs.PythonFiles
import PackageCoupling.Proofs.RawPaths
import PackageCoupling.Proofs.RecordedCounts
import PackageCoupling.Proofs.RelativePath
import PackageCoupling.Proofs.ResolvedModules
import PackageCoupling.Proofs.SafeCounts
import PackageCoupling.Proofs.SafeExtraction
import PackageCoupling.Proofs.SafeReports
import PackageCoupling.Proofs.ScriptFiles
import PackageCoupling.Proofs.Selection
import PackageCoupling.Proofs.SourceSize
import PackageCoupling.Proofs.TreeChange
import PackageCoupling.Report.Graph
import PackageCoupling.Report.Metrics
import PackageCoupling.Source.Capture
import PackageCoupling.Source.GoImports
import PackageCoupling.Source.PythonImports
import PackageCoupling.Source.RustImports
import PackageCoupling.Source.Scan
import PackageCoupling.Source.ScriptImports
import PackageCoupling.Source.ScriptTokens
import PackageCoupling.Source.Token
import PackageCoupling.Table
import PackageCoupling.Text.Blank
import PackageCoupling.Text.Hex
import PackageCoupling.Text.Styled
import PackageCoupling.Text.Utf8
import PackageCoupling.Toml.Basic
import PackageCoupling.Toml.Quoted
import PackageCoupling.Toml.Read
import PackageCoupling.Toml.Scalar
import PackageCoupling.Toml.Table
