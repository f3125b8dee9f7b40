import MonikerIndex.Alias.Link
import MonikerIndex.Alias.Publish
import MonikerIndex.Alias.Remark
import MonikerIndex.Alias.Walk
import MonikerIndex.Command.Arguments
import MonikerIndex.Command.Run
import MonikerIndex.Config.Basic
import MonikerIndex.Config.File
import MonikerIndex.Digest.Base64
import MonikerIndex.Digest.Basic
import MonikerIndex.Digest.Blake3
import MonikerIndex.Disk
import MonikerIndex.DocumentUri
import MonikerIndex.Error
import MonikerIndex.ExportPath
import MonikerIndex.Graph.Basic
import MonikerIndex.Graph.Codec
import MonikerIndex.Graph.Element
import MonikerIndex.Graph.InPlace
import MonikerIndex.Graph.Output
import MonikerIndex.Graph.Stats
import MonikerIndex.Index.Basic
import MonikerIndex.Index.Emission
import MonikerIndex.Index.Occurrence
import MonikerIndex.Json.Basic
import MonikerIndex.Json.Decoder
import MonikerIndex.Json.Numeral
import MonikerIndex.Json.Reading
import MonikerIndex.Json.Scan
import MonikerIndex.Main
import MonikerIndex.Moniker
import MonikerIndex.Naming
import MonikerIndex.Path
import MonikerIndex.Program.Basic
import MonikerIndex.Program.Codec
import MonikerIndex.Proofs.Acceptance
import MonikerIndex.Proofs.Alias.InPlace
import MonikerIndex.Proofs.Alias.Publication
import MonikerIndex.Proofs.Alias.Reachability
import MonikerIndex.Proofs.Alias.RelativePaths
import MonikerIndex.Proofs.Alias.Repetition
import MonikerIndex.Proofs.Alias.Walks
import MonikerIndex.Proofs.Ancestry
import MonikerIndex.Proofs.Config
import MonikerIndex.Proofs.Consistency
import MonikerIndex.Proofs.Contributions
import MonikerIndex.Proofs.Disk
import MonikerIndex.Proofs.DocumentUri
import MonikerIndex.Proofs.Emission.Chapters
import MonikerIndex.Proofs.Emission.Documents
import MonikerIndex.Proofs.Emission.Identifiers
import MonikerIndex.Proofs.Emission.Layout
import MonikerIndex.Proofs.Emission.Locals
import MonikerIndex.Proofs.Emission.Mentions
import MonikerIndex.Proofs.Emission.Order
import MonikerIndex.Proofs.Emission.Output
import MonikerIndex.Proofs.Emission.Run
import MonikerIndex.Proofs.Emission.Views
import MonikerIndex.Proofs.Emission.WellFormed
import MonikerIndex.Proofs.ExportIdentifiers
import MonikerIndex.Proofs.ExportPaths
import MonikerIndex.Proofs.Forest
import MonikerIndex.Proofs.Growth
import MonikerIndex.Proofs.Identities
import MonikerIndex.Proofs.Json.Decoding
import MonikerIndex.Proofs.Json.Elements
import MonikerIndex.Proofs.Json.Facts
import MonikerIndex.Proofs.Json.Scanning
import MonikerIndex.Proofs.Json.Tokens
import MonikerIndex.Proofs.LargerPrograms
import MonikerIndex.Proofs.LocalIdentifiers
import MonikerIndex.Proofs.Merging
import MonikerIndex.Proofs.ModuleExports
import MonikerIndex.Proofs.ModuleNames
import MonikerIndex.Proofs.Outcome
import MonikerIndex.Proofs.RepeatedSymbols
import MonikerIndex.Proofs.Repeats
import MonikerIndex.Proofs.Retelling.Basic
import MonikerIndex.Proofs.Retelling.Emission
import MonikerIndex.Proofs.Retelling.Index
import MonikerIndex.Proofs.Retelling.Invariance
import MonikerIndex.Proofs.Retelling.Merge
import MonikerIndex.Proofs.Retelling.Moving
import MonikerIndex.Proofs.Retelling.Relocation
import MonikerIndex.Proofs.Settling
import MonikerIndex.Proofs.SideBySide
import MonikerIndex.Proofs.Sites
import MonikerIndex.Proofs.Sorting
import MonikerIndex.Proofs.Store
import MonikerIndex.Proofs.Toml
import MonikerIndex.Proofs.Visibility
import MonikerIndex.Report.Log
import MonikerIndex.Report.Notice
import MonikerIndex.Report.Table
import MonikerIndex.Report.Theme
import MonikerIndex.Span
import MonikerIndex.SymbolKind
import MonikerIndex.SymbolTable.Basic
import MonikerIndex.SymbolTable.Merge
import MonikerIndex.Text.Casing
import MonikerIndex.Toml.Basic
import MonikerIndex.Toml.Moment
import MonikerIndex.Toml.Reader
import MonikerIndex.Toml.Scalar
import MonikerIndex.Toml.Text
import MonikerIndex.Visibility
