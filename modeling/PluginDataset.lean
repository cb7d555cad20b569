import PluginDataset.Main
import PluginDataset.Proofs.Extraction.Isolation
import PluginDataset.Proofs.Directive.Aggregation
import PluginDataset.Proofs.Json.Scalars
import PluginDataset.Proofs.Json.Grammar
import PluginDataset.Proofs.Json.ReadBack
import PluginDataset.Proofs.Dataset.ReadBack
import PluginDataset.Proofs.Dataset.Format
import PluginDataset.Proofs.Dataset.Nesting
import PluginDataset.Proofs.Build.Success
import PluginDataset.Proofs.Build.Failure
import PluginDataset.Proofs.Build.Exclusion
import PluginDataset.Proofs.Text.Ascii
import PluginDataset.Proofs.Text.Decoding
import PluginDataset.Proofs.Ecosystem.Resolution
import PluginDataset.Proofs.Literal.TopLevel
import PluginDataset.Proofs.BooleanWords.Tree
import PluginDataset.Proofs.Ecosystem.Branches
import PluginDataset.Proofs.Ecosystem.Completeness
import PluginDataset.Proofs.Build.ListingOrder
import PluginDataset.Proofs.Files.Again
import PluginDataset.Proofs.Files.Beside
import PluginDataset.Proofs.Ecosystem.Beside
import PluginDataset.Proofs.Build.Repetition
import PluginDataset.Proofs.Toml.Documents
import PluginDataset.Proofs.Config.ReadBack
import PluginDataset.Proofs.Ecosystem.Winner
import PluginDataset.Proofs.Files.Components
import PluginDataset.Proofs.Ecosystem.SearchOrder
import PluginDataset.Proofs.Ecosystem.Roots
import PluginDataset.Proofs.Literal.Spelling
import PluginDataset.Proofs.Literal.Appended
import PluginDataset.Proofs.BooleanWords.Idempotence
import PluginDataset.Proofs.Ecosystem.Lookups
import PluginDataset.Proofs.BooleanWords.Items
import PluginDataset.Proofs.BooleanWords.Frame
import PluginDataset.Proofs.BooleanWords.Quoted
import PluginDataset.Proofs.BooleanWords.Flow
import PluginDataset.Proofs.BooleanWords.Compact
import PluginDataset.Proofs.Literal.Tokens
import PluginDataset.Proofs.Literal.Boundary
import PluginDataset.Proofs.BooleanWords.Comment
import PluginDataset.Proofs.BooleanWords.Blanks
import PluginDataset.Proofs.BooleanWords.Offsets
import PluginDataset.Proofs.BooleanWords.Sections
