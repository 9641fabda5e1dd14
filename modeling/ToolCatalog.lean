import ToolCatalog.Build.Session
import ToolCatalog.Outline.Record
import ToolCatalog.Types.Record
import ToolCatalog.Proofs.Build.Definitions
import ToolCatalog.Proofs.Build.Vectors
import ToolCatalog.Proofs.Schema.Meaning
import ToolCatalog.Proofs.Schema.Calls
import ToolCatalog.Proofs.Outline.Ancestry
import ToolCatalog.Proofs.Outline.Decoding
import ToolCatalog.Proofs.Build.Runs
import ToolCatalog.Proofs.Build.Failures
import ToolCatalog.Proofs.Storage.Parents
import ToolCatalog.Proofs.Storage.Rewrites
import ToolCatalog.Proofs.Build.Repeat
import ToolCatalog.Proofs.Documents
import ToolCatalog.Proofs.Embedding.Documents
import ToolCatalog.Proofs.Build.Manifests
import ToolCatalog.Proofs.Schema.Documentation
import ToolCatalog.Proofs.Schema.Tuples
import ToolCatalog.Proofs.Schema.Bounds
import ToolCatalog.Proofs.Schema.Properties
import ToolCatalog.Proofs.Schema.Keywords
import ToolCatalog.Proofs.Schema.Unfolding
import ToolCatalog.Proofs.Schema.Walk
import ToolCatalog.Proofs.Embedding.Plan
import ToolCatalog.Proofs.Embedding.Exact
import ToolCatalog.Proofs.Embedding.Order
import ToolCatalog.Proofs.Build.Missing
import ToolCatalog.Proofs.Doc.Blocks
import ToolCatalog.Proofs.Doc.Marks
import ToolCatalog.Proofs.Doc.Splitting
import ToolCatalog.Proofs.Doc.BracedTypes
import ToolCatalog.Proofs.Doc.Brackets
import ToolCatalog.Proofs.Doc.Written
import ToolCatalog.Proofs.Doc.Merging
import ToolCatalog.Proofs.Storage.Merging
import ToolCatalog.Proofs.Outline.Numbering
import ToolCatalog.Proofs.Types.Promises
import ToolCatalog.Proofs.Outline.Readable
import ToolCatalog.Proofs.Types.Evaluation
import ToolCatalog.Proofs.Doc.Normal
import ToolCatalog.Proofs.Build.Memo
