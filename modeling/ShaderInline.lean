import ShaderInline.Main
import ShaderInline.Proofs.Text.Offset
import ShaderInline.Proofs.Text.Search
import ShaderInline.Proofs.Token.Cut
import ShaderInline.Proofs.Token.Lookahead
import ShaderInline.Proofs.Token.Restart
import ShaderInline.Proofs.Tree.Nesting
import ShaderInline.Proofs.Tree.Leaves
import ShaderInline.Proofs.Tree.Matching
import ShaderInline.Proofs.Tree.Tags
import ShaderInline.Proofs.Expand.Sites
import ShaderInline.Proofs.SourceMap.Lookup
import ShaderInline.Proofs.SourceMap.Segments
import ShaderInline.Proofs.SourceMap
import ShaderInline.Proofs.Edit
import ShaderInline.Proofs.Expand.Unfold
import ShaderInline.Proofs.Expand.Run
import ShaderInline.Proofs.Expand.Provenance
import ShaderInline.Proofs.Token.Kinds
import ShaderInline.Proofs.Expand.Sections
import ShaderInline.Proofs.Expand.ImportFree
import ShaderInline.Proofs.LineDirective
import ShaderInline.Proofs.LineIndex
import ShaderInline.Proofs.Expand.Seams
import ShaderInline.Proofs.Expand.Lines
import ShaderInline.Proofs.Tree.Marks
import ShaderInline.Proofs.Expand.Failed
import ShaderInline.Proofs.Expand.Inlining
import ShaderInline.Proofs.Tree.Lossless
import ShaderInline.Proofs.Tree.Leading
import ShaderInline.Proofs.Expand.FirstLine
import ShaderInline.Proofs.Define
import ShaderInline.Proofs.Pipeline
import ShaderInline.Proofs.Expand.Cancel
import ShaderInline.Proofs.Expand.Context
import ShaderInline.Proofs.Expand.Stack
import ShaderInline.Proofs.Text.Split
import ShaderInline.Proofs.Files.Path
import ShaderInline.Proofs.Files.Tree
import ShaderInline.Proofs.Resource.Reference
import ShaderInline.Proofs.Expand.RootText
import ShaderInline.Proofs.Command.Outputs
import ShaderInline.Proofs.Tree.Seam
import ShaderInline.Proofs.Woven
import ShaderInline.Proofs.Expand.Directives
import ShaderInline.Proofs.Unchanged
import ShaderInline.Proofs.Command.Isolation
import ShaderInline.Proofs.Text.Decimal
import ShaderInline.Proofs.Json.RoundTrip
import ShaderInline.Proofs.Config.Json
import ShaderInline.Proofs.Toml.Strings
import ShaderInline.Proofs.Toml.Values
import ShaderInline.Proofs.Toml.Table
import ShaderInline.Proofs.Toml.Document
import ShaderInline.Proofs.Config.Toml
import ShaderInline.Proofs.Tree.Scan
import ShaderInline.Proofs.Edit.Sequence
import ShaderInline.Proofs.Tree.Pairs
import ShaderInline.Proofs.Tree.LineEnd
import ShaderInline.Proofs.Define.Lines
import ShaderInline.Proofs.SourceMap.Build
import ShaderInline.Proofs.Edit.Outcome
import ShaderInline.Proofs.Text.Trim
import ShaderInline.Proofs.Resource.Normalize
import ShaderInline.Proofs.Resource.Display
import ShaderInline.Proofs.LineIndex.Terminators
import ShaderInline.Proofs.LineDirective.Placement
import ShaderInline.Proofs.Ascii
import ShaderInline.Proofs.Tree.Quotation
import ShaderInline.Proofs.Expand.Depth
import ShaderInline.Proofs.Tree.Loose
import ShaderInline.Proofs.Tree.Blocks
import ShaderInline.Proofs.Token.Lines
import ShaderInline.Proofs.Token.Turns
import ShaderInline.Proofs.Tree.Origins
