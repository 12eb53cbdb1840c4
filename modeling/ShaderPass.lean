import ShaderPass.Main
import ShaderPass.Proofs.Dialect.Preprocessing
import ShaderPass.Proofs.Slot.Allocation
import ShaderPass.Proofs.Text.Offset
import ShaderPass.Proofs.Text.Trimming
import ShaderPass.Proofs.Text.Arguments
import ShaderPass.Proofs.Token.Position
import ShaderPass.Proofs.Token.Locality
import ShaderPass.Proofs.Token.Nesting
import ShaderPass.Proofs.LiveCode.Elimination
import ShaderPass.Proofs.Declaration.Alike
import ShaderPass.Proofs.Declaration.Exchange
import ShaderPass.Proofs.Declaration.Extraction
import ShaderPass.Proofs.Declaration.LayoutText
import ShaderPass.Proofs.Declaration.Location
import ShaderPass.Proofs.Declaration.Placement
import ShaderPass.Proofs.Declaration.Rewriting
import ShaderPass.Proofs.Diagnostic.Composition
import ShaderPass.Proofs.Pass.Errors
import ShaderPass.Proofs.Chunk.Inclusion
import ShaderPass.Proofs.LiveCode.Naming
import ShaderPass.Proofs.Token.Cutting
import ShaderPass.Proofs.FunctionDef.Sequence
import ShaderPass.Proofs.LiveCode.Stability
import ShaderPass.Proofs.Declaration.Entries
import ShaderPass.Proofs.Declaration.RoundTrip
import ShaderPass.Proofs.Interface.Merging
import ShaderPass.Proofs.Slot.Extent
import ShaderPass.Proofs.Diagnostic.Signature
import ShaderPass.Proofs.Pass.Signature
import ShaderPass.Proofs.Define.Agreement
import ShaderPass.Proofs.Define.Dependency
import ShaderPass.Proofs.Subpass.Attachment
import ShaderPass.Proofs.Chunk.Deprecation
import ShaderPass.Proofs.Macro.Expansion
import ShaderPass.Proofs.Macro.Frame
import ShaderPass.Proofs.Macro.Scope
import ShaderPass.Proofs.ConstExpr.Spelling
import ShaderPass.Proofs.Declaration.Splicing
import ShaderPass.Proofs.Dialect.Comments
import ShaderPass.Proofs.Dialect.Transcoding
import ShaderPass.Proofs.Token.Stripping
import ShaderPass.Proofs.Token.Fusion
import ShaderPass.Proofs.TypeClass.Shape
import ShaderPass.Proofs.Std140.Padding
import ShaderPass.Proofs.Dialect.OutputVariable
import ShaderPass.Proofs.Dialect.ArrayLength
import ShaderPass.Proofs.Dialect.Flattening
import ShaderPass.Proofs.Dialect.SamplerScope
import ShaderPass.Proofs.ConstExpr.Version
import ShaderPass.Proofs.Define.Comparison
import ShaderPass.Proofs.Define.Merging
import ShaderPass.Proofs.Pass.Defines
import ShaderPass.Proofs.Condition.Chains
import ShaderPass.Proofs.Declaration.Conditions
import ShaderPass.Proofs.Pass.Tidying
import ShaderPass.Proofs.Pass.Rates
import ShaderPass.Proofs.Pass.Wrapping
import ShaderPass.Proofs.Declaration.MemoryLayout
import ShaderPass.Proofs.FunctionDef.Appending
import ShaderPass.Proofs.Token.Appending
import ShaderPass.Proofs.Murmur.Mixing
import ShaderPass.Proofs.Token.Matching
import ShaderPass.Proofs.Macro.WholeWord
import ShaderPass.Proofs.Declaration.Rereading
import ShaderPass.Proofs.Define.Properties
