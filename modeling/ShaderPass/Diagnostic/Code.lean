/-!
Diagnostic codes, one per rule a shader can violate.

A code is displayed as `EFX` and its number, and numbers are never reused.
-/
namespace ShaderPass

inductive Code where
  /-- An include that names no chunk. -/
  | chunkNotFound
  /-- A macro with parameters that refers to itself. -/
  | recursiveMacro
  /-- An included chunk marked as deprecated. -/
  | deprecatedChunk
  /-- An identifier that some chunk marks as deprecated. -/
  | deprecatedIdentifier
  /-- A macro call with the wrong number of arguments. -/
  | macroArgumentCount
  /-- A numeric uniform outside a uniform block. -/
  | uniformOutsideBlock
  /-- An array length that is no constant expression. -/
  | nonConstantArrayLength
  /-- A block array whose elements are not 16-byte aligned. -/
  | arrayAlignment
  /-- A three-component member that no scalar follows. -/
  | vec3Member
  /-- A member that would need padding before it. -/
  | implicitPadding
  /-- A preprocessor line inside a block. -/
  | directiveInBlock
  /-- Declarations of one name that differ. -/
  | inconsistentDeclaration
  /-- A block member of opaque type. -/
  | opaqueTypeInBlock
  /-- A matrix member other than 4x4. -/
  | nonSquareMatrix
  /-- A block member of structure type. -/
  | structMember
  /-- An update rate that does not exist. -/
  | unknownRate
  /-- A texture call whose sampler is not declared. -/
  | unresolvedSampler
  /-- A fragment output without a location. -/
  | missingOutputLocation
  /-- An extension line after a precision declaration. -/
  | extensionAfterPrecision
  /-- A fragment shader that declares no float precision. -/
  | missingPrecision
  /-- A reserved word used as an identifier. -/
  | reservedKeyword
  /-- An entry function that is not defined. -/
  | missingEntry
  /-- Final source that does not parse. -/
  | parseFailed
  /-- An extension condition that can not be evaluated. -/
  | invalidExtensionCondition
  /-- A stage that the backend rejects. -/
  | compileFailed
  /-- A program that the backend can not link. -/
  | linkFailed
  /-- A malformed subpass statement. -/
  | invalidSubpassStatement
  /-- An attachment that can not be read and written. -/
  | subpassInOutMismatch
  /-- A uniform block bound out of order. -/
  | blockBinding
  /-- A combined sampler bound out of order. -/
  | samplerTextureBinding
  /-- A sampler bound out of order. -/
  | samplerBinding
  /-- A texture bound out of order. -/
  | textureBinding
  /-- A buffer bound out of order. -/
  | bufferBinding
  /-- An image bound out of order. -/
  | imageBinding
  /-- A subpass input without an attachment, or sharing one. -/
  | subpassInputBinding
  /-- Graphics and compute stages in one pass. -/
  | mixedStages
  deriving Repr, DecidableEq

namespace Code

def all : List Code :=
  [.chunkNotFound, .recursiveMacro, .deprecatedChunk, .deprecatedIdentifier,
   .macroArgumentCount, .uniformOutsideBlock, .nonConstantArrayLength, .arrayAlignment,
   .vec3Member, .implicitPadding, .directiveInBlock, .inconsistentDeclaration,
   .opaqueTypeInBlock, .nonSquareMatrix, .structMember, .unknownRate, .unresolvedSampler,
   .missingOutputLocation, .extensionAfterPrecision, .missingPrecision, .reservedKeyword,
   .missingEntry, .parseFailed, .invalidExtensionCondition, .compileFailed, .linkFailed,
   .invalidSubpassStatement, .subpassInOutMismatch, .blockBinding, .samplerTextureBinding,
   .samplerBinding, .textureBinding, .bufferBinding, .imageBinding, .subpassInputBinding,
   .mixedStages]

def number : Code → Nat
  | chunkNotFound => 2001
  | recursiveMacro => 2002
  | deprecatedChunk => 2003
  | deprecatedIdentifier => 2004
  | macroArgumentCount => 2005
  | uniformOutsideBlock => 2201
  | nonConstantArrayLength => 2202
  | arrayAlignment => 2203
  | vec3Member => 2204
  | implicitPadding => 2205
  | directiveInBlock => 2206
  | inconsistentDeclaration => 2207
  | opaqueTypeInBlock => 2208
  | nonSquareMatrix => 2210
  | structMember => 2211
  | unknownRate => 2212
  | unresolvedSampler => 2300
  | missingOutputLocation => 2302
  | extensionAfterPrecision => 2400
  | missingPrecision => 2401
  | reservedKeyword => 2402
  | missingEntry => 2403
  | parseFailed => 2404
  | invalidExtensionCondition => 2405
  | compileFailed => 2406
  | linkFailed => 2407
  | invalidSubpassStatement => 2410
  | subpassInOutMismatch => 2411
  | blockBinding => 2601
  | samplerTextureBinding => 2602
  | samplerBinding => 2603
  | textureBinding => 2604
  | bufferBinding => 2605
  | imageBinding => 2606
  | subpassInputBinding => 2607
  | mixedStages => 2700

def name : Code → String
  | chunkNotFound => "ChunkNotFound"
  | recursiveMacro => "RecursiveMacro"
  | deprecatedChunk => "DeprecatedChunk"
  | deprecatedIdentifier => "DeprecatedIdentifier"
  | macroArgumentCount => "MacroArgumentCount"
  | uniformOutsideBlock => "UniformOutsideBlock"
  | nonConstantArrayLength => "NonConstantArrayLength"
  | arrayAlignment => "ArrayAlignment"
  | vec3Member => "Vec3Member"
  | implicitPadding => "ImplicitPadding"
  | directiveInBlock => "DirectiveInBlock"
  | inconsistentDeclaration => "InconsistentDeclaration"
  | opaqueTypeInBlock => "OpaqueTypeInBlock"
  | nonSquareMatrix => "NonSquareMatrix"
  | structMember => "StructMember"
  | unknownRate => "UnknownRate"
  | unresolvedSampler => "UnresolvedSampler"
  | missingOutputLocation => "MissingOutputLocation"
  | extensionAfterPrecision => "ExtensionAfterPrecision"
  | missingPrecision => "MissingPrecision"
  | reservedKeyword => "ReservedKeyword"
  | missingEntry => "MissingEntry"
  | parseFailed => "ParseFailed"
  | invalidExtensionCondition => "InvalidExtensionCondition"
  | compileFailed => "CompileFailed"
  | linkFailed => "LinkFailed"
  | invalidSubpassStatement => "InvalidSubpassStatement"
  | subpassInOutMismatch => "SubpassInOutMismatch"
  | blockBinding => "BlockBinding"
  | samplerTextureBinding => "SamplerTextureBinding"
  | samplerBinding => "SamplerBinding"
  | textureBinding => "TextureBinding"
  | bufferBinding => "BufferBinding"
  | imageBinding => "ImageBinding"
  | subpassInputBinding => "SubpassInputBinding"
  | mixedStages => "MixedStages"

def display (code : Code) : String :=
  s!"EFX{code.number}"

theorem mem_all (code : Code) : code ∈ all := by
  cases code <;> decide

end Code
end ShaderPass
