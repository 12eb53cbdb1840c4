import ShaderPass.Declaration.Parser
import ShaderPass.Define
import ShaderPass.Dialect.Extension
import ShaderPass.Text.Splice

/-!
Shaders for GLSL ES 1.00: no blocks, no layout qualifiers, no user-defined outputs, and texture
functions named after the dimension of their sampler.
-/
namespace ShaderPass.Legacy

def drawBuffers : String := "GL_EXT_draw_buffers"

def textureLod : String := "GL_EXT_shader_texture_lod"

def textureFunctions : List String :=
  ["texture", "textureProj", "textureLod", "textureProjLod", "textureGrad", "textureProjGrad"]

def precisionMark (precision : Option String) : String :=
  (precision.map (· ++ " ")).getD ""

def declare (storage : String) (d : Descriptor) : String :=
  let array := if d.count = 1 then "" else s!"[{d.count}]"
  s!"{storage} {precisionMark d.precision}{d.type} {d.name}{array};"

/-- The used members of a block as single uniforms. The declaration itself is no use. -/
def flattenBlock (t : Text) (d : Descriptor) : String :=
  let used := d.members.filter fun m => Text.countWord t m.name.toList > 1
  "\n".intercalate (used.map fun m =>
    let array := (m.arraySize.map fun size => s!"[{size}]").getD ""
    s!"uniform {precisionMark m.precision}{m.type} {m.name}{array};")

def replacement? (t : Text) (d : Declaration) : Option String :=
  match d.category with
  | .block => some (flattenBlock t d.descriptor)
  | .vertexInput => some (declare "attribute" d.descriptor)
  | .varying => some (declare "varying" d.descriptor)
  | .fragColor => some ""
  | .buffer => none
  | _ => d.layoutRange.map fun _ => declare "uniform" d.descriptor

def replacements (t : Text) (ds : List Declaration) : List Edit :=
  ds.filterMap fun d => (replacement? t d).map fun r => ⟨d.start, d.stop, r.toList⟩

/-- The name and location of a fragment output. A missing location is an error. -/
def outputOf? (d : Declaration) : Compile (Option (String × Nat)) :=
  if d.category = .fragColor then
    match d.descriptor.location with
    | some location => return some (d.descriptor.name, location)
    | none => do
      Compile.error .missingOutputLocation
        s!"fragment output {d.descriptor.name} has no location" (some d.line)
      return none
  else return none

def renameOutputs (t : Text) : List (String × Nat) → Text
  | [] => t
  | [(name, _)] => Text.replaceWord t name.toList "gl_FragColor".toList
  | outputs => outputs.foldl
      (fun t (name, location) =>
        Text.replaceWord t name.toList s!"gl_FragData[{location}]".toList) t

structure TextureCall where
  function : Token
  sampler : Token

/-- The texture calls among tokens whose first argument starts with an identifier. -/
def textureCalls : List Token → List TextureCall
  | [] => []
  | t :: ts =>
    match ts with
    | opening :: sampler :: _ =>
      if t.isIdentifier && t.name ∈ textureFunctions && opening.isPunct '(' && sampler.isIdentifier
      then ⟨t, sampler⟩ :: textureCalls ts
      else textureCalls ts
    | _ => textureCalls ts

def samplerType? (tokens : List Token) (start stop : Nat) (name : String) : Option String :=
  (tokens.zip (tokens.drop 1)).findSome? fun (type, declared) =>
    if start ≤ type.start && type.start < stop && type.isIdentifier &&
      "sampler".toList.isPrefixOf type.lexeme && declared.isNamed name
    then some type.name else none

def dimension? (type : String) : Option String := do
  let dims ← Text.after? "sampler".toList type.toList
  ["2D", "Cube", "3D"].find? fun d => dims = d.toList || dims = d.toList ++ "Shadow".toList

/-- The dimension of a call's sampler. It is declared in the function around the call, or anywhere, or
it is a define that selects a sampler. -/
def callDimension? (source : Text) (tokens : List Token) (functions : List FunctionDef)
    (defines : List Define) (call : TextureCall) : Option String := do
  let sampler := call.sampler.name
  let stop := Text.byteLen source
  let inScope := (functions.find? (·.contains call.function.start)).bind fun f =>
    samplerType? tokens f.start f.stop sampler
  let options := (defines.filter fun d => d.name = sampler).flatMap fun d => d.options.getD []
  let type ← inScope <|> samplerType? tokens 0 stop sampler <|>
    options.findSome? (samplerType? tokens 0 stop)
  dimension? type

/-- Whether a fragment shader needs an extension for a texture function. -/
def needsLod (stage : Stage) (suffix : Text) : Bool :=
  stage = .fragment && ("Lod".toList.isSuffixOf suffix || "Grad".toList.isSuffixOf suffix)

def textureName (stage : Stage) (function : Token) (dimension : String) : Text :=
  let suffix := function.lexeme.drop "texture".length
  "texture".toList ++ dimension.toList ++ suffix ++
    if needsLod stage suffix then "EXT".toList else []

/-- The edits that rename the texture calls of a text by the dimensions of their samplers. Each tells
whether its call chooses the level of detail. -/
def textureEdits (t : Text) (stage : Stage) (defines : List Define) : Compile (List (Edit × Bool)) := do
  let tokens := Token.significant t
  let functions := FunctionDef.find t
  let edits ← (textureCalls tokens).mapM fun call => do
    let function := call.function
    match callDimension? t tokens functions defines call with
    | some dimension =>
      return some (⟨function.start, function.stop, textureName stage function dimension⟩,
        needsLod stage (function.lexeme.drop "texture".length))
    | none =>
      Compile.error .unresolvedSampler
        s!"unable to determine the sampler type of {call.sampler.name} for {function.name}"
        (some (Text.lineOf t function.start))
      return none
  return edits.filterMap id

/-- Renames the texture calls of a text, and tells whether one of them chooses its level of detail. -/
def remapTextures (t : Text) (stage : Stage) (defines : List Define) : Compile (Text × Bool) := do
  let edits ← textureEdits t stage defines
  return (Text.splice t (edits.map Prod.fst), edits.any Prod.snd)

structure Transcoded where
  text : Text
  extensions : List Extension
  deriving Repr, DecidableEq

/-- Turns the declarations and texture calls of a shader into those of the older language. The text is
known to be valid, so its declarations are read without reporting. -/
def transcode (t : Text) (stage : Stage) (defines : List Define) : Compile Transcoded := do
  let declarations ← Compile.silently (Declaration.extract t stage (FunctionDef.find t))
  let outputs := (← declarations.mapM outputOf?).filterMap id
  let replaced := Text.splice t (replacements t declarations)
  let (text, lod) ← remapTextures (renameOutputs replaced outputs) stage defines
  return ⟨text, (if outputs.length > 1 then [⟨drawBuffers, true⟩] else []) ++
    (if lod then [⟨textureLod, false⟩] else [])⟩

end ShaderPass.Legacy
