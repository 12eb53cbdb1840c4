import ShaderPass.Check.Backend
import ShaderPass.Check.Static
import ShaderPass.Murmur
import ShaderPass.Pass.Reflection
import ShaderPass.Pass.Rendition
import ShaderPass.Pass.Source
import ShaderPass.Slot

/-!
Compiling a pass: every stage is reduced to a base text and reflected, slots are allocated once for all
dialects, every dialect is rendered, and the lowest one is checked.
-/
namespace ShaderPass

structure Options where
  /-- The name of the effect in diagnostics. -/
  effect : String := "unnamed"
  /-- Stop at the first error instead of reporting it only. -/
  throwOnError : Bool := true
  skipBackendCheck : Bool := false
  /-- Log the sources of the lowest dialect. -/
  dumpSource : Bool := false

structure StageText where
  dialect : Dialect
  stage : Stage
  text : Text
  deriving Repr, DecidableEq

structure CompiledPass where
  name : String
  texts : List StageText
  /-- The defines that select variants, constants left out. -/
  defines : List Define
  info : Interface
  /-- The names of the included chunks. -/
  record : List String
  diagnostics : List Diagnostic

namespace CompiledPass

def textOf? (texts : List StageText) (dialect : Dialect) (stage : Stage) : Option Text :=
  (texts.find? fun t => t.dialect = dialect && t.stage = stage).map StageText.text

def stageOrder : List Stage := [.vertex, .fragment, .compute]

def hash (pass : CompiledPass) : UInt32 :=
  Murmur.hashSources (Dialect.all.flatMap fun d => stageOrder.filterMap (textOf? pass.texts d))

def toJson (pass : CompiledPass) : Json :=
  let dialects := Dialect.all.map fun d =>
    (d.key, Json.obj (stageOrder.flatMap fun s => Json.optional s.name .text (textOf? pass.texts d s)))
  .obj ([("name", .str pass.name), ("hash", .nat pass.hash.toNat)] ++ dialects ++
    [("builtins", Reflection.builtinsJson pass.info),
      ("defines", .list Define.toJson pass.defines),
      ("descriptors", .list Interface.toJson (Reflection.byRate pass.info)),
      ("attributes", .list Descriptor.toJson (pass.info.list .vertexInput)),
      ("varyings", .list Descriptor.toJson (pass.info.list .varying)),
      ("fragColors", .list Descriptor.toJson (pass.info.list .fragColor)),
      ("record", .list .str pass.record)] ++
    Json.nonempty "diagnostics" Diagnostic.toJson pass.diagnostics)

end CompiledPass

namespace PassSource

structure StageBase where
  stage : Stage
  shader : ShaderSource
  base : Text

structure Gathered where
  record : List String := []
  defines : List Define := []
  info : Interface := {}
  bases : List StageBase := []

def gather (library : ChunkLibrary) (supply : ChunkSupply) (g : Gathered)
    (stage : Stage × ShaderSource) : Compile Gathered := do
  Compile.setShader stage.2.name
  let base ← stage.2.base library supply stage.1
  let info ← Reflection.reflect base.text stage.1 g.info
  return {
    record := base.record.foldl Table.addKey g.record
    defines := Define.merge g.defines (Define.scan base.text)
    info := info
    bases := g.bases ++ [⟨stage.1, stage.2, base.text⟩] }

def renderStage (info : Interface) (defines : List Define) (b : StageBase) :
    Compile (List StageText) := do
  Compile.setShader b.shader.name
  (Dialect.all.filter fun d => d.supports b.stage).mapM fun d => do
    return ⟨d, b.stage, ← Rendition.render b.base b.stage d info defines⟩

def checkStage (options : Options) (texts : List StageText) (b : StageBase) : Compile Unit := do
  Compile.setShader b.shader.name
  match CompiledPass.textOf? texts .es1 b.stage with
  | some t =>
    if options.dumpSource then
      let listing := String.ofList (Backend.numbered t)
      Compile.emit (.log .info s!"{b.shader.name}:\n{listing}")
    Check.static t b.stage
  | none => pure ()

def checkProgram (backend : Backend) (pass : PassSource) (texts : List StageText) : Compile Unit :=
  match CompiledPass.textOf? texts .es1 .vertex, CompiledPass.textOf? texts .es1 .fragment with
  | some vertex, some fragment => do
    Compile.setShader pass.name
    backend.check vertex fragment
  | _, _ => pure ()

def compileReporting (library : ChunkLibrary) (supply : ChunkSupply) (backend : Backend)
    (options : Options) (pass : PassSource) : Compile CompiledPass := do
  let g ← (← pass.stages).foldlM (gather library supply) {}
  Compile.setShader pass.name
  let (info, fault) := Slot.allocate g.info
  Slot.check fault
  let info := Reflection.assignRates info
  let texts := (← g.bases.mapM (renderStage info g.defines)).flatten
  g.bases.forM (checkStage options texts)
  if !options.skipBackendCheck then
    checkProgram backend pass texts
  return {
    name := pass.name
    texts := texts
    defines := g.defines.filter fun d => d.type ≠ .constant
    info := info
    record := g.record
    diagnostics := (← getThe Report).messages }

/-- Compiles a pass. The report is what an observer saw, also after a failure. -/
def compile (library : ChunkLibrary) (supply : ChunkSupply) (backend : Backend) (options : Options)
    (pass : PassSource) : Except Failure CompiledPass × Report :=
  (compileReporting library supply backend options pass).runWith
    { effect := options.effect, throwOnError := options.throwOnError, shader := pass.name }

end PassSource
end ShaderPass
