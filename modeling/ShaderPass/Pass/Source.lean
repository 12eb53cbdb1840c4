import ShaderPass.Chunk.Include
import ShaderPass.LiveCode
import ShaderPass.Macro.Functional

/-!
The shaders of a pass, and the base text that all dialects of a shader start from: includes and macros
are expanded, comments and unreachable functions are gone, and there is a `main`.
-/
namespace ShaderPass

structure ShaderSource where
  /-- The name that diagnostics use. -/
  name : String
  source : Text
  /-- The function that the shader starts with. -/
  entry : String := "main"
  deriving Repr, DecidableEq

structure PassSource where
  name : String
  vertex : Option ShaderSource := none
  fragment : Option ShaderSource := none
  compute : Option ShaderSource := none
  deriving Repr, DecidableEq

/-- The stages of a pass, in order. A pass has graphics stages or a compute stage, and not both. -/
def PassSource.stages (pass : PassSource) : Compile (List (Stage × ShaderSource)) :=
  let graphics := (pass.vertex.map fun s => (Stage.vertex, s)).toList ++
    (pass.fragment.map fun s => (Stage.fragment, s)).toList
  match graphics, pass.compute with
  | [], some compute => return [(.compute, compute)]
  | [], none => Compile.fatal .mixedStages "pass has no shaders"
  | _ :: _, some _ =>
    Compile.fatal .mixedStages "graphics and compute shaders can't be combined in one pass"
  | graphics, none => return graphics

namespace ShaderSource

def mainFor (stage : Stage) (returnType entry : String) : String :=
  match stage, returnType with
  | .vertex, "vec4" => "void main() \x7b gl_Position = " ++ entry ++ "(); \x7d"
  | .fragment, "vec4" =>
    "layout(location = 0) out vec4 cc_FragColor;\n" ++
      "void main() \x7b cc_FragColor = " ++ entry ++ "(); \x7d"
  | _, _ => "void main() \x7b " ++ entry ++ "(); \x7d"

/-- Appends a `main` for an entry of another name, if the text defines that entry. -/
def wrapEntry (t : Text) (stage : Stage) (entry : String) : Text :=
  if entry = "main" then t
  else match (FunctionDef.find t).find? fun f => f.name = entry with
    | some f => Text.trimEnd t ++ '\n' :: (mainFor stage f.returnType entry).toList ++ ['\n']
    | none => t

def base (library : ChunkLibrary) (supply : ChunkSupply) (stage : Stage) (shader : ShaderSource) :
    Compile Include.Resolved := do
  let resolved ← Include.resolve library supply shader.source
  let expanded ← Macro.expandAll (Text.stripComments resolved.text)
  let live ← LiveCode.eliminateReporting (wrapEntry expanded stage shader.entry) shader.entry
  Compile.debug s!"{shader.name}: {live.functions.length} functions after dead code elimination"
  return ⟨live.text, resolved.record⟩

end ShaderSource
end ShaderPass
