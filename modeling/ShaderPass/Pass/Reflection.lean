import ShaderPass.Declaration.Parser
import ShaderPass.Dialect.Conditional
import ShaderPass.Subpass.Rendering
import ShaderPass.Tag

/-!
Reflection of a pass: its interface as the highest dialect declares it, the update rates of its
resources, and the names that the engine provides.
-/
namespace ShaderPass.Reflection

def version : Nat := 460

def reflect (base : Text) (stage : Stage) (info : Interface) : Compile Interface := do
  let t := Conditional.downlevel (← Subpass.expand base version) version
  let declarations ← Declaration.extract t stage (FunctionDef.find t)
  let (outcome, info) ←
    monadLift (info.addAll (declarations.map fun d => (d.category, d.descriptor)))
  match outcome with
  | .ok _ => Tag.apply t info
  | .error failure => throw failure

/-- Whether a name belongs to the engine: `cc` in any case, and more identifier characters. -/
def isBuiltin (name : String) : Bool :=
  match name.toList with
  | a :: b :: c :: rest => a.toLower = 'c' && b.toLower = 'c' && (c :: rest).all isIdentChar
  | _ => false

def defaultRate (d : Descriptor) : Rate :=
  if isBuiltin d.name then
    if Table.get? d.tags "builtin" = some "local" then .perInstance else .perPass
  else .perBatch

def assignRates (info : Interface) : Interface :=
  ⟨fun c =>
    if c.usesLocation then info.list c
    else (info.list c).map fun d => { d with rate := some (d.rate.getD (defaultRate d)) }⟩

def withRate (info : Interface) (rate : Rate) : Interface :=
  ⟨fun c =>
    if c.usesLocation then [] else (info.list c).filter fun d => d.rate.getD .perBatch = rate⟩

def byRate (info : Interface) : List Interface :=
  Rate.all.map (withRate info)

def builtinCategories : List Category :=
  [.block, .samplerTexture, .buffer, .image]

/-- The names of the builtin resources of a category that are updated per pass, or that are not. -/
def builtinNames (info : Interface) (perPass : Bool) (c : Category) : List String :=
  ((info.list c).filter fun d =>
    isBuiltin d.name && decide (d.rate = some .perPass) == perPass).map Descriptor.name

def usedVectors (info : Interface) (stage : Stage) : UInt32 :=
  let blocks := (info.list .block).filter fun b => b.stageFlags &&& stage.flag = stage.flag
  (blocks.flatMap Descriptor.members).foldl (fun n m => n + Std140.uniformVectors m) 0

def builtinsJson (info : Interface) : Json :=
  let names (perPass : Bool) : Json :=
    .obj (builtinCategories.map fun c => (c.key, .list .str (builtinNames info perPass c)))
  .obj [("globals", names true), ("locals", names false),
    ("statistics", .obj [
      ("CC_EFFECT_USED_VERTEX_UNIFORM_VECTORS", .nat (usedVectors info .vertex)),
      ("CC_EFFECT_USED_FRAGMENT_UNIFORM_VECTORS", .nat (usedVectors info .fragment)),
      ("CC_EFFECT_USED_COMPUTE_UNIFORM_VECTORS", .nat (usedVectors info .compute))])]

end ShaderPass.Reflection
