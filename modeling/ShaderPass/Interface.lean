import ShaderPass.Descriptor
import ShaderPass.Diagnostic.Report
import ShaderPass.Table

/-!
The interface of a pass: the descriptors of all its stages, by category.

Declarations of one name are merged. The first one keeps its fields, and later ones add their stage,
their slot if none is known yet, and new tags.
-/
namespace ShaderPass

/-- The kinds of descriptors, in the order in which slots are allocated. -/
inductive Category where
  | block
  | samplerTexture
  | sampler
  | texture
  | buffer
  | image
  | subpassInput
  | vertexInput
  | varying
  | fragColor
  deriving Repr, DecidableEq

namespace Category

def all : List Category :=
  [.block, .samplerTexture, .sampler, .texture, .buffer, .image, .subpassInput, .vertexInput, .varying,
    .fragColor]

theorem mem_all (c : Category) : c ∈ all := by
  cases c <;> decide

def name : Category → String
  | block => "Block"
  | samplerTexture => "SamplerTexture"
  | sampler => "Sampler"
  | texture => "Texture"
  | buffer => "Buffer"
  | image => "Image"
  | subpassInput => "SubpassInput"
  | vertexInput => "Attribute"
  | varying => "Varying"
  | fragColor => "FragColor"

def key : Category → String
  | block => "blocks"
  | samplerTexture => "samplerTextures"
  | sampler => "samplers"
  | texture => "textures"
  | buffer => "buffers"
  | image => "images"
  | subpassInput => "subpassInputs"
  | vertexInput => "attributes"
  | varying => "varyings"
  | fragColor => "fragColors"

def usesLocation : Category → Bool
  | vertexInput | varying | fragColor => true
  | _ => false

def ofResource : ResourceType → Category
  | .samplerTexture => samplerTexture
  | .sampler => sampler
  | .texture => texture
  | .image => image
  | .subpassInput => subpassInput

end Category

structure Interface where
  list : Category → List Descriptor := fun _ => []

namespace Interface

def set (info : Interface) (c : Category) (descriptors : List Descriptor) : Interface :=
  ⟨fun c' => if c' = c then descriptors else info.list c'⟩

@[simp] theorem list_set_self (info : Interface) (c : Category) (ds : List Descriptor) :
    (info.set c ds).list c = ds := by
  simp [set]

@[simp] theorem list_set_of_ne (info : Interface) {c c' : Category} (ds : List Descriptor)
    (h : c' ≠ c) : (info.set c ds).list c' = info.list c' := by
  simp [set, h]

def map (info : Interface) (f : Descriptor → Descriptor) : Interface :=
  ⟨fun c => (info.list c).map f⟩

def toList (info : Interface) : List (Category × Descriptor) :=
  Category.all.flatMap fun c => (info.list c).map fun d => (c, d)

def find? (info : Interface) (c : Category) (name : String) : Option Descriptor :=
  (info.list c).find? fun d => d.name = name

/-- Keeps what `existing` declares and adds what it lacks. -/
def mergeDescriptor (existing other : Descriptor) : Descriptor :=
  { existing with
    stageFlags := existing.stageFlags ||| other.stageFlags
    binding := existing.binding <|> other.binding
    location := existing.location <|> other.location
    tags := other.tags.foldl
      (fun tags (key, value) =>
        if (Table.get? tags key).isSome then tags else tags ++ [(key, value)]) existing.tags }

def insert (info : Interface) (c : Category) (d : Descriptor) : Interface :=
  info.set c (Table.upsert (fun e => e.name = d.name) (fun e => mergeDescriptor e d) d (info.list c))

def conflicts (info : Interface) (c : Category) (d : Descriptor) : Bool :=
  (info.find? c d.name).any fun e => e.members ≠ d.members

/-- Adds declarations one after the other. A conflict is an error; if it stops the compilation,
exactly the declarations before it have been added. -/
def addAll (info : Interface) : List (Category × Descriptor) →
    StateM Report (Except Failure Unit × Interface)
  | [] => return (.ok (), info)
  | (c, d) :: rest => do
    let outcome ← ExceptT.run <|
      if info.conflicts c d then
        Compile.error .inconsistentDeclaration s!"{c.name} {d.name} is declared with different members"
      else pure ()
    match outcome with
    | .error failure => return (.error failure, info)
    | .ok _ => (info.insert c d).addAll rest

/-- Categories with bindings are listed even when they are empty, those with locations only when they
are not. -/
def toJson (info : Interface) : Json :=
  .obj (Category.all.flatMap fun c =>
    if c.usesLocation then Json.nonempty c.key Descriptor.toJson (info.list c)
    else [(c.key, .list Descriptor.toJson (info.list c))])

end Interface
end ShaderPass
