import ShaderPass.Json
import ShaderPass.Stage
import ShaderPass.TypeClass

/-!
Descriptors: what reflection knows about a resource, an attribute, a varying or a fragment output.
-/
namespace ShaderPass

/-- How often a resource is updated, from the most to the least often. -/
inductive Rate where
  | perInstance
  | perBatch
  | perPhase
  | perPass
  deriving Repr, DecidableEq

namespace Rate

def all : List Rate := [perInstance, perBatch, perPhase, perPass]

def name : Rate → String
  | perInstance => "instance"
  | perBatch => "batch"
  | perPhase => "phase"
  | perPass => "pass"

def ofName? (name : String) : Option Rate :=
  all.find? fun rate => rate.name = name

end Rate

inductive SampleType where
  | float
  | unfilterableFloat
  | depth
  | sint
  | uint
  deriving Repr, DecidableEq

namespace SampleType

def name : SampleType → String
  | float => "float"
  | unfilterableFloat => "unfilterable-float"
  | depth => "depth"
  | sint => "sint"
  | uint => "uint"

def ofType (type : Text) : SampleType :=
  let starts (head : String) := head.toList.isPrefixOf type
  if (Text.cut? "Shadow".toList type).isSome then .depth
  else if starts "isampler" || starts "itexture" then .sint
  else if starts "usampler" || starts "utexture" then .uint
  else .float

end SampleType

inductive MemoryAccess where
  | readOnly
  | writeOnly
  | readWrite
  deriving Repr, DecidableEq

def MemoryAccess.name : MemoryAccess → String
  | readOnly => "read-only"
  | writeOnly => "write-only"
  | readWrite => "read-write"

structure Member where
  name : String
  type : String
  precision : Option String := none
  /-- The array length as the source writes it. -/
  arraySize : Option String := none
  count : Nat
  deriving Repr, DecidableEq

def Member.toJson (m : Member) : Json :=
  .obj ([("name", .str m.name), ("type", .str m.type)] ++ Json.optional "precision" .str m.precision ++
    [("count", .nat m.count)])

structure Descriptor where
  name : String
  type : String
  count : Nat := 1
  precision : Option String := none
  members : List Member := []
  /-- The defines of the conditions around the declaration. -/
  defines : List String := []
  /-- The flags of all stages that declare it. -/
  stageFlags : Nat
  rate : Option Rate := none
  binding : Option Nat := none
  location : Option Nat := none
  inputAttachment : Option Nat := none
  sampleType : SampleType
  memoryAccess : Option MemoryAccess := none
  tags : List (String × String) := []
  deriving Repr, DecidableEq

namespace Descriptor

def declared (name type : String) (stage : Stage) : Descriptor :=
  { name := name, type := type, stageFlags := stage.flag, sampleType := .ofType type.toList }

def toJson (d : Descriptor) : Json :=
  .obj ([("name", .str d.name), ("type", .str d.type), ("count", .nat d.count)] ++
    Json.optional "precision" .str d.precision ++
    Json.nonempty "members" Member.toJson d.members ++
    [("defines", .list .str d.defines), ("stageFlags", .nat d.stageFlags)] ++
    Json.optional "rate" (fun rate => .str rate.name) d.rate ++
    Json.optional "binding" .nat d.binding ++
    Json.optional "location" .nat d.location ++
    Json.optional "inputAttachmentIndex" .nat d.inputAttachment ++
    [("sampleType", .str d.sampleType.name)] ++
    Json.optional "memoryAccess" (fun access => .str access.name) d.memoryAccess ++
    (if d.tags.isEmpty then []
      else [("tags", .obj (d.tags.map fun (key, value) => (key, .str value)))]))

end Descriptor
end ShaderPass
