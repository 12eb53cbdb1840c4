import ShaderPass.Interface

/-!
Slots: the bindings of resources and the locations of stage variables, shared by every dialect.

Bindings count up in declaration order in each category, and an explicit binding has to continue the
count. A subpass input is bound to its attachment. Locations fill the gaps that explicit ones leave.
-/
namespace ShaderPass.Slot

inductive Fault where
  | skipsAhead (category : Category) (name : String) (binding next : Nat)
  | alreadyBound (category : Category) (name : String) (binding : Nat)
  | noAttachment (name : String)
  | sharedAttachment (name : String) (index : Nat)
  deriving Repr, DecidableEq

def bindingCode : Category → Code
  | .samplerTexture => .samplerTextureBinding
  | .sampler => .samplerBinding
  | .texture => .textureBinding
  | .buffer => .bufferBinding
  | .image => .imageBinding
  | .subpassInput => .subpassInputBinding
  | _ => .blockBinding

namespace Fault

def code : Fault → Code
  | skipsAhead c _ _ _ | alreadyBound c _ _ => bindingCode c
  | noAttachment _ | sharedAttachment _ _ => .subpassInputBinding

def message : Fault → String
  | skipsAhead c name binding next =>
    s!"{c.name} {name} has binding {binding} but the next binding is {next}"
  | alreadyBound c name binding => s!"{c.name} {name} has binding {binding} which is already assigned"
  | noAttachment name => s!"subpass input {name} has no input attachment index"
  | sharedAttachment name index =>
    s!"subpass input {name} uses input attachment {index} which is already assigned"

end Fault

def boundCategories : List Category :=
  [.block, .samplerTexture, .sampler, .texture, .buffer, .image]

def locatedCategories : List Category :=
  [.vertexInput, .varying, .fragColor]

/-- Binds descriptors to `next` and the numbers after it, up to the first that is explicitly bound
elsewhere. -/
def bindFrom (c : Category) (next : Nat) : List Descriptor → List Descriptor × Option Fault
  | [] => ([], none)
  | d :: ds =>
    match d.binding with
    | some binding =>
      if binding = next then
        let (bound, fault) := bindFrom c (next + 1) ds
        (d :: bound, fault)
      else if binding > next then (d :: ds, some (.skipsAhead c d.name binding next))
      else (d :: ds, some (.alreadyBound c d.name binding))
    | none =>
      let (bound, fault) := bindFrom c (next + 1) ds
      ({ d with binding := some next } :: bound, fault)

/-- Binds the categories in turn, up to the first fault. -/
def bindCategories (info : Interface) : List Category → Interface × Option Fault
  | [] => (info, none)
  | c :: cs =>
    match bindFrom c 0 (info.list c) with
    | (bound, none) => bindCategories (info.set c bound) cs
    | (bound, some fault) => (info.set c bound, some fault)

/-- Binds subpass inputs to their attachments, of which `used` are taken. -/
def attach (used : List Nat) : List Descriptor → List Descriptor × Option Fault
  | [] => ([], none)
  | d :: ds =>
    match d.inputAttachment <|> d.binding with
    | none => (d :: ds, some (.noAttachment d.name))
    | some index =>
      if index ∈ used then (d :: ds, some (.sharedAttachment d.name index))
      else
        let (bound, fault) := attach (index :: used) ds
        ({ d with binding := some index } :: bound, fault)

def leastFree (used : List Nat) : Nat :=
  ((List.range (used.length + 1)).find? (· ∉ used)).getD used.length

def locateFrom (used : List Nat) : List Descriptor → List Descriptor
  | [] => []
  | d :: ds =>
    match d.location with
    | some _ => d :: locateFrom used ds
    | none =>
      let free := leastFree used
      { d with location := some free } :: locateFrom (free :: used) ds

def locate (ds : List Descriptor) : List Descriptor :=
  locateFrom (ds.filterMap Descriptor.location) ds

/-- Drops the sampled stand-ins of subpass inputs, which are bound through the input. -/
def dropStandIns (info : Interface) : Interface :=
  let inputs := (info.list .subpassInput).map Descriptor.name
  info.set .samplerTexture ((info.list .samplerTexture).filter fun d => d.name ∉ inputs)

/-- Gives every descriptor a slot. After a fault the interface keeps the slots given before it. -/
def allocate (info : Interface) : Interface × Option Fault :=
  match bindCategories (dropStandIns info) boundCategories with
  | (info, some fault) => (info, some fault)
  | (info, none) =>
    match attach [] (info.list .subpassInput) with
    | (inputs, some fault) => (info.set .subpassInput inputs, some fault)
    | (inputs, none) =>
      (locatedCategories.foldl (fun info c => info.set c (locate (info.list c)))
        (info.set .subpassInput inputs), none)

def check (fault : Option Fault) : Compile Unit :=
  match fault with
  | none => pure ()
  | some fault => Compile.fatal fault.code fault.message

end ShaderPass.Slot
