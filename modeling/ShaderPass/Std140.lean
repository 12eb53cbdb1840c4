import ShaderPass.Descriptor
import ShaderPass.Diagnostic.Report

/-!
Uniform blocks without implicit padding under the std140 rules. Sizes, offsets and register counts are
32-bit words, whose arithmetic wraps around; messages and reflected values show them as numbers.
-/
namespace ShaderPass.Std140

instance coeWord : Coe UInt32 Nat := ⟨UInt32.toNat⟩

/-- What is wrong with a block, at the first member that violates a rule. -/
inductive Fault where
  | resourceType (type : String)
  | structMember (name : String)
  | matrixShape (name : String)
  | arrayAlignment (name : String)
  | implicitPadding (name : String) (bytes : Nat)
  | vec3Member (name : String)
  deriving Repr, DecidableEq

namespace Fault

def code : Fault → Code
  | resourceType _ => .opaqueTypeInBlock
  | structMember _ => .structMember
  | matrixShape _ => .nonSquareMatrix
  | arrayAlignment _ => .arrayAlignment
  | implicitPadding _ _ => .implicitPadding
  | vec3Member _ => .vec3Member

def message (block : String) : Fault → String
  | resourceType type => s!"opaque type {type} in block {block} is not allowed"
  | structMember name => s!"struct member {name} in block {block} is not allowed"
  | matrixShape name => s!"member {name} in block {block} must be a mat4"
  | arrayAlignment name =>
    s!"array member {name} in block {block} must have a 16 byte aligned element type"
  | implicitPadding name bytes =>
    s!"member {name} in block {block} has {bytes} bytes of implicit padding before it"
  | vec3Member name => s!"vec3 member {name} in block {block} must be followed by a 4 byte scalar"

end Fault

def align (offset alignment : UInt32) : UInt32 :=
  (offset / alignment + if offset % alignment = 0 then 0 else 1) * alignment

def numeric (m : Member) : Except Fault NumericType :=
  match TypeClass.ofName m.type with
  | .numeric t =>
    if t.columns > 1 && !(t.columns = 4 && t.rows = 4) then .error (.matrixShape m.name) else .ok t
  | .resource _ => .error (.resourceType m.type)
  | .struct => .error (.structMember m.name)

/-- How many elements a member counts as. Unsized arrays have the count 0. -/
def elements (m : Member) : UInt32 :=
  .ofNat (max m.count 1)

def extent (m : Member) (t : NumericType) : Except Fault (UInt32 × UInt32) :=
  if m.arraySize.isSome then
    if t.size % 16 = 0 then .ok (16, .ofNat t.size * elements m) else .error (.arrayAlignment m.name)
  else .ok (.ofNat t.alignment, .ofNat t.size)

def isScalar (m : Member) : Bool :=
  m.arraySize.isNone &&
    match TypeClass.ofName m.type with
    | .numeric t => t.size = 4
    | _ => false

/-- The offset after some members that start at `offset`. The four bytes after a three-component
vector are filled by the scalar that has to follow it. -/
def place (offset : UInt32) (afterVec3 : Bool) : List Member → Except Fault UInt32
  | [] => .ok offset
  | m :: ms => do
    let t ← numeric m
    let (alignment, size) ← extent m t
    let aligned := align offset alignment
    if aligned ≠ offset && !afterVec3 then .error (.implicitPadding m.name (aligned - offset).toNat)
    else
      let isVec3 := m.arraySize.isNone && t.size = 12
      if isVec3 && !ms.head?.any isScalar then .error (.vec3Member m.name)
      else place (aligned + size) isVec3 ms

/-- The size of a block, if none of its members needs padding. -/
def size (members : List Member) : Except Fault UInt32 :=
  place 0 false members

/-- How many four-component registers a member takes. -/
def uniformVectors (m : Member) : UInt32 :=
  match TypeClass.ofName m.type with
  | .numeric t => .ofNat t.registers * elements m
  | _ => 0

def validate (block : String) (members : List Member) (line : Nat) : Compile Nat :=
  match size members with
  | .ok n => return n.toNat
  | .error fault => Compile.fatal fault.code (fault.message block) (some line)

end ShaderPass.Std140
