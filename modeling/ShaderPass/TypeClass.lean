import ShaderPass.Text.Numeral

/-!
Type names of the shading language: numeric types with their std140 extent, resource types, and
everything else, which is taken for a structure.
-/
namespace ShaderPass

structure NumericType where
  size : Nat
  alignment : Nat
  columns : Nat
  rows : Nat
  deriving Repr, DecidableEq

namespace NumericType

def vector (n : Nat) : NumericType :=
  { size := n * 4
    alignment := if n = 1 then 4 else if n = 2 then 8 else 16
    columns := 1
    rows := n }

def matrix (columns rows : Nat) : NumericType :=
  { size := columns * 16, alignment := 16, columns := columns, rows := rows }

def registers (t : NumericType) : Nat :=
  (t.size + 15) / 16

end NumericType

inductive ResourceType where
  /-- A sampler combined with its texture. -/
  | samplerTexture
  /-- A sampler on its own. -/
  | sampler
  | texture
  | image
  | subpassInput
  deriving Repr, DecidableEq

inductive TypeClass where
  | numeric (type : NumericType)
  | resource (type : ResourceType)
  | struct
  deriving Repr, DecidableEq

namespace TypeClass

/-- The number of components or columns that digits give, if a type can have that many. -/
def dimension? (digits : Text) : Option Nat :=
  (unsigned? digits).filter fun n => 2 ≤ n && n ≤ 4

def vectorOf? (kind type : Text) : Option Nat := do
  dimension? (← Text.after? (kind ++ "vec".toList) type)

def matrix? (type : Text) : Option (Nat × Nat) := do
  let dims ← Text.after? "mat".toList type
  match Text.cut? ['x'] dims with
  | some (columns, rows) => return (← dimension? columns, ← dimension? rows)
  | none =>
    let n ← dimension? dims
    return (n, n)

/-- Whether a type name starts with `base`, an integer mark in front aside. -/
def hasBase (type : Text) (base : String) : Bool :=
  [[], ['i'], ['u']].any fun kind => (kind ++ base.toList).isPrefixOf type

def ofText (type : Text) : TypeClass :=
  if String.ofList type ∈ ["float", "int", "uint", "bool"] then .numeric (.vector 1)
  else match [[], ['i'], ['u'], ['b']].findSome? fun kind => vectorOf? kind type with
    | some n => .numeric (.vector n)
    | none =>
      match matrix? type with
      | some (columns, rows) => .numeric (.matrix columns rows)
      | none =>
        if type = "sampler".toList || type = "samplerShadow".toList then .resource .sampler
        else if hasBase type "sampler" then .resource .samplerTexture
        else if hasBase type "texture" then .resource .texture
        else if hasBase type "image" then .resource .image
        else if hasBase type "subpassInput" then .resource .subpassInput
        else .struct

def ofName (type : String) : TypeClass :=
  ofText type.toList

end TypeClass
end ShaderPass
