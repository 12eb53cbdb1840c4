import ShaderPass.Interface
import ShaderPass.Token.Bracket

/-!
Declarations of resources and stage variables, with the places they take in the source.
-/
namespace ShaderPass

/-- The entries of a `layout(…)` qualifier: keys, some with values. -/
abbrev Layout := List (String × Option String)

namespace Layout

def parse (t : Text) : Layout :=
  (Text.splitArgs t).map fun item =>
    match Text.cut? ['='] item with
    | some (key, value) =>
      (String.ofList (Text.trim key), some (String.ofList (Text.trim value)))
    | none => (String.ofList item, none)

def value? (layout : Layout) (key : String) : Option String :=
  (Table.get? layout key).join

def number? (layout : Layout) (key : String) : Option Nat :=
  (layout.value? key).bind fun value => unsigned? value.toList

def has (layout : Layout) (key : String) : Bool :=
  layout.any fun entry => entry.1 = key

def erase (layout : Layout) (key : String) : Layout :=
  layout.filter fun entry => entry.1 ≠ key

def set (layout : Layout) (key : String) (value : Option String) : Layout :=
  Table.insert key value layout

def render (layout : Layout) : Text :=
  if layout.isEmpty then []
  else
    let entries := layout.map fun
      | (key, some value) => s!"{key} = {value}"
      | (key, none) => key
    ("layout(" ++ ", ".intercalate entries ++ ")").toList

end Layout

/-- A declaration and where it stands. Ranges are pairs of byte offsets. -/
structure Declaration where
  start : Nat
  stop : Nat
  descriptor : Descriptor
  category : Category
  layout : Layout
  /-- The range of the layout qualifier, if there is one. -/
  layoutRange : Option (Nat × Nat)
  /-- The range of the storage qualifier. -/
  storageRange : Nat × Nat
  line : Nat
  deriving Repr, DecidableEq

end ShaderPass
