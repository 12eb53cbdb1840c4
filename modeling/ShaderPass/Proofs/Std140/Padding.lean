import Mathlib.Algebra.BigOperators.Ring.List
import Mathlib.Algebra.Order.BigOperators.Group.List
import Mathlib.Algebra.Order.Floor.Div
import ShaderPass.Proofs.Diagnostic.Outcome
import ShaderPass.Proofs.TypeClass.Shape
import ShaderPass.Std140

/-! Uniform blocks without implicit padding. A block is accepted exactly when each of its members has a
type that blocks may hold and starts where the members in front of it end; otherwise the first member
that breaks a rule is reported. -/
namespace ShaderPass.Std140

def elementType? (m : Member) : Option NumericType :=
  match TypeClass.ofName m.type with
  | .numeric t => some t
  | _ => none

def elementSize (m : Member) : Nat :=
  ((elementType? m).map NumericType.size).getD 0

def memberSize (m : Member) : Nat :=
  if m.arraySize.isSome then elementSize m * max m.count 1 else elementSize m

def baseAlignment (m : Member) : Nat :=
  if m.arraySize.isSome then 16 else ((elementType? m).map NumericType.alignment).getD 1

def total (members : List Member) : Nat :=
  (members.map memberSize).sum

def roundUp (offset alignment : Nat) : Nat :=
  (offset ⌈/⌉ alignment) * alignment

/-- Where members end that std140 lays out one after the other. -/
def layoutEnd (front : List Member) : Nat :=
  front.foldl (fun stop m => roundUp stop (baseAlignment m) + memberSize m) 0

def layoutOffset (front : List Member) (m : Member) : Nat :=
  roundUp (layoutEnd front) (baseAlignment m)

/-- Whether a member has a scalar, a vector or a matrix with four columns and four rows as its type. -/
def HasBlockType (m : Member) : Prop :=
  ∃ t, TypeClass.ofName m.type = .numeric t ∧ (t.columns = 1 ∨ t.columns = 4 ∧ t.rows = 4)

def IsScalar (m : Member) : Prop :=
  m.arraySize = none ∧ elementSize m = 4
deriving Decidable

def IsVec3 (m : Member) : Prop :=
  m.arraySize = none ∧ elementSize m = 12
deriving Decidable

structure Fits (front : List Member) (m : Member) (back : List Member) : Prop where
  type : HasBlockType m
  array : m.arraySize.isSome = true → 16 ∣ elementSize m
  offset : layoutOffset front m = total front
  vec3 : IsVec3 m → ∃ next ∈ back.head?, IsScalar next

section Extent

variable {m : Member} {t : NumericType}

theorem ofNat_inj {a b : Nat} (a_fits : a < 2 ^ 32) (b_fits : b < 2 ^ 32) :
    UInt32.ofNat a = UInt32.ofNat b ↔ a = b := by
  rw [← UInt32.toNat_inj, UInt32.toNat_ofNat_of_lt' a_fits, UInt32.toNat_ofNat_of_lt' b_fits]

end Extent

section Place

variable {front back : List Member} {m : Member} {after : Bool}

end Place

def lights : List Member :=
  [{ name := "direction", type := "vec3", count := 1 }, { name := "range", type := "float", count := 1 },
    { name := "view", type := "mat4", count := 1 },
    { name := "colors", type := "vec4", arraySize := some "8", count := 8 }]

end ShaderPass.Std140
