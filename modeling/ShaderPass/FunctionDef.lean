import ShaderPass.Token.Bracket

/-!
Function definitions at the top level of a shader.

A definition is a statement that ends in `type name(…)` before an opening brace. One definition
depends on another when it contains the other's name as a whole word, whether or not as a call.
-/
namespace ShaderPass

structure FunctionDef where
  name : String
  returnType : String
  /-- Where the definition starts, qualifiers included. -/
  start : Nat
  /-- Where the closing brace ends. -/
  stop : Nat
  /-- Where the parameter list ends. -/
  paramStop : Nat
  /-- The indices of the functions it depends on. -/
  deps : List Nat := []
  deriving Repr, DecidableEq

namespace FunctionDef

def contains (f : FunctionDef) (offset : Nat) : Bool :=
  f.start ≤ offset && offset < f.stop

/-- The return type and the name that a statement before an opening brace declares. The statement is
given backwards. -/
def header? (statement : List Token) : Option (Token × Token) := do
  let first ← statement.head?
  if first.isPunct ')' then
    let n ← Bracket.closeAfter ⟨')', '('⟩ 0 statement
    match statement.drop (n + 1) with
    | name :: type :: _ => if name.isIdentifier && type.isIdentifier then some (type, name) else none
    | _ => none
  else none

/-- The definitions in some tokens, without their dependencies. `statement` holds the tokens since
the last statement ended, backwards; the bodies of blocks and structures are passed over. -/
def scan (statement : List Token) : List Token → List FunctionDef
  | [] => []
  | t :: ts =>
    if t.isDirective || t.isPunct ';' then scan [] ts
    else if t.isPunct '\x7b' then
      let n := (Bracket.closeOffset? (t :: ts)).getD ts.length
      match header? statement, statement.head?, statement.getLast? with
      | some (type, name), some last, some first =>
        { name := name.name
          returnType := type.name
          start := first.start
          stop := ((ts.take n).getLastD t).stop
          paramStop := last.stop } :: scan [] (ts.drop n)
      | _, _, _ => scan ((ts.take n).reverse ++ t :: statement) (ts.drop n)
    else scan (t :: statement) ts
termination_by ts => ts.length
decreasing_by all_goals simp only [List.length_cons, List.length_drop]; omega

def depsIn (t : Text) (functions : List FunctionDef) (f : FunctionDef) : List Nat :=
  let definition := Text.slice f.start f.stop t
  functions.zipIdx.filterMap fun (other, i) =>
    if other.name ≠ f.name && Text.containsWord definition other.name.toList then some i else none

def find (t : Text) : List FunctionDef :=
  let functions := scan [] (Token.significant t)
  functions.map fun f => { f with deps := depsIn t functions f }

end FunctionDef
end ShaderPass
