import ShaderPass.ConstExpr.Eval
import ShaderPass.Diagnostic.Report
import ShaderPass.Directive
import ShaderPass.Table
import ShaderPass.Token.Bracket

/-!
Language extensions that a shader asks for, by pragma or by what its code needs.
-/
namespace ShaderPass

structure Extension where
  name : String
  /-- Required without a guard. -/
  require : Bool := false
  deriving Repr, DecidableEq

namespace Extension

def inside? (opening closing : Char) (t : Text) : Option Text := do
  Text.before? [closing] (← Text.after? [opening] t)

/-- The items of an extension pragma's arguments, `([NAME, CONDITION, …])`. -/
def pragmaItems (args : Text) : List Text :=
  match (inside? '(' ')' args).bind fun list => inside? '[' ']' (Text.trim list) with
  | some list => Text.splitArgs list
  | none => []

/-- The extension that a line requests under a version. A request that can not be evaluated is
reported and passed over. -/
def ofLine? (version : Nat) (line : Text × Nat) : Compile (Option Extension) :=
  match Directive.pragma? line.1 with
  | some ("extension", args) =>
    let invalid : Compile (Option Extension) := do
      let shown := Quoted.string (String.ofList (Text.trim line.1))
      Compile.warn .invalidExtensionCondition s!"invalid extension pragma {shown}" (some line.2)
      return none
    match pragmaItems args with
    | name :: condition :: rest =>
      if name.isEmpty then invalid
      else
        let name := String.ofList name
        match ConstExpr.evaluate condition (some version) with
        | .ok n => return if n = 0 then none else some ⟨name, rest.head? = some "require".toList⟩
        | .error fault => do
          let shown := Quoted.string (String.ofList condition)
          Compile.warn .invalidExtensionCondition
            s!"invalid condition {shown} for extension {name}: {fault.message}" (some line.2)
          return none
    | _ => invalid
  | _ => return none

def collect (t : Text) (version : Nat) : Compile (List Extension) := do
  let found ← ((Text.feedLines t).zipIdx 1).mapM (ofLine? version)
  return found.filterMap id

/-- One request per name, in the order of the first; a single requirement suffices. -/
def merge (extensions : List Extension) : List Extension :=
  extensions.foldl
    (fun acc e =>
      Table.upsert (fun x => x.name = e.name) (fun x => { x with require := x.require || e.require })
        e acc) []

def render (e : Extension) : String :=
  if e.require then s!"#extension {e.name}: require\n"
  else s!"#ifdef {e.name}\n#extension {e.name}: enable\n#endif\n"

def prepend (t : Text) (extensions : List Extension) : Text :=
  (merge extensions).flatMap (fun e => e.render.toList) ++ t

end Extension
end ShaderPass
