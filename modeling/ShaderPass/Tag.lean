import ShaderPass.Directive
import ShaderPass.Interface
import ShaderPass.Text.Quoted

/-!
Pragmas that describe resources: their update rate, and whether they can be filtered.
-/
namespace ShaderPass.Tag

def onNamed (name : String) (f : Descriptor → Descriptor) (info : Interface) : Interface :=
  info.map fun d => if d.name = name then f d else d

def applyLine (info : Interface) (line : Text × Nat) : Compile Interface :=
  match Directive.pragma? line.1 with
  | some ("rate", args) =>
    match (Text.fields args).map String.ofList with
    | name :: rate :: _ =>
      match Rate.ofName? rate with
      | some known => return onNamed name (fun d => { d with rate := some known }) info
      | none => do
        Compile.warn .unknownRate s!"unknown rate {Quoted.string rate} for {name}" (some line.2)
        return info
    | _ => return info
  | some ("unfilterable-float", args) =>
    return (Text.fields args).foldl
      (fun info name =>
        onNamed (String.ofList name) (fun d => { d with sampleType := .unfilterableFloat }) info) info
  | _ => return info

/-- Applies all pragmas of a text. Names without a descriptor are passed over. -/
def apply (t : Text) (info : Interface) : Compile Interface :=
  ((Text.feedLines t).zipIdx 1).foldlM applyLine info

def effectPragmas : List String :=
  ["rate", "unfilterable-float", "builtin", "define-meta", "extension", "subpass"]

def strip (t : Text) : Text :=
  Text.joinFeeds ((Text.feedLines t).map fun line =>
    match Directive.pragma? line with
    | some (name, _) => if name ∈ effectPragmas then [] else line
    | none => line)

end ShaderPass.Tag
