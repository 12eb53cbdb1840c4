import ShaderPass.Declaration.Decoration
import ShaderPass.Dialect.Conditional
import ShaderPass.Dialect.Legacy
import ShaderPass.Subpass.Rendering
import ShaderPass.Tag

/-!
Renditions: the text of a shader in each dialect, all from one base text and one interface.
-/
namespace ShaderPass

inductive Dialect where
  | desktop
  | es3
  | es1
  deriving Repr, DecidableEq

namespace Dialect

def all : List Dialect := [.desktop, .es3, .es1]

def version : Dialect → Nat
  | desktop => 460
  | es3 => 300
  | es1 => 100

def key : Dialect → String
  | desktop => "glsl4"
  | es3 => "glsl3"
  | es1 => "glsl1"

/-- Whether the dialect has a stage: the lowest one has no compute shaders. -/
def supports : Dialect → Stage → Bool
  | es1, .compute => false
  | _, _ => true

end Dialect

namespace Rendition

/-- Drops a blank line after another one; `blank` says that one stands in front. -/
def collapse (blank : Bool) : List Text → List Text
  | [] => []
  | line :: lines =>
    if line.isEmpty then
      if blank then collapse true lines else line :: collapse true lines
    else line :: collapse false lines

/-- The text without blanks at line ends, without blank lines at either end, and with single blank
lines only. -/
def tidy (t : Text) : Text :=
  let lines := collapse true ((Text.lines t).map Text.trimEnd)
  Text.joinFeeds (Text.trimEndWhile List.isEmpty lines) ++ ['\n']

/-- The text of a shader in a dialect. What the highest dialect reports is not reported again. -/
def render (base : Text) (stage : Stage) (dialect : Dialect) (info : Interface)
    (defines : List Define) : Compile Text := do
  let version := dialect.version
  let t := Conditional.downlevel (← Compile.silently (Subpass.expand base version)) version
  let requested ←
    if dialect = .desktop then Extension.collect t version
    else Compile.silently (Extension.collect t version)
  if dialect = .es1 then
    let transcoded ← Legacy.transcode t stage defines
    return tidy (Extension.prepend (Tag.strip transcoded.text) (requested ++ transcoded.extensions))
  else
    let decorated ← Decoration.memoryLayouts t stage info version
    let decorated ← Decoration.slots decorated stage info version
    return tidy (Extension.prepend (Tag.strip decorated) requested)

end Rendition
end ShaderPass
