import ShaderPass.Diagnostic.Report
import ShaderPass.Directive
import ShaderPass.Token.Basic

/-!
Static checks of GLSL ES 1.00 sources: reserved words, and where precision and extensions stand.
-/
namespace ShaderPass.Check

def reservedWords : List String :=
  ["asm", "class", "union", "enum", "typedef", "template", "this", "packed", "goto", "switch",
   "default", "inline", "noinline", "volatile", "public", "static", "extern", "external",
   "interface", "flat", "long", "short", "double", "half", "fixed", "unsigned", "superp", "input",
   "output", "hvec2", "hvec3", "hvec4", "dvec2", "dvec3", "dvec4", "fvec2", "fvec3", "fvec4",
   "sampler1D", "sampler1DShadow", "sampler2DRect", "sampler3DRect", "sampler2DRectShadow",
   "sizeof", "cast", "namespace", "using", "texture"]

def isExtension (t : Token) : Bool :=
  t.isDirective && ((Directive.parse? t.lexeme).any fun (name, _) => name = "extension")

/-- Reports every reserved word, and the lack of a precision or an extension that comes after it. -/
def static (t : Text) (stage : Stage) : Compile Unit := do
  let tokens := Token.significant t
  tokens.forM fun token =>
    if token.isIdentifier && token.name ∈ reservedWords then
      Compile.error .reservedKeyword s!"{token.name} is a reserved keyword"
        (some (Text.lineOf t token.start))
    else pure ()
  match tokens.find? (Token.isNamed "precision"), (tokens.filter isExtension).getLast? with
  | none, _ =>
    Compile.warn .missingPrecision s!"no precision declaration found in {stage.name} shader"
  | some precision, some extension =>
    if extension.start > precision.start then
      Compile.warn .extensionAfterPrecision
        "#extension directives should come before precision declarations"
        (some (Text.lineOf t extension.start))
  | _, none => pure ()

end ShaderPass.Check
