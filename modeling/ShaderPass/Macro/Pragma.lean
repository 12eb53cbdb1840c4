import ShaderPass.Directive

/-!
Lines of the form `#pragma define NAME …`, which declare macros that are expanded before the shader's
own preprocessor runs.
-/
namespace ShaderPass.Macro

def pragma? (line : Text) : Option (Text × Text) :=
  match Directive.pragma? line with
  | some ("define", args) =>
    let (name, rest) := Text.spanIdent args
    if name.isEmpty then none else some (name, rest)
  | _ => none

def hasParams (rest : Text) : Bool :=
  rest.head? = some '('

def isFunctional (line : Text) : Bool :=
  (pragma? line).any fun (_, rest) => hasParams rest

end ShaderPass.Macro
