import ShaderPass.Text.Blank
import ShaderPass.Text.Word

/-!
Preprocessor lines: the directive's name and the text after it.
-/
namespace ShaderPass.Directive

def parse? (line : Text) : Option (String × Text) :=
  match Text.trimStart line with
  | '#' :: rest =>
    let (name, args) := Text.spanIdent (Text.trimStart rest)
    some (String.ofList name, Text.trim args)
  | _ => none

def isPragmaChar (c : Char) : Bool :=
  isIdentChar c || c = '-'

def pragma? (line : Text) : Option (String × Text) :=
  match parse? line with
  | some ("pragma", rest) =>
    some (String.ofList (rest.takeWhile isPragmaChar), Text.trim (rest.dropWhile isPragmaChar))
  | _ => none

end ShaderPass.Directive
