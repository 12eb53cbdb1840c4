import ShaderPass.Directive
import ShaderPass.Table

/-!
Preprocessor conditions: the defines a condition tests, and the conditions that enclose a line.
-/
namespace ShaderPass.Condition

/-- Whether a word of a condition names no define of the shader. -/
def isReserved (word : Text) : Bool :=
  String.ofList word ∈ ["defined", "__VERSION__", "true", "false"] || "GL_".toList.isPrefixOf word

/-- The defines that a condition tests, each once, in the order of their first use. Words that start
with a digit are numbers. -/
def identifiers (condition : Text) : List String :=
  let words := (Text.runs isIdentChar condition).filter fun word =>
    word.head?.any isIdentStart && !isReserved word
  (words.map String.ofList).eraseDups

abbrev Stack := List (List String)

namespace Stack

/-- The stack after a preprocessor line. An `#elif` adds to the chain it continues. -/
def update (stack : Stack) (line : Text) : Stack :=
  match Directive.parse? line with
  | some ("if", condition) | some ("ifdef", condition) | some ("ifndef", condition) =>
    Condition.identifiers condition :: stack
  | some ("elif", condition) =>
    match stack with
    | frame :: outer => (Condition.identifiers condition).foldl Table.addKey frame :: outer
    | [] => [Condition.identifiers condition]
  | some ("endif", _) => stack.drop 1
  | _ => stack

def identifiers (stack : Stack) : List String :=
  stack.reverse.flatten.eraseDups

end Stack
end ShaderPass.Condition
