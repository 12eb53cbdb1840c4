import ShaderPass.Condition
import ShaderPass.Json
import ShaderPass.Text.Paren
import ShaderPass.Token.Bracket

/-!
Defines: the preprocessor symbols that select between variants of a shader.

Every identifier that a conditional directive tests is a define. Its type is inferred from the
conditions and can be declared by a `define-meta` pragma.
-/
namespace ShaderPass

inductive DefineType where
  | boolean
  | number
  | string
  /-- Known when the program starts, so no part of the variants. -/
  | constant
  deriving Repr, DecidableEq

def DefineType.name : DefineType → String
  | boolean => "boolean"
  | number => "number"
  | string => "string"
  | constant => "constant"

structure Define where
  name : String
  type : DefineType
  range : Option (List Int) := none
  options : Option (List String) := none
  defaultValue : Option String := none
  /-- The defines of the conditions around the first use. -/
  enclosing : List String := []
  editor : Option String := none
  deriving Repr, DecidableEq

namespace Define

def toJson (d : Define) : Json :=
  .obj ([("name", .str d.name), ("type", .str d.type.name)] ++
    Json.optional "range" (.list .num) d.range ++
    Json.optional "options" (.list .str) d.options ++
    Json.optional "default" .str d.defaultValue ++
    [("defines", .list .str d.enclosing)] ++
    Json.optional "editor" .str d.editor)

def comparisons : List Text :=
  ["==", "!=", "<=", ">=", "<", ">"].map String.toList

/-- Whether some occurrence of `name` has a comparison operator on one side and a digit beyond it. -/
def isComparedToNumber (condition name : Text) : Bool :=
  (Text.wordOffsets condition name).any fun n =>
    let after := Text.trimStart (Text.dropBytes (n + Text.byteLen name) condition)
    let before := Text.trimEnd (Text.takeBytes n condition)
    let numberAfter := (comparisons.findSome? fun op => Text.after? op after).any fun rest =>
      (Text.trimStart rest).head?.any Char.isDigit
    let numberBefore := (comparisons.findSome? fun op => Text.before? op before).any fun rest =>
      (Text.trimEnd rest).getLast?.any Char.isDigit
    numberAfter || numberBefore

def inferredType (condition : Text) (name : String) : DefineType :=
  if isComparedToNumber condition name.toList then .number else .boolean

/-- Notes the use of a define. A comparison with a number turns a boolean into a number. -/
def noteUse (enclosing : List String) (condition : Text) (defines : List Define) (name : String) :
    List Define :=
  let type := inferredType condition name
  Table.upsert (fun d => d.name = name)
    (fun d => if type = .number && d.type = .boolean then { d with type := .number } else d)
    { name := name, type := type, enclosing := enclosing.filter (· ≠ name) } defines

/-- The keys of a property text, each with the text in the parentheses after it.

Nesting is counted from as many characters into the text as the opening parenthesis is bytes into it,
and a value without a close takes the rest. -/
def properties : Text → List (String × Option Text)
  | [] => []
  | c :: t =>
    if isIdentStart c then
      let key := String.ofList (c :: t.takeWhile isIdentChar)
      let rest := t.dropWhile isIdentChar
      let blanks := rest.takeWhile isBlank
      if (Text.trimStart rest).head? = some '(' then
        let counted := Text.byteLen blanks
        match Text.closeParen? 0 (rest.drop counted) with
        | some inner =>
          (key, some ((rest.take (counted + inner)).drop (blanks.length + 1))) ::
            properties (rest.drop (counted + inner + 1))
        | none => [(key, some (rest.drop (blanks.length + 1)))]
      else (key, none) :: properties rest
    else properties t
termination_by t => t.length
decreasing_by
  all_goals
    have := (List.dropWhile_suffix isIdentChar (l := t)).length_le
    simp only [List.length_cons, List.length_drop]
    omega

def listItems (value : Text) : List Text :=
  let value := Text.trim value
  Text.splitArgs (((Text.after? ['['] value).bind (Text.before? [']'])).getD value)

def setProperty (d : Define) (property : String × Option Text) : Define :=
  match property with
  | ("range", some value) => { d with range := some ((listItems value).filterMap signed?), type := .number }
  | ("options", some value) =>
    { d with options := some ((listItems value).map String.ofList), type := .string }
  | ("default", some value) => { d with defaultValue := some (String.ofList (Text.trim value)) }
  | ("editor", some value) => { d with editor := some (String.ofList (Text.trim value)) }
  | ("constant", none) => { d with type := .constant }
  | _ => d

def applyMeta (defines : List Define) (args : Text) : List Define :=
  let (name, rest) := Text.spanIdent args
  if name.isEmpty then defines
  else
    let change (d : Define) := (properties rest).foldl setProperty d
    let name := String.ofList name
    Table.upsert (fun d => d.name = name) change (change { name := name, type := .boolean }) defines

def conditionalNames : List String :=
  ["if", "ifdef", "ifndef", "elif"]

/-- Notes the defines that a line tests. An `#elif` is not enclosed by the chain it continues. -/
def noteLine (stack : Condition.Stack) (defines : List Define) (line : Text) : List Define :=
  match Directive.parse? line with
  | some (name, condition) =>
    if name ∈ conditionalNames then
      let outer : Condition.Stack := if name = "elif" then stack.drop 1 else stack
      (Condition.identifiers condition).foldl (noteUse outer.identifiers condition) defines
    else defines
  | none => defines

def scanLine (state : List Define × Condition.Stack) (line : Text) :
    List Define × Condition.Stack :=
  let (defines, stack) := state
  let noted := noteLine stack defines line
  let declared := match Directive.pragma? line with
    | some ("define-meta", args) => applyMeta noted args
    | _ => noted
  (declared, stack.update line)

def scan (t : Text) : List Define :=
  ((Text.lines t).foldl scanLine ([], [])).1

/-- What two stages know about one define: the first keeps what it declares. -/
def mergeInto (existing other : Define) : Define :=
  { existing with
    type := if existing.type = .boolean then other.type else existing.type
    range := existing.range <|> other.range
    options := existing.options <|> other.options
    defaultValue := existing.defaultValue <|> other.defaultValue
    editor := existing.editor <|> other.editor }

def merge (target defines : List Define) : List Define :=
  defines.foldl
    (fun acc d => Table.upsert (fun e => e.name = d.name) (fun e => mergeInto e d) d acc) target

end Define
end ShaderPass
