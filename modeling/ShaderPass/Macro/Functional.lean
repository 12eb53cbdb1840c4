import ShaderPass.Diagnostic.Report
import ShaderPass.Macro.Literal
import ShaderPass.Text.Paren
import ShaderPass.Token.Bracket

/-!
Macros with parameters: `#pragma define NAME(a, b) body`.

Line breaks in a body are kept as marks until a call puts them back with its own indentation. All
parameters of a call are substituted at once, so arguments are never scanned again.
-/
namespace ShaderPass.Macro

structure Functional where
  name : Text
  params : List Text
  body : Text
  deriving Repr, DecidableEq

/-- Stands for a line break in a body. -/
def breakMark : Text :=
  "@@".toList

/-- The lines with each declaration that spans several lines joined into one. -/
def joinLines (continuing : Bool) : List Text → Text
  | [] => []
  | line :: lines =>
    let trimmed := Text.trimEnd line
    let content := if continuing then Text.trimStart trimmed else trimmed
    if (continuing || isFunctional content) && content.getLast? = some '\\' then
      Text.trimEnd (Text.trimEndWhile (· = '\\') content) ++ breakMark ++ joinLines true lines
    else (if continuing then Text.trimStart line else line) ++ joinLines false lines

def dropBreaks : Text → Text
  | '@' :: '@' :: t => dropBreaks t
  | t => t

/-- Reads the declaration of `name` off a line. A parameter list without a close declares nothing. -/
def Functional.parse? (name line : Text) : Option Functional := do
  let (declared, rest) ← pragma? line
  if declared = name && hasParams rest then
    let (params, body) ← Text.cut? [')'] rest
    return ⟨name, Text.splitArgs (params.drop 1), dropBreaks (Text.trim body)⟩
  else none

def find? (t name : Text) : Option Functional :=
  (Text.feedLines t).findSome? (Functional.parse? name)

def mapWords (f : Text → Text) : Text → Text
  | [] => []
  | c :: t =>
    if isIdentChar c then
      f (c :: t.takeWhile isIdentChar) ++ mapWords f (t.dropWhile isIdentChar)
    else c :: mapWords f t
termination_by t => t.length
decreasing_by
  all_goals
    have := (List.dropWhile_suffix isIdentChar (l := t)).length_le
    simp only [List.length_cons]
    omega

/-- The body with every parameter replaced by its argument; a missing argument is empty. -/
def substituteParams (params args : List Text) (body : Text) : Text :=
  mapWords (fun word =>
    match params.idxOf? word with
    | some i => args.getD i []
    | none => word) body

/-- Replaces every occurrence of `needle`, leftmost first; `skip` counts the characters that still
belong to the last one. -/
def replaceAll (needle replacement : Text) (skip : Nat) : Text → Text
  | [] => []
  | c :: t =>
    if skip = 0 then
      if needle.isPrefixOf (c :: t) then
        replacement ++ replaceAll needle replacement (needle.length - 1) t
      else c :: replaceAll needle replacement 0 t
    else replaceAll needle replacement (skip - 1) t

/-- A call of a macro: the bytes it takes, its arguments, and whether it stands in the body of another
macro. -/
structure Call where
  start : Nat
  stop : Nat
  args : List Text
  inBody : Bool
  deriving Repr, DecidableEq

def lineAt (t : Text) (n : Nat) : Text :=
  ((Text.takeBytes n t).reverse.takeWhile (· ≠ '\n')).reverse ++
    (Text.dropBytes n t).takeWhile (· ≠ '\n')

/-- The call of a macro whose name stands at byte offset `start`. Declarations of the macro hold no
calls of it. -/
def Call.at? (m : Functional) (t : Text) (start : Nat) : Option Call := do
  let line := lineAt t start
  if (pragma? line).any fun (name, _) => name = m.name then none
  else
    let stop := start + Text.byteLen m.name
    let rest := Text.dropBytes stop t
    let blanks := rest.takeWhile isBlank
    let list := rest.drop blanks.length
    if list.head? = some '(' then
      let inner ← Text.closeParen? 0 list
      return {
        start := start
        stop := stop + Text.byteLen blanks + Text.byteLen (list.take (inner + 1))
        args := Text.splitArgs ((list.take inner).drop 1)
        inBody := isFunctional line }
    else none

/-- The calls at the given offsets that start at or after byte offset `last` and do not overlap. -/
def Call.select (m : Functional) (t : Text) (last : Nat) : List Nat → List Call
  | [] => []
  | start :: starts =>
    if start < last then select m t last starts
    else match Call.at? m t start with
      | some call => call :: select m t call.stop starts
      | none => select m t last starts

/-- What replaces a call. Inside another body line breaks stay marks. -/
def Call.expansion (m : Functional) (t : Text) (call : Call) : Text :=
  let body := substituteParams m.params call.args m.body
  if call.inBody then body
  else replaceAll breakMark ('\n' :: Text.lineIndent t call.start) 0 body

def expandCalls (m : Functional) (t : Text) : Compile Text := do
  let calls := Call.select m t 0 (Text.wordOffsets t m.name)
  calls.forM fun call =>
    if call.args.length = m.params.length then pure ()
    else
      let name := String.ofList m.name
      Compile.warn .macroArgumentCount
        s!"macro {name} expects {m.params.length} arguments but received {call.args.length}"
  return Text.splice t (calls.map fun call => ⟨call.start, call.stop, call.expansion m t⟩)

/-- Expands one macro, as the text declares it by now. A macro that refers to itself stays. -/
def expandNamed (t name : Text) : Compile Text :=
  match find? t name with
  | none => return t
  | some m =>
    if Text.containsWord m.body m.name then do
      let name := String.ofList name
      Compile.warn .recursiveMacro s!"macro {name} references itself and will not be expanded"
      return t
    else expandCalls m t

/-- Expands the macros with parameters in the order of their declarations, and blanks those. -/
def expandFunctionals (t : Text) : Compile Text := do
  let joined := joinLines false (Text.endedLines t)
  let names := (Text.feedLines joined).filterMap fun line =>
    match pragma? line with
    | some (name, rest) => if hasParams rest then some name else none
    | none => none
  let expanded ← names.foldlM expandNamed joined
  return Text.joinFeeds ((Text.feedLines expanded).map fun line =>
    if isFunctional line then [] else line)

def expandAll (t : Text) : Compile Text :=
  expandFunctionals (expandLiterals t)

end ShaderPass.Macro
