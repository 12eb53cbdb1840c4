import ShaderPass.Pass.Compiled

/-!
Batches: the programs and chunks among the files of a folder, and what compiling all of them gives.

A file is named by its path without the extension. Files of one name with the extensions of the stages
form a program.
-/
namespace ShaderPass

structure SourceFile where
  path : String
  text : Text
  deriving Repr, DecidableEq

namespace SourceFile

def fileName (f : SourceFile) : Text :=
  ((Text.splitOn '/' f.path.toList).getLast?).getD []

def extension? (f : SourceFile) : Option String :=
  match (Text.splitOn '.' f.fileName).reverse with
  | last :: before :: [] => if before.isEmpty then none else some (String.ofList last)
  | last :: _ :: _ :: _ => some (String.ofList last)
  | _ => none

/-- The path without the extension, with slashes only. The dot in front of the extension goes too,
unless a lone dot would be left. -/
def name (f : SourceFile) : String :=
  let path := f.path.toList
  let stem := match f.extension? with
    | some extension =>
      let dot := if f.fileName = '.' :: '.' :: extension.toList then 0 else 1
      path.take (path.length - extension.length - dot)
    | none => path
  String.ofList (stem.map fun c => if c = '\\' then '/' else c)

def hasSuffix (f : SourceFile) (extension : String) : Bool :=
  ('.' :: extension.toList).isSuffixOf f.fileName

end SourceFile

structure BatchOptions where
  vertexEntry : String := "main"
  fragmentEntry : String := "main"
  computeEntry : String := "main"
  throwOnError : Bool := true

structure BatchResult where
  summary : String
  logs : List (LogLevel × String)
  /-- The compiled passes, by program name. -/
  outputs : List (String × CompiledPass)

namespace Batch

def library (files : List SourceFile) : ChunkLibrary :=
  (files.filter (·.hasSuffix "chunk")).foldl (fun lib f => lib.add f.name f.text) {}

def addShader (options : BatchOptions) (pass : PassSource) (f : SourceFile) : PassSource :=
  let shader (entry : String) (extension : String) : Option ShaderSource :=
    some { name := f.name ++ "." ++ extension, source := f.text, entry := entry }
  match f.extension? with
  | some "vert" => { pass with vertex := shader options.vertexEntry "vert" }
  | some "frag" => { pass with fragment := shader options.fragmentEntry "frag" }
  | some "comp" => { pass with compute := shader options.computeEntry "comp" }
  | _ => pass

def programs (options : BatchOptions) (files : List SourceFile) : List PassSource :=
  let shaders := files.filter fun f => ["vert", "frag", "comp"].any f.hasSuffix
  let found := shaders.foldl
    (fun acc f =>
      Table.upsert (fun p => p.name = f.name) (fun p => addShader options p f)
        (addShader options { name := f.name } f) acc) []
  found.mergeSort fun a b => !(b.name < a.name)

def compileProgram (options : BatchOptions) (library : ChunkLibrary) (pass : PassSource) :
    Except Failure CompiledPass × Report :=
  pass.compile library .none .accepting
    { effect := pass.name, throwOnError := options.throwOnError }

/-- Compiles all programs. A program that fails is logged and gives no output. -/
def run (options : BatchOptions) (files : List SourceFile) : BatchResult :=
  let chunks := library files
  let passes := programs options files
  let results := passes.map fun pass => (pass.name, compileProgram options chunks pass)
  { summary := s!"Compiling {passes.length} programs with {chunks.chunks.length} chunks"
    logs := results.flatMap fun (name, outcome, report) =>
      (report.logLines.filter fun (level, _) => level = .error || level = .warn) ++
        match outcome with
        | .ok _ => []
        | .error failure => [(.error, s!"Error compiling {name}: {failure.message}")]
    outputs := results.filterMap fun (name, outcome, _) =>
      match outcome with
      | .ok compiled => some (name, compiled)
      | .error _ => none }

def setEntry? (options : BatchOptions) (option value : String) : Option BatchOptions :=
  match option with
  | "--vert-entry" => some { options with vertexEntry := value }
  | "--frag-entry" => some { options with fragmentEntry := value }
  | "--compute-entry" => some { options with computeEntry := value }
  | _ => none

def setAttached? (options : BatchOptions) (argument : String) : Option BatchOptions := do
  let (option, value) ← Text.cut? ['='] argument.toList
  setEntry? options (String.ofList option) (String.ofList value)

def isOption (argument : String) : Bool :=
  argument.toList.head? = some '-' && argument ≠ "-"

/-- Sets an entry by an option with its value in the next argument, which must not look like an
option. -/
def setDetached? (options : BatchOptions) (argument : String) (next : Option String) :
    Option BatchOptions := do
  let value ← next
  if isOption value then none else setEntry? options argument value

/-- Reads the options of a batch. What is no option is kept as a positional argument, and so is
everything after two dashes. -/
def readOptions (options : BatchOptions) : List String → Except String (List String × BatchOptions)
  | [] => .ok ([], options)
  | "--" :: rest => .ok (rest, options)
  | "--no-throw" :: rest => readOptions { options with throwOnError := false } rest
  | "--skip-ast-check" :: rest => readOptions options rest
  | argument :: rest =>
    match setAttached? options argument with
    | some changed => readOptions changed rest
    | none =>
      match setDetached? options argument rest.head? with
      | some changed => readOptions changed rest.tail
      | none =>
        if isOption argument then .error s!"unexpected argument '{argument}' found"
        else do
          let (positional, options) ← readOptions options rest
          return (argument :: positional, options)
termination_by arguments => arguments.length
decreasing_by
  all_goals simp only [List.length_cons, List.length_tail]
  all_goals omega

end Batch
end ShaderPass
