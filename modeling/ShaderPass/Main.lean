import ShaderPass.Batch

/-!
The command line: compiles the shaders of a folder and writes one file for each program.
-/
namespace ShaderPass

def readFolder (folder : String) : IO (List SourceFile) := do
  let root ← IO.FS.realPath folder
  let depth := root.toString.length + 1
  let paths := (← root.walkDir).toList.mergeSort fun a b => !(b.toString < a.toString)
  let mut files := []
  for path in paths do
    if !(← path.isDir) then
      let text ← IO.FS.readFile path
      files := files ++ [⟨String.ofList (path.toString.toList.drop depth), text.toList⟩]
  return files

def writeOutput (folder : String) (output : String × CompiledPass) : IO Unit := do
  let path := folder ++ "/" ++ output.1 ++ ".json"
  let parent := (path.splitOn "/").dropLast
  IO.FS.createDirAll ("/".intercalate parent)
  IO.FS.writeFile path output.2.toJson.pretty

def usage : String :=
  "usage: compile INPUT_FOLDER OUTPUT_FOLDER [--vert-entry NAME] [--frag-entry NAME] " ++
    "[--compute-entry NAME] [--skip-ast-check] [--no-throw]"

def compileFolder (input output : String) (options : BatchOptions) : IO Unit := do
  let start ← IO.monoMsNow
  let result := Batch.run options (← readFolder input)
  IO.println result.summary
  for (level, line) in result.logs do
    IO.println s!"{level.name} {line}"
  for compiled in result.outputs do
    writeOutput output compiled
  IO.println s!"Finished in {(← IO.monoMsNow) - start}ms"

end ShaderPass

open ShaderPass in
def main (args : List String) : IO UInt32 := do
  match args with
  | "compile" :: rest =>
    match Batch.readOptions {} rest with
    | .ok ([input, output], options) =>
      compileFolder input output options
      return 0
    | .ok _ =>
      IO.eprintln usage
      return 2
    | .error message =>
      IO.eprintln s!"error: {message}\n{usage}"
      return 2
  | _ =>
    IO.eprintln usage
    return 2
