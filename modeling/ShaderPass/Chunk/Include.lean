import ShaderPass.Chunk.Basic
import ShaderPass.Diagnostic.Report
import ShaderPass.Text.Quoted

/-!
Include resolution: every include line is replaced by the content of its chunk, once per chunk.

The text around an include applies to every included line, and a chunk that was included before
leaves an empty line.
-/
namespace ShaderPass.Include

structure Line where
  before : Text
  name : Text
  after : Text
  deriving Repr, DecidableEq

/-- Reads an include line. An include after a line comment mark is none. -/
def Line.parse? (line : Text) : Option Line := do
  let (before, rest) ← Text.cut? "#include".toList line
  if (Text.cut? "//".toList before).isSome then none
  else
    let (close, inner) ← match Text.trimStart rest with
      | '<' :: inner => some ('>', inner)
      | '"' :: inner => some ('"', inner)
      | _ => none
    let (name, after) ← Text.cut? [close] inner
    return ⟨before, Text.trim name, after⟩

def dropTails (tail t : Text) : Text :=
  match Text.before? tail t with
  | some shorter => if _ : shorter.length < t.length then dropTails tail shorter else t
  | none => t
termination_by t.length

def fileName? (path : Text) : Option Text :=
  match Text.splitOn '/' path with
  | [] | [_] => none
  | _ :: pieces => pieces.getLast?

/-- The names to try for an include, in order: the name itself, the name with the chunk extension
taken off or put on, and the bare file name. -/
def candidates (name : Text) : List String :=
  let extension := ".chunk".toList
  let other := (Text.before? extension name).getD (name ++ extension)
  let file := (fileName? name).map (dropTails extension)
  Table.dropRepeats (([name, other] ++ file.toList).map String.ofList)

structure Progress where
  /-- The chunks supplied from outside the library. -/
  supplied : List Chunk := []
  /-- The names of the included chunks, in the order of inclusion. -/
  visited : List String := []

abbrev Resolve := StateT Progress Compile

/-- Finds the chunk of an include: in the library, then among the chunks supplied before, and last by
asking the supply. -/
def find (library : ChunkLibrary) (supply : ChunkSupply) (name : Text) : Resolve Chunk := do
  let names := candidates name
  let progress ← get
  let known := library.find? names <|>
    names.findSome? fun n => progress.supplied.find? fun chunk => chunk.name = n
  match known with
  | some chunk => return chunk
  | none =>
    let report ← getThe Report
    Compile.emit (.chunkQuery names)
    match supply.find? report.chunkQueries names with
    | some chunk =>
      let shown := Quoted.string (String.ofList name)
      Compile.debug s!"Found chunk {Quoted.string chunk.name} for include {shown}"
      set { progress with
        supplied := Table.upsert (fun c => c.name = chunk.name) (fun _ => chunk) chunk
          progress.supplied }
      return chunk
    | none => Compile.fatal .chunkNotFound s!"can not resolve '{String.ofList name}'"

/-- Reports the deprecated identifiers that a text uses. A chunk may use its own. -/
def checkIdentifiers (library : ChunkLibrary) (t : Text) (owner : Option String) :
    Resolve Unit := do
  let chunks := library.chunks ++ (← get).supplied
  (chunks.filter fun c => some c.name ≠ owner).forM fun chunk =>
    chunk.deprecatedIdentifiers.forM fun (ident, message) =>
      if Text.containsWord t ident.toList then
        Compile.error .deprecatedIdentifier s!"identifier {ident} is deprecated: {message}"
      else pure ()

/-- The lines of a text with its includes expanded. Every nested expansion visits a new chunk, so a
`fuel` beyond the number of chunks is never used up. -/
def expand (library : ChunkLibrary) (supply : ChunkSupply) :
    Nat → Option String → Text → Resolve (List Text)
  | 0, _, _ => return []
  | fuel + 1, owner, t => do
    checkIdentifiers library t owner
    let expanded ← (Text.feedLines t).mapM fun line => do
      match Line.parse? line with
      | none => return [line]
      | some inclusion =>
        let chunk ← find library supply inclusion.name
        if chunk.name ∈ (← get).visited then return [[]]
        modify fun p => { p with visited := p.visited ++ [chunk.name] }
        if let some message := chunk.deprecation then
          Compile.error .deprecatedChunk s!"chunk {chunk.name} is deprecated: {message}"
        let included ← expand library supply fuel (some chunk.name) chunk.content
        return included.map fun l => inclusion.before ++ l ++ inclusion.after
    return expanded.flatten

structure Resolved where
  text : Text
  record : List String
  deriving Repr, DecidableEq

def resolve (library : ChunkLibrary) (supply : ChunkSupply) (t : Text) : Compile Resolved := do
  let fuel := library.chunks.length + supply.names.length + 1
  let (lines, progress) ← (expand library supply fuel none t).run {}
  return ⟨Text.joinFeeds lines, progress.visited⟩

end ShaderPass.Include
