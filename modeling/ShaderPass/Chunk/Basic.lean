import ShaderPass.Diagnostic.Report
import ShaderPass.Directive
import ShaderPass.Table
import ShaderPass.Text.Quoted

/-!
Chunks: named pieces of source that shaders include.
-/
namespace ShaderPass

structure Chunk where
  name : String
  /-- The source without its deprecation pragmas. -/
  content : Text
  /-- Why the chunk should no longer be included. -/
  deprecation : Option String := none
  /-- Identifiers that code outside the chunk should no longer use, each with a message. -/
  deprecatedIdentifiers : List (String × String) := []
  deriving Repr, DecidableEq

namespace Chunk

def readLine (chunk : Chunk) (line : Text) : Chunk :=
  match Directive.pragma? line with
  | some ("deprecate-chunk", message) => { chunk with deprecation := some (String.ofList message) }
  | some ("deprecate-identifier", rest) =>
    let ident := String.ofList (rest.takeWhile fun c => !isBlank c)
    let message := String.ofList (Text.trim (rest.dropWhile fun c => !isBlank c))
    { chunk with deprecatedIdentifiers := Table.insert ident message chunk.deprecatedIdentifiers }
  | _ => { chunk with content := chunk.content ++ line ++ ['\n'] }

/-- Reads a chunk. The content ends with a line feed only if the source does. -/
def ofSource (name : String) (source : Text) : Chunk :=
  let chunk := (Text.lines source).foldl readLine { name := name, content := [] }
  if source.getLast? = some '\n' then chunk else { chunk with content := chunk.content.dropLast }

@[simp] theorem name_readLine (chunk : Chunk) (line : Text) :
    (chunk.readLine line).name = chunk.name := by
  unfold readLine
  split <;> rfl

theorem name_foldl_readLine (chunk : Chunk) (lines : List Text) :
    (lines.foldl readLine chunk).name = chunk.name := by
  induction lines generalizing chunk with
  | nil => rfl
  | cons line lines ih => rw [List.foldl_cons, ih, name_readLine]

@[simp] theorem name_ofSource (name : String) (source : Text) :
    (ofSource name source).name = name := by
  unfold ofSource
  split <;> exact name_foldl_readLine _ _

def toJson (chunk : Chunk) : Json :=
  .obj [("name", .str chunk.name), ("content", .text chunk.content),
    ("deprecation", .option .str chunk.deprecation),
    ("deprecated_identifiers",
      .list (fun (ident, message) => .arr [.str ident, .str message]) chunk.deprecatedIdentifiers)]

end Chunk

/-- The chunks known to a compilation. Names are distinct, and a chunk never changes. -/
structure ChunkLibrary where
  chunks : List Chunk := []
  distinct : (chunks.map Chunk.name).Nodup := by simp

namespace ChunkLibrary

def get? (library : ChunkLibrary) (name : String) : Option Chunk :=
  library.chunks.find? fun chunk => chunk.name = name

def add (library : ChunkLibrary) (name : String) (source : Text) : ChunkLibrary :=
  if known : name ∈ library.chunks.map Chunk.name then library
  else
    { chunks := library.chunks ++ [Chunk.ofSource name source]
      distinct := by
        rw [List.map_append, List.nodup_append]
        refine ⟨library.distinct, by simp, ?_⟩
        intro a ha b hb
        simp only [List.map_cons, List.map_nil, List.mem_singleton, Chunk.name_ofSource] at hb
        intro same
        exact known (by rw [← hb, ← same]; exact ha) }

def register (library : ChunkLibrary) (name : String) (source : Text) :
    StateM Report (ChunkLibrary × Bool) := do
  if name ∈ library.chunks.map Chunk.name then
    modify fun r => r.push (.log .debug s!"Ignoring duplicate chunk {Quoted.string name}")
    return (library, false)
  else return (library.add name source, true)

def find? (library : ChunkLibrary) (candidates : List String) : Option Chunk :=
  candidates.findSome? library.get?

end ChunkLibrary

/-- A late supply of chunks that the library lacks. An answer may depend on the queries before it,
but the names it can ever supply are finitely many. -/
structure ChunkSupply where
  names : List String
  find? : List (List String) → List String → Option Chunk
  name_mem : ∀ earlier candidates chunk, find? earlier candidates = some chunk → chunk.name ∈ names

namespace ChunkSupply

def none : ChunkSupply :=
  ⟨[], fun _ _ => .none, by simp⟩

/-- Answers with the first candidate, in candidate order, that names one of the chunks. -/
def ofChunks (chunks : List Chunk) : ChunkSupply where
  names := chunks.map Chunk.name
  find? _ candidates := candidates.findSome? fun name => chunks.find? fun chunk => chunk.name = name
  name_mem := by
    intro _ candidates chunk found
    obtain ⟨name, _, h⟩ := List.exists_of_findSome?_eq_some found
    exact List.mem_map_of_mem (List.mem_of_find?_eq_some h)

end ChunkSupply
end ShaderPass
