import ShaderPass.Diagnostic.Report
import ShaderPass.FunctionDef
import ShaderPass.Text.Quoted
import ShaderPass.Text.Splice

/-!
Live code: the functions that the entry point can reach.

Functions of one name live or die together, because uses are only known by name. Everything outside
the dead functions stays as it is.
-/
namespace ShaderPass.LiveCode

/-- The nodes among `unseen` that `pending` reaches through `next` without leaving `unseen`. -/
def reach (next : Nat → List Nat) (unseen pending : List Nat) : List Nat :=
  match _found : pending.find? (· ∈ unseen) with
  | none => []
  | some node => node :: reach next (unseen.erase node) (next node ++ pending)
termination_by unseen.length
decreasing_by
  have member : node ∈ unseen := by simpa using List.find?_some _found
  have := List.length_erase_of_mem member
  have := List.length_pos_of_mem member
  omega

def named (functions : List FunctionDef) (name : String) : List Nat :=
  functions.zipIdx.filterMap fun (f, i) => if f.name = name then some i else none

/-- The functions that a function keeps alive: those it depends on and those of its name. -/
def supports (functions : List FunctionDef) (i : Nat) : List Nat :=
  match functions[i]? with
  | some f => f.deps ++ named functions f.name
  | none => []

/-- The indices where liveness starts: the entry, or else the first function, and every `main`. -/
def roots (functions : List FunctionDef) (entry : String) : List Nat :=
  let entries := named functions entry
  (if entries.isEmpty then (List.range functions.length).take 1 else entries) ++
    named functions "main"

def live (functions : List FunctionDef) (entry : String) : List Nat :=
  reach (supports functions) (List.range functions.length) (roots functions entry)

/-- How far the removal of a function that ends at byte offset `stop` goes: over blanks up to and
including a line feed. -/
def removalStop (t : Text) (stop : Nat) : Nat :=
  let rest := Text.dropBytes stop t
  let blanks := rest.takeWhile fun c => c = ' ' || c = '\t' || c = '\r'
  let next := stop + Text.byteLen blanks
  if (rest.drop blanks.length).head? = some '\n' then next + 1 else next

/-- The index a live function has once the dead ones are gone. -/
def newIndex (alive : List Nat) (i : Nat) : Nat :=
  ((List.range i).filter (· ∈ alive)).length

/-- The live functions with the positions they have after the removals; `removed` counts the bytes
gone so far. -/
def retain (t : Text) (alive : List Nat) (removed : Nat) : List (FunctionDef × Nat) → List FunctionDef
  | [] => []
  | (f, i) :: rest =>
    if i ∈ alive then
      { f with
        start := f.start - removed
        stop := f.stop - removed
        paramStop := f.paramStop - removed
        deps := (f.deps.filter (· ∈ alive)).map (newIndex alive) } :: retain t alive removed rest
    else retain t alive (removed + (removalStop t f.stop - f.start)) rest

structure Retained where
  text : Text
  functions : List FunctionDef
  deriving Repr, DecidableEq

def eliminate (t : Text) (entry : String) : Retained :=
  let functions := FunctionDef.find t
  let alive := live functions entry
  let dead := functions.zipIdx.filter fun (_, i) => i ∉ alive
  ⟨Text.splice t (dead.map fun (f, _) => ⟨f.start, removalStop t f.stop, []⟩),
    retain t alive 0 functions.zipIdx⟩

def eliminateReporting (t : Text) (entry : String) : Compile Retained := do
  if (named (FunctionDef.find t) entry).isEmpty then
    Compile.warn .missingEntry s!"entry function {Quoted.string entry} not found"
  return eliminate t entry

end ShaderPass.LiveCode
