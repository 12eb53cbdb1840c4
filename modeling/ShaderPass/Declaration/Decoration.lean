import ShaderPass.Declaration.Parser
import ShaderPass.Text.Splice

/-!
Decoration: writing memory layouts and allocated slots into the layout qualifiers of a text.
-/
namespace ShaderPass.Decoration

/-- The edit that gives a declaration a new layout. Removing a qualifier also removes the blank after
it. -/
def edit (t : Text) (d : Declaration) (layout : Layout) : Edit :=
  let qualifier := layout.render
  match d.layoutRange with
  | some (start, stop) =>
    let more := if qualifier.isEmpty && (Text.dropBytes stop t).head? = some ' ' then 1 else 0
    ⟨start, stop + more, qualifier⟩
  | none => ⟨d.start, d.start, qualifier ++ [' ']⟩

def layoutEdits (t : Text) (update : Declaration → Compile (Option Layout)) (ds : List Declaration) :
    Compile (List Edit) := do
  let edits ← ds.mapM fun d => do
    match ← update d with
    | some layout => return if layout = d.layout then none else some (edit t d layout)
    | none => return none
  return edits.filterMap id

/-- Changes the layouts of the declarations of a text. The text is known to be valid, so it is read
without reporting. -/
def updateLayouts (t : Text) (stage : Stage) (update : Declaration → Compile (Option Layout)) :
    Compile Text := do
  let declarations ← Compile.silently (Declaration.extract t stage (FunctionDef.find t))
  return Text.splice t (← layoutEdits t update declarations)

def blockLayout (layout : Layout) : Layout :=
  if layout.has "std140" then layout
  else ("std140", none) :: (layout.erase "shared").erase "packed"

def bufferLayout (layout : Layout) (binding : Option Nat) : Layout :=
  let layout := if layout.has "std430" then layout else ("std430", none) :: layout
  match binding with
  | some n => layout.set "binding" (some (toString n))
  | none => layout

def memoryUpdate (info : Interface) (version : Nat) (d : Declaration) : Compile (Option Layout) :=
  match d.category with
  | .block => return some (blockLayout d.layout)
  | .buffer =>
    let binding := if version ≥ 450 then
      (info.find? .buffer d.descriptor.name).bind Descriptor.binding else none
    return some (bufferLayout d.layout binding)
  | _ => return none

def memoryLayouts (t : Text) (stage : Stage) (info : Interface) (version : Nat) : Compile Text :=
  updateLayouts t stage (memoryUpdate info version)

/-- The layout with the slots that a language version can express: bindings and locations from 450
on, otherwise the locations of attributes and fragment outputs only. -/
def slotLayout (version : Nat) (category : Category) (allocated : Descriptor) (layout : Layout) :
    Layout :=
  let location := allocated.location.map toString
  if version ≥ 450 then
    if category.usesLocation then layout.set "location" location
    else layout.set "binding" (allocated.binding.map toString)
  else
    let layout := layout.erase "binding"
    match category with
    | .vertexInput | .fragColor => layout.set "location" location
    | .varying => layout.erase "location"
    | _ => layout

def slotUpdate (info : Interface) (version : Nat) (d : Declaration) : Compile (Option Layout) :=
  match info.find? d.category d.descriptor.name with
  | some allocated => return some (slotLayout version d.category allocated d.layout)
  | none => do
    Compile.debug s!"no allocated descriptor for {d.category.name} {d.descriptor.name}"
    return none

/-- Writes the allocated slots. Versions below 300 have no layout qualifiers. -/
def slots (t : Text) (stage : Stage) (info : Interface) (version : Nat) : Compile Text :=
  if version < 300 then return t else updateLayouts t stage (slotUpdate info version)

end ShaderPass.Decoration
