import ShaderPass.Diagnostic.Report

/-!
Checks by a graphics backend, which compiles and links programs and answers with its log when it
fails.
-/
namespace ShaderPass

/-- A backend. An answer may depend on the calls before it. -/
structure Backend where
  compile : List BackendCall → Stage → Text → Except String Unit
  link : List BackendCall → Text → Text → Except String Unit

namespace Backend

def accepting : Backend :=
  ⟨fun _ _ _ => .ok (), fun _ _ _ => .ok ()⟩

def numbered (t : Text) : Text :=
  ((Text.lines t).zipIdx 1).flatMap fun (line, n) => (toString n ++ ": ").toList ++ line ++ ['\n']

def call (request : BackendCall) (answer : List BackendCall → Except String Unit) :
    Compile (Except String Unit) := do
  let earlier := (← getThe Report).backendCalls
  Compile.emit (.backend request)
  return answer earlier

def checkStage (backend : Backend) (stage : Stage) (source : Text) : Compile Unit := do
  match ← call (.compile stage) (fun earlier => backend.compile earlier stage source) with
  | .ok _ => pure ()
  | .error log =>
    let listing := String.ofList (numbered source)
    Compile.fatal .compileFailed s!"failed to compile {stage.name} shader: {log}\n{listing}"

def check (backend : Backend) (vertex fragment : Text) : Compile Unit := do
  backend.checkStage .vertex vertex
  backend.checkStage .fragment fragment
  match ← call .link (fun earlier => backend.link earlier vertex fragment) with
  | .ok _ => Compile.debug "validated program with backend"
  | .error log => Compile.fatal .linkFailed s!"failed to link program: {log}"

end Backend
end ShaderPass
