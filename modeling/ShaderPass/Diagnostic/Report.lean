import ShaderPass.Diagnostic.Code
import ShaderPass.Json
import ShaderPass.Stage

/-!
Reports: what a compilation says while it runs.

A report collects the diagnostics of one compilation and the trace of everything an observer sees:
log lines, chunk queries and backend calls. Both survive a failure. An error stops the compilation
unless the report only prints errors; a fatal error always stops it.
-/
namespace ShaderPass

inductive Severity where
  | warning
  | error
  deriving Repr, DecidableEq

def Severity.name : Severity → String
  | warning => "warning"
  | error => "error"

structure Diagnostic where
  severity : Severity
  code : Code
  message : String
  line : Option Nat
  deriving Repr, DecidableEq

def Diagnostic.toJson (d : Diagnostic) : Json :=
  .obj [("level", .str d.severity.name), ("code", .str d.code.name), ("message", .str d.message),
    ("line", .option .nat d.line)]

/-- Why a compilation stopped. The message names the effect and the shader. -/
structure Failure where
  code : Code
  message : String
  deriving Repr, DecidableEq

inductive LogLevel where
  | error
  | warn
  | info
  | debug
  deriving Repr, DecidableEq

def LogLevel.name : LogLevel → String
  | error => "ERROR"
  | warn => "WARN"
  | info => "INFO"
  | debug => "DEBUG"

inductive BackendCall where
  | compile (stage : Stage)
  | link
  deriving Repr, DecidableEq

def BackendCall.name : BackendCall → String
  | compile stage => s!"compile {stage.name}"
  | link => "link"

inductive Event where
  | log (level : LogLevel) (text : String)
  | chunkQuery (candidates : List String)
  | backend (call : BackendCall)
  deriving Repr, DecidableEq

structure Report where
  effect : String := ""
  shader : String := ""
  throwOnError : Bool := true
  /-- A silent report records its diagnostics but logs none of them. -/
  silent : Bool := false
  messages : List Diagnostic := []
  trace : List Event := []
  deriving Repr, DecidableEq

namespace Report

/-- A report that neither stops at errors nor logs them, for text that was checked before. -/
def quiet : Report :=
  { throwOnError := false, silent := true }

def has (r : Report) (code : Code) : Bool :=
  r.messages.any fun d => d.code = code

/-- The line under which a diagnostic is logged and a failure is reported. -/
def format (r : Report) (d : Diagnostic) : String :=
  let line := (d.line.map toString).getD ""
  s!"{r.effect}.effect - {r.shader} - {line}: {d.severity.name} {d.code.display}: {d.message}"

def push (r : Report) (event : Event) : Report :=
  { r with trace := r.trace ++ [event] }

def record (r : Report) (d : Diagnostic) : Report :=
  let r' := { r with messages := r.messages ++ [d] }
  if r.silent then r'
  else r'.push (.log (if d.severity = .warning then .warn else .error) (r.format d))

def logLines (r : Report) : List (LogLevel × String) :=
  r.trace.filterMap fun
    | .log level text => some (level, text)
    | _ => none

def chunkQueries (r : Report) : List (List String) :=
  r.trace.filterMap fun
    | .chunkQuery candidates => some candidates
    | _ => none

def backendCalls (r : Report) : List BackendCall :=
  r.trace.filterMap fun
    | .backend call => some call
    | _ => none

end Report

/-- A computation that reports, and that a failure stops without undoing the report. -/
abbrev Compile := ExceptT Failure (StateM Report)

namespace Compile

def emit (event : Event) : Compile Unit :=
  modify fun r => r.push event

def debug (text : String) : Compile Unit :=
  emit (.log .debug text)

def setShader (name : String) : Compile Unit :=
  modify fun r => { r with shader := name }

def warn (code : Code) (message : String) (line : Option Nat := none) : Compile Unit :=
  modify fun r => r.record ⟨.warning, code, message, line⟩

def fatal (code : Code) (message : String) (line : Option Nat := none) : Compile α := do
  let r ← get
  let d : Diagnostic := ⟨.error, code, message, line⟩
  set (r.record d)
  throw ⟨code, r.format d⟩

def error (code : Code) (message : String) (line : Option Nat := none) : Compile Unit := do
  let r ← get
  let d : Diagnostic := ⟨.error, code, message, line⟩
  set (r.record d)
  if r.throwOnError then throw ⟨code, r.format d⟩

/-- Runs a computation under a quiet report. Its diagnostics are dropped; its trace, and a failure,
are kept. -/
def silently (action : Compile α) : Compile α := do
  let r ← get
  let (result, inner) := (action.run { Report.quiet with trace := r.trace }).run
  set { r with trace := inner.trace }
  match result with
  | .ok a => return a
  | .error failure => throw failure

def runWith (action : Compile α) (r : Report) : Except Failure α × Report :=
  (ExceptT.run action).run r

end Compile
end ShaderPass
