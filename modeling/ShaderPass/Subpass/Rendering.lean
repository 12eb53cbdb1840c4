import ShaderPass.Subpass.Statement

/-!
Declarations for subpass statements: input attachments where the language has them, and framebuffer
fetch elsewhere.
-/
namespace ShaderPass.Subpass

def framebufferFetch : String := "GL_EXT_shader_framebuffer_fetch"

def depthStencilFetch : String := "GL_ARM_shader_framebuffer_fetch_depth_stencil"

namespace Statement

def precisionMark (s : Statement) : String :=
  (s.precision.map (· ++ " ")).getD ""

def output (s : Statement) (qualifier : String) : String :=
  s!"layout(location = {s.index}) {qualifier} {s.precisionMark}{s.component.mark}vec4 {s.name};"

def input (s : Statement) (name : String) : String :=
  s!"layout(input_attachment_index = {s.index}) uniform " ++
    s!"{s.precisionMark}{s.component.mark}subpassInput {name};"

def depthStencil (s : Statement) : String :=
  match s.attachment with
  | .depth => s!"#define {s.name} gl_LastFragDepthARM"
  | _ => s!"#define {s.name} gl_LastFragStencilARM"

def renderAttachment (s : Statement) : List String :=
  match s.access with
  | .read => [s.input s.name]
  | .write => [s.output "out"]
  | .readWrite => [s.input (s.name ++ "_input"), s.output "out"]

def renderInOut (s : Statement) : List String :=
  match s.attachment, s.access with
  | .color, .write => [s.output "out"]
  | .color, .read => [s.output "inout"]
  | .color, .readWrite => [s.output "inout", s!"#define {s.name}_input {s.name}"]
  | _, _ => [s.depthStencil]

/-- Declarations with a builtin array of the last colors. -/
def renderFetch (s : Statement) : List String :=
  match s.attachment, s.access with
  | .color, .write => [s.output "out"]
  | .color, .read => [s!"#define {s.name} gl_LastFragData[{s.index}]"]
  | .color, .readWrite => [s.output "out", s!"#define {s.name}_input gl_LastFragData[{s.index}]"]
  | _, _ => [s.depthStencil]

def render (s : Statement) (version : Nat) : List String :=
  if version ≥ 450 then s.renderAttachment
  else if version ≥ 300 then s.renderInOut
  else s.renderFetch

end Statement

def requirement (extension : String) : String :=
  s!"#pragma extension([{extension}, __VERSION__ < 450, require])"

def preamble (statements : List Statement) : List String :=
  let reads (s : Statement) := s.access ≠ .write
  (if statements.any fun s => s.attachment = .color && reads s then [requirement framebufferFetch]
    else []) ++
  (if statements.any fun s => s.attachment ≠ .color then [requirement depthStencilFetch] else []) ++
  (if statements.any reads then ["#define subpassLoad(x) x"] else [])

def render (statements : List Statement) (version : Nat) : Text :=
  let lines := (if version < 450 then preamble statements else []) ++
    statements.flatMap fun s => s.render version
  Text.joinFeeds (lines.map String.toList)

/-- Replaces every anchor by the declarations and blanks the statements. -/
def expand (t : Text) (version : Nat) : Compile Text := do
  let statements ← collect t
  if statements.isEmpty then return t
  let declarations := render (statements.mergeSort Statement.precedes) version
  let lines := Text.feedLines t
  if !lines.any isAnchor then
    Compile.debug s!"ignoring {statements.length} subpass statements without an anchor"
  return Text.joinFeeds (lines.map fun line =>
    if isAnchor line then declarations
    else if isStatement line then []
    else line)

end ShaderPass.Subpass
