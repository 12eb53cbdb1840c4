import ShaderPass.Diagnostic.Report
import ShaderPass.Directive
import ShaderPass.Text.Quoted

/-!
Subpass statements: pragmas such as `#pragma subpassColor inout highp color` that declare which
attachments of the current subpass a fragment shader reads and writes.
-/
namespace ShaderPass.Subpass

inductive Attachment where
  | color
  | depth
  | stencil
  deriving Repr, DecidableEq

namespace Attachment

def name : Attachment → String
  | color => "Color"
  | depth => "Depth"
  | stencil => "Stencil"

def rank : Attachment → Nat
  | color => 0
  | depth => 1
  | stencil => 2

def ofName? (name : String) : Option Attachment :=
  [color, depth, stencil].find? fun a => a.name = name

end Attachment

inductive Access where
  | read
  | readWrite
  | write
  deriving Repr, DecidableEq

namespace Access

def name : Access → String
  | read => "in"
  | readWrite => "inout"
  | write => "out"

def rank : Access → Nat
  | read => 0
  | readWrite => 1
  | write => 2

def ofName? (name : String) : Option Access :=
  [read, readWrite, write].find? fun a => a.name = name

end Access

inductive Component where
  | float
  | int
  | uint
  deriving Repr, DecidableEq

def Component.mark : Component → String
  | float => ""
  | int => "i"
  | uint => "u"

structure Statement where
  component : Component
  attachment : Attachment
  access : Access
  precision : Option String
  name : String
  /-- The attachment's number, in declaration order. -/
  index : Nat
  deriving Repr, DecidableEq

def isAnchor (line : Text) : Bool :=
  match Directive.pragma? line with
  | some ("subpass", args) => args.isEmpty
  | _ => false

/-- The component and the attachment's name in a pragma name such as `usubpassStencil`. -/
def kind? (pragma : String) : Option (Component × Text) :=
  let marks := [(Component.float, []), (.int, ['i']), (.uint, ['u'])]
  let found := marks.findSome? fun (component, mark) =>
    (Text.after? (mark ++ "subpass".toList) pragma.toList).map fun rest => (component, rest)
  found.filter fun (_, rest) => !rest.isEmpty

/-- Whether a line is a subpass statement, well-formed or not. -/
def isStatement (line : Text) : Bool :=
  (Directive.pragma? line).any fun (name, _) => (kind? name).isSome

def isCompatible : Attachment → Access → Component → Bool
  | .color, _, _ => true
  | .depth, access, component => access = .read && component = .float
  | .stencil, access, component => access = .read && component ≠ .int

def arguments? (args : Text) : Option (Access × Option String × String) :=
  match (Text.fields args).map String.ofList with
  | [access, precision, name] => (Access.ofName? access).map fun a => (a, some precision, name)
  | [access, name] => (Access.ofName? access).map fun a => (a, none, name)
  | _ => none

def Statement.parse? (line : Text) (index lineNumber : Nat) : Compile (Option Statement) := do
  let some (name, args) := Directive.pragma? line | return none
  let some (component, kind) := kind? name | return none
  match Attachment.ofName? (String.ofList kind), arguments? args with
  | some attachment, some (access, precision, target) =>
    if isCompatible attachment access component then
      return some ⟨component, attachment, access, precision, target, index⟩
    else
      Compile.error .subpassInOutMismatch s!"{name} does not support {access.name}" (some lineNumber)
      return none
  | _, _ =>
    let shown := Quoted.string (String.ofList (Text.trim line))
    Compile.error .invalidSubpassStatement s!"invalid subpass statement {shown}" (some lineNumber)
    return none

def collect (t : Text) : Compile (List Statement) :=
  ((Text.feedLines t).zipIdx 1).foldlM
    (fun found (line, number) => do
      let statement ← Statement.parse? line found.length number
      return found ++ statement.toList) []

def Statement.isOutput (s : Statement) : Bool :=
  s.access = .write

/-- The order of declarations: what is read comes first, by attachment, access and name, and what is
only written comes last, by number. -/
def Statement.precedes (a b : Statement) : Bool :=
  match a.isOutput, b.isOutput with
  | true, true => a.index ≤ b.index
  | false, true => true
  | true, false => false
  | false, false =>
    if a.attachment ≠ b.attachment then a.attachment.rank ≤ b.attachment.rank
    else if a.access ≠ b.access then a.access.rank ≤ b.access.rank
    else !(b.name < a.name)

end ShaderPass.Subpass
