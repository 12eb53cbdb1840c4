import ShaderPass.Condition
import ShaderPass.ConstExpr.Eval
import ShaderPass.Declaration.Basic
import ShaderPass.FunctionDef
import ShaderPass.Std140

/-!
Finding declarations: the statements outside functions that start with qualifiers, one of them a
storage qualifier.
-/
namespace ShaderPass.Declaration

inductive Storage where
  | uniform
  | input
  | output
  | buffer
  deriving Repr, DecidableEq

def Storage.ofName? : String → Option Storage
  | "uniform" => some uniform
  | "in" => some input
  | "out" => some output
  | "buffer" => some buffer
  | _ => none

/-- Tokens from some point to the end of the source, of which the first `size` belong to the
statement at hand. -/
structure Statement where
  tokens : List Token
  size : Nat

namespace Statement

def head? (s : Statement) : Option Token :=
  if s.size = 0 then none else s.tokens.head?

def drop (s : Statement) (n : Nat) : Statement :=
  ⟨s.tokens.drop n, s.size - n⟩

def startsWith (s : Statement) (c : Char) : Bool :=
  s.head?.any (Token.isPunct c)

def ident? (s : Statement) : Option String :=
  (s.head?.filter Token.isIdentifier).map Token.name

end Statement

/-- How many tokens precede the end of a statement: a semicolon or a directive outside braces, or the
end of the source. -/
def statementLength : List Token → Nat
  | [] => 0
  | t :: ts =>
    if t.isDirective || t.isPunct ';' then 0
    else if t.isPunct '\x7b' then
      match Bracket.closeOffset? (t :: ts) with
      | some n => n + 1 + statementLength (ts.drop n)
      | none => ts.length + 1
    else statementLength ts + 1
termination_by ts => ts.length
decreasing_by all_goals simp only [List.length_cons, List.length_drop]; omega

def precisions : List String :=
  ["highp", "mediump", "lowp"]

def ignoredQualifiers : List String :=
  ["flat", "smooth", "noperspective", "centroid", "invariant", "coherent", "volatile", "restrict"]

/-- The qualifiers in front of a declaration; of repeated ones the last counts. -/
structure Qualifiers where
  layout : Layout := []
  layoutRange : Option (Nat × Nat) := none
  storage : Option (Storage × Nat × Nat) := none
  precision : Option String := none
  access : Option MemoryAccess := none

/-- The source between the bracket that opens some tokens and its close, and how many tokens precede
the close. -/
def bracketed? (source : Text) (tokens : List Token) : Option (Text × Nat) := do
  let n ← Bracket.closeOffset? tokens
  let opening ← tokens.head?
  let closing ← tokens[n]?
  return (Text.slice opening.stop closing.start source, n)

def Qualifiers.note? (q : Qualifiers) (t : Token) : Option Qualifiers :=
  match Storage.ofName? t.name with
  | some storage => some { q with storage := some (storage, t.start, t.stop) }
  | none =>
    if t.name = "readonly" then some { q with access := some .readOnly }
    else if t.name = "writeonly" then some { q with access := some .writeOnly }
    else if t.name ∈ precisions then some { q with precision := some t.name }
    else if t.name ∈ ignoredQualifiers then some q
    else none

/-- Reads qualifiers off a statement. A layout list that the statement does not close makes it no
declaration. -/
def Qualifiers.read (source : Text) (q : Qualifiers) (s : Statement) :
    Option (Qualifiers × Statement) :=
  match s with
  | ⟨t :: ts, size + 1⟩ =>
    let rest : Statement := ⟨ts, size⟩
    if t.name = "layout" && rest.startsWith '(' then do
      let (entries, n) ← bracketed? source ts
      let closing ← ts[n]?
      if n < size then
        Qualifiers.read source
          { q with layout := Layout.parse entries, layoutRange := some (t.start, closing.stop) }
          (rest.drop (n + 1))
      else none
    else match q.note? t with
      | some q' => Qualifiers.read source q' rest
      | none => some (q, s)
  | _ => some (q, s)
termination_by s.size
decreasing_by
  · simp only [Statement.drop]
    omega
  · omega

/-- Whether an array length is a capacity that the engine fills in. -/
def isEngineCapacity (t : Text) : Bool :=
  (Text.after? "CC_".toList t).any fun rest =>
    !rest.isEmpty && rest.all fun c => c.isUpper || c.isDigit || c = '_'

/-- The length in the square brackets that tokens start with, as written and as a number. A length
that is left out, where that is allowed, and an engine capacity count as zero. -/
def arrayLength (source : Text) (allowUnsized : Bool) (tokens : List Token) :
    Compile (Option String × Nat) :=
  match bracketed? source tokens with
  | none => return (none, 1)
  | some (inner, _) => do
    let expr := Text.trim inner
    let written := String.ofList expr
    if expr.isEmpty && allowUnsized then return (some "", 0)
    if isEngineCapacity expr then return (some written, 0)
    match ConstExpr.evaluate expr none with
    | .ok n =>
      if 0 ≤ n && n < 0x100000000 then return (some written, n.toNat)
    | .error _ => pure ()
    let line := tokens.head?.map fun t => Text.lineOf source t.start
    Compile.error .nonConstantArrayLength
      s!"array length {Quoted.string written} is not a constant expression" line
    return (some written, 1)

/-- The member that the words before its end declare: the last two, precisions aside, are its type
and its name. -/
def member? (words : List String) (arraySize : Option String) (count : Nat) : Option Member :=
  match (words.filter (· ∉ precisions)).reverse with
  | name :: type :: _ =>
    some {
      name := name
      type := type
      precision := words.find? (· ∈ precisions)
      arraySize := arraySize
      count := count }
  | _ => none

/-- The members among the next `size` tokens; `words` are those since the last member. -/
def members (source : Text) (allowUnsized : Bool) (words : List String) (size : Nat)
    (tokens : List Token) : Compile (List Member) :=
  match size, tokens with
  | size + 1, t :: ts =>
    if t.isDirective then
      Compile.fatal .directiveInBlock s!"preprocessor directive {Quoted.string t.name} in block"
        (some (Text.lineOf source t.start))
    else if t.isIdentifier then members source allowUnsized (words ++ [t.name]) size ts
    else if t.isPunct '[' then do
      let (arraySize, count) ← arrayLength source allowUnsized (t :: ts)
      let n := (Bracket.closeOffset? (t :: ts)).getD size
      let later ← members source allowUnsized [] (size - n) (ts.drop n)
      return (member? words arraySize count).toList ++ later
    else if t.isPunct ';' then do
      let later ← members source allowUnsized [] size ts
      return (member? words none 1).toList ++ later
    else members source allowUnsized words size ts
  | _, _ => return []
termination_by size
decreasing_by all_goals omega

def category? (storage : Storage) (type : String) (stage : Stage) (name : String) (line : Nat) :
    Compile (Option Category) :=
  match storage, TypeClass.ofName type, stage with
  | .uniform, .resource r, _ => return some (.ofResource r)
  | .uniform, _, _ => do
    Compile.error .uniformOutsideBlock s!"uniform {name} must be declared in a uniform block" (some line)
    return none
  | .input, _, .vertex => return some .vertexInput
  | .input, _, .fragment => return some .varying
  | .output, _, .vertex => return some .varying
  | .output, _, .fragment => return some .fragColor
  | _, _, _ => return none

def body? (source : Text) (stage : Stage) (q : Qualifiers) (storage : Storage) (line : Nat)
    (s : Statement) : Compile (Option (Category × Descriptor)) := do
  let some type := s.ident? | return none
  let rest := s.drop 1
  if rest.startsWith '\x7b' then
    let block? := match storage with
      | .uniform => some Category.block
      | .buffer => some Category.buffer
      | _ => none
    let some category := block? | return none
    let some close := Bracket.closeOffset? rest.tokens | return none
    let ms ← members source (category = .buffer) [] (close - 1) (rest.tokens.drop 1)
    if category = .block then discard <| Std140.validate type ms line
    return some (category, { Descriptor.declared type type stage with members := ms })
  else
    let some name := rest.ident? | return none
    let some category ← category? storage type stage name line | return none
    let d := { Descriptor.declared name type stage with precision := q.precision }
    if (rest.drop 1).startsWith '[' then
      let (_, count) ← arrayLength source false (rest.drop 1).tokens
      return some (category, { d with count := count })
    else return some (category, d)

def parse? (source : Text) (stage : Stage) (s : Statement) : Compile (Option Declaration) := do
  let some first := s.tokens.head? | return none
  let some (q, rest) := Qualifiers.read source {} s | return none
  let some (storage, storageRange) := q.storage | return none
  let line := Text.lineOf source first.start
  let some (category, d) ← body? source stage q storage line rest | return none
  let access := if category = .buffer || category = .image then some (q.access.getD .readWrite) else none
  return some {
    start := first.start
    stop := (s.tokens[s.size]?.map Token.stop).getD (Text.byteLen source)
    descriptor := { d with
      binding := q.layout.number? "binding"
      location := q.layout.number? "location"
      inputAttachment := q.layout.number? "input_attachment_index"
      memoryAccess := access }
    category := category
    layout := q.layout
    layoutRange := q.layoutRange
    storageRange := storageRange
    line := line }

def builtinTag? (line : Text) : Option String :=
  match Directive.pragma? line with
  | some ("builtin", args) => do
    let inner ← Text.before? [')'] (← Text.after? ['('] args)
    return String.ofList (Text.trim inner)
  | _ => none

def afterStatement (n : Nat) (ts : List Token) : List Token :=
  match ts.drop n with
  | [] => []
  | t :: rest => if t.isPunct ';' then rest else t :: rest

theorem length_afterStatement_le (n : Nat) (ts : List Token) :
    (afterStatement n ts).length ≤ ts.length := by
  have h : (ts.drop n).length ≤ ts.length := by simp
  unfold afterStatement
  split
  · simp
  · rename_i t rest heq
    rw [heq, List.length_cons] at h
    split
    · omega
    · simp only [List.length_cons]
      omega

/-- The declarations among tokens, under the conditions and tags in force. Tags go to the next
declaration. -/
def extractFrom (source : Text) (stage : Stage) (functions : List FunctionDef)
    (stack : Condition.Stack) (tags : List (String × String)) (tokens : List Token) :
    Compile (List Declaration) :=
  match tokens with
  | [] => return []
  | t :: ts =>
    match functions.find? (·.contains t.start) with
    | some f =>
      extractFrom source stage functions stack tags (ts.dropWhile fun t => t.start < f.stop)
    | none =>
      if t.isDirective then
        let tags' := match builtinTag? t.lexeme with
          | some tag => Table.insert "builtin" tag tags
          | none => tags
        extractFrom source stage functions (stack.update t.lexeme) tags' ts
      else if t.isIdentifier then do
        let n := statementLength ts
        let found ← parse? source stage ⟨t :: ts, n + 1⟩
        match found with
        | some d =>
          let d := { d with
            descriptor := { d.descriptor with defines := stack.identifiers, tags := tags } }
          let later ← extractFrom source stage functions stack [] (afterStatement n ts)
          return d :: later
        | none => extractFrom source stage functions stack tags (afterStatement n ts)
      else extractFrom source stage functions stack tags ts
termination_by tokens.length
decreasing_by
  · have := (List.dropWhile_suffix (fun t : Token => decide (t.start < f.stop)) (l := ts)).length_le
    simp only [List.length_cons]
    omega
  · exact Nat.lt_succ_self _
  · exact Nat.lt_succ_of_le (length_afterStatement_le _ _)
  · exact Nat.lt_succ_of_le (length_afterStatement_le _ _)
  · exact Nat.lt_succ_self _

/-- The declarations of a text outside the given functions, in source order. -/
def extract (t : Text) (stage : Stage) (functions : List FunctionDef) :
    Compile (List Declaration) :=
  extractFrom t stage functions [] [] (Token.significant t)

end ShaderPass.Declaration
