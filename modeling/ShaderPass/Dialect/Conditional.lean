import ShaderPass.ConstExpr.Eval
import ShaderPass.Directive

/-!
Conditional compilation that depends on the language version.

The lines of a text form a tree of conditional chains. A chain whose conditions depend on nothing but
the version is replaced by the branch that applies; any other chain stays, with its branches treated
alike.
-/
namespace ShaderPass.Conditional

inductive Role where
  | opens
  | continues
  | closes
  | plain
  deriving Repr, DecidableEq

def roleOf (line : Text) : Role :=
  match Directive.parse? line with
  | some ("if", _) | some ("ifdef", _) | some ("ifndef", _) => .opens
  | some ("elif", _) | some ("else", _) => .continues
  | some ("endif", _) => .closes
  | _ => .plain

mutual

inductive Block where
  | done
  | line (text : Text) (rest : Block)
  | chain (branches : Chain) (rest : Block)

/-- The branches of a chain, each under its header. The last one may lack its closing line. -/
inductive Chain where
  | last (header : Text) (body : Block) (close : Option Text)
  | more (header : Text) (body : Block) (rest : Chain)

end

mutual

def Block.render : Block → List Text
  | .done => []
  | .line t rest => t :: rest.render
  | .chain branches rest => branches.render ++ rest.render

def Chain.render : Chain → List Text
  | .last header body close => header :: body.render ++ close.toList
  | .more header body rest => header :: body.render ++ rest.render

end

def Block.append : Block → Block → Block
  | .done, tail => tail
  | .line t rest, tail => .line t (rest.append tail)
  | .chain branches rest, tail => .chain branches (rest.append tail)

theorem Block.render_append (a b : Block) : (a.append b).render = a.render ++ b.render := by
  match a with
  | .done => rfl
  | .line t rest => simp [append, render, render_append rest b]
  | .chain branches rest => simp [append, render, render_append rest b]

/-- What follows a block: branch and closing lines that belong to no chain of the block, each with the
block after it. -/
abbrev Stops := List (Text × Block)

def collect (header : Text) (body : Block) : Stops → Chain × Block × Stops
  | [] => (.last header body none, .done, [])
  | (stop, next) :: stops =>
    if roleOf stop = .closes then (.last header body (some stop), next, stops)
    else
      let (rest, after, left) := collect stop next stops
      (.more header body rest, after, left)

def parse : List Text → Block × Stops
  | [] => (.done, [])
  | line :: lines =>
    let (block, stops) := parse lines
    match roleOf line with
    | .plain => (.line line block, stops)
    | .opens =>
      let (branches, after, left) := collect line block stops
      (.chain branches after, left)
    | .continues | .closes => (.done, (line, block) :: stops)

/-- Takes branch and closing lines outside any chain for plain lines. -/
def settle (block : Block) : Stops → Block
  | [] => block
  | (stop, next) :: stops => block.append (.line stop (settle next stops))

def Block.ofLines (lines : List Text) : Block :=
  let (block, stops) := parse lines
  settle block stops

def renderStops (stops : Stops) : List Text :=
  stops.flatMap fun (stop, next) => stop :: next.render

theorem render_collect (header : Text) (body : Block) (stops : Stops) :
    (collect header body stops).1.render ++ (collect header body stops).2.1.render ++
      renderStops (collect header body stops).2.2 = header :: body.render ++ renderStops stops := by
  induction stops generalizing header body with
  | nil => simp [collect, Chain.render, Block.render, renderStops]
  | cons entry stops ih =>
    obtain ⟨stop, next⟩ := entry
    rw [collect]
    split
    · simp [Chain.render, renderStops]
    · have h := ih stop next
      simp only [renderStops, List.append_assoc, List.cons_append] at h
      simp [Chain.render, renderStops, h]

theorem render_parse (lines : List Text) :
    (parse lines).1.render ++ renderStops (parse lines).2 = lines := by
  induction lines with
  | nil => rfl
  | cons line lines ih =>
    rw [parse]
    cases roleOf line with
    | plain => simpa [Block.render] using ih
    | opens =>
      have h := render_collect line (parse lines).1 (parse lines).2
      simp only [List.cons_append, ih] at h
      simpa [Block.render] using h
    | continues => simpa [Block.render, renderStops] using ih
    | closes => simpa [Block.render, renderStops] using ih

theorem render_settle (block : Block) (stops : Stops) :
    (settle block stops).render = block.render ++ renderStops stops := by
  induction stops generalizing block with
  | nil => simp [settle, renderStops]
  | cons entry stops ih =>
    simp [settle, Block.render_append, Block.render, ih, renderStops]

theorem Block.render_ofLines (lines : List Text) : (Block.ofLines lines).render = lines := by
  rw [ofLines, render_settle, render_parse]

/-- Whether a header depends on the version only: none if not, and otherwise whether its branch
applies. -/
def applies? (version : Nat) (header : Text) : Option Bool :=
  match Directive.parse? header with
  | some ("if", condition) | some ("elif", condition) =>
    if ConstExpr.isVersionCondition condition then
      match ConstExpr.evaluate condition (some version) with
      | .ok n => some (n ≠ 0)
      | .error _ => some false
    else none
  | some ("else", _) => some true
  | _ => none

def Chain.isResolvable (version : Nat) : Chain → Bool
  | .last header _ _ => (applies? version header).isSome
  | .more header _ rest => (applies? version header).isSome && rest.isResolvable version

def Chain.select (version : Nat) : Chain → Block
  | .last header body _ => if applies? version header = some true then body else .done
  | .more header body rest =>
    if applies? version header = some true then body else rest.select version

mutual

/-- Resolves the chains of a block, innermost first. -/
def Block.resolve (version : Nat) : Block → Block
  | .done => .done
  | .line t rest => .line t (rest.resolve version)
  | .chain branches rest =>
    let inner := branches.resolve version
    if branches.isResolvable version then (inner.select version).append (rest.resolve version)
    else .chain inner (rest.resolve version)

def Chain.resolve (version : Nat) : Chain → Chain
  | .last header body close => .last header (body.resolve version) close
  | .more header body rest => .more header (body.resolve version) (rest.resolve version)

end

def downlevel (t : Text) (version : Nat) : Text :=
  Text.joinFeeds ((Block.ofLines (Text.feedLines t)).resolve version).render

end ShaderPass.Conditional
