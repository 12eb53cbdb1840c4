import ShaderPass.Declaration.Parser
import ShaderPass.Proofs.Diagnostic.Composition

/-! What reading declarations returns: its steps report through the reporting operations and none of
them looks at the report, so extraction is a recursion over tokens. -/
namespace ShaderPass

theorem Std140.Fault.code_mem_alwaysFatal (fault : Fault) : fault.code ∈ Code.alwaysFatal := by
  cases fault <;> simp [code, Code.alwaysFatal]

namespace Declaration

open Compile

variable {reads redirects : Bool}

theorem composed_arrayLength (source : Text) (allowUnsized : Bool) (tokens : List Token) :
    Composed reads redirects Code.alwaysFatal (arrayLength source allowUnsized tokens) := by
  unfold arrayLength
  cases bracketed? source tokens with
  | none => exact .pure _
  | some found =>
    have report (message : String) (line : Option Nat) (written : String) :
        Composed reads redirects Code.alwaysFatal (do
          error .nonConstantArrayLength message line
          return (some written, 1)) :=
      (Composed.error _ _ _).bind fun _ => .pure _
    dsimp only
    split
    · exact .pure _
    · split
      · exact .pure _
      · cases ConstExpr.evaluate (Text.trim found.1) none with
        | ok n =>
          dsimp only
          split
          · exact .pure _
          · exact report _ _ _
        | error fault => exact report _ _ _

theorem steady_arrayLength (source : Text) (allowUnsized : Bool) (tokens : List Token) :
    Steady (arrayLength source allowUnsized tokens) :=
  (composed_arrayLength source allowUnsized tokens).steady

theorem outcome_arrayLength_congr {source source' : Text} {tokens tokens' : List Token}
    (same : (bracketed? source tokens).map Prod.fst = (bracketed? source' tokens').map Prod.fst)
    (allowUnsized : Bool) : outcome (arrayLength source allowUnsized tokens) =
      outcome (arrayLength source' allowUnsized tokens') := by
  unfold arrayLength
  cases old : bracketed? source tokens with
  | none =>
    rw [old, Option.map_none, eq_comm, Option.map_eq_none_iff] at same
    rw [same]
  | some found =>
    rw [old, Option.map_some, eq_comm, Option.map_eq_some_iff] at same
    obtain ⟨inner, n⟩ := found
    obtain ⟨⟨_, n'⟩, new, rfl⟩ := same
    rw [new]
    dsimp only
    split
    · rfl
    · split
      · rfl
      · cases ConstExpr.evaluate (Text.trim _) none with
        | ok n =>
          dsimp only
          split
          · rfl
          · rw [outcome_error_bind fun _ => steady_pure _, outcome_error_bind fun _ => steady_pure _]
        | error e =>
          dsimp only
          rw [outcome_error_bind fun _ => steady_pure _, outcome_error_bind fun _ => steady_pure _]

theorem composed_members (source : Text) (allowUnsized : Bool) (words : List String) (size : Nat)
    (tokens : List Token) :
    Composed reads redirects Code.alwaysFatal (members source allowUnsized words size tokens) := by
  fun_induction members source allowUnsized words size tokens with
  | case1 => exact .fatal _ _ (by decide)
  | case2 words size t ts _ _ ih => exact ih
  | case3 words size t ts _ _ _ ih =>
    exact (composed_arrayLength _ _ _).bind fun _ => ih.bind fun _ => .pure _
  | case4 words size t ts _ _ _ _ ih => exact ih.bind fun _ => .pure _
  | case5 words size t ts _ _ _ _ ih => exact ih
  | case6 => exact .pure []

theorem steady_members (source : Text) (allowUnsized : Bool) (words : List String) (size : Nat)
    (tokens : List Token) : Steady (members source allowUnsized words size tokens) :=
  (composed_members source allowUnsized words size tokens).steady

theorem composed_category? (storage : Storage) (type : String) (stage : Stage) (name : String)
    (line : Nat) :
    Composed reads redirects Code.alwaysFatal (category? storage type stage name line) := by
  unfold category?
  split
  any_goals exact .pure _
  exact (Composed.error _ _ _).bind fun _ => .pure none

theorem composed_validate (block : String) (ms : List Member) (line : Nat) :
    Composed reads redirects Code.alwaysFatal (Std140.validate block ms line) := by
  unfold Std140.validate
  cases Std140.size ms with
  | ok n => exact .pure n.toNat
  | error fault => exact .fatal _ _ fault.code_mem_alwaysFatal

theorem composed_body? (source : Text) (stage : Stage) (q : Qualifiers) (storage : Storage)
    (line : Nat) (s : Statement) :
    Composed reads redirects Code.alwaysFatal (body? source stage q storage line s) := by
  unfold body?
  cases s.ident? with
  | none => exact .pure none
  | some type =>
    dsimp only
    split
    · split
      · cases Bracket.closeOffset? (s.drop 1).tokens with
        | none => exact .pure none
        | some close =>
          refine (composed_members _ _ _ _ _).bind fun ms => ?_
          split
          · exact ((composed_validate _ _ _).map _).bind fun _ => .pure _
          · exact .pure _
      · exact .pure none
    · cases (s.drop 1).ident? with
      | none => exact .pure none
      | some name =>
        refine (composed_category? _ _ _ _ _).bind fun found => ?_
        cases found with
        | none => exact .pure none
        | some category =>
          dsimp only
          split
          · exact (composed_arrayLength _ _ _).bind fun _ => .pure _
          · exact .pure _

theorem outcome_category?_line (storage : Storage) (type : String) (stage : Stage) (name : String)
    (line line' : Nat) : outcome (category? storage type stage name line') =
      outcome (category? storage type stage name line) := by
  unfold category?
  split
  · rfl
  · rw [outcome_error_bind fun _ => steady_pure _, outcome_error_bind fun _ => steady_pure _]
  all_goals rfl

theorem outcome_validate (block : String) (ms : List Member) (line : Nat) :
    outcome (Std140.validate block ms line) = (Std140.size ms).toOption.map UInt32.toNat := by
  unfold Std140.validate
  cases Std140.size ms with
  | ok n => rfl
  | error fault => exact outcome_fatal _ _ _

def blockCategory? : Storage → Option Category
  | .uniform => some .block
  | .buffer => some .buffer
  | _ => none

def blockOf (stage : Stage) (type : String) (category : Category) (ms : List Member) :
    Category × Descriptor :=
  (category, { Descriptor.declared type type stage with members := ms })

def variableOf (stage : Stage) (precision : Option String) (name type : String) (category : Category)
    (count : Nat) : Category × Descriptor :=
  (category, { Descriptor.declared name type stage with precision := precision, count := count })

section Body

variable (source : Text) (stage : Stage) (q : Qualifiers) (storage : Storage) (line : Nat)
  {s : Statement}

theorem outcome_body?_of_no_type (no_type : s.ident? = none) :
    outcome (body? source stage q storage line s) = some none := by
  unfold body?
  rw [no_type]
  rfl

theorem outcome_body?_of_block {type : String} (named : s.ident? = some type)
    (block : (s.drop 1).startsWith '\x7b' = true) :
    outcome (body? source stage q storage line s) =
      match blockCategory? storage, Bracket.closeOffset? (s.drop 1).tokens with
      | some category, some close =>
        (outcome (members source (category = .buffer) [] (close - 1)
          ((s.drop 1).tokens.drop 1))).bind fun ms =>
          if category = .block && (Std140.size ms).toOption.isNone then none
          else some (some (blockOf stage type category ms))
      | _, _ => some none := by
  have closing (category : Category) (close : Nat) :
      outcome (do
        let ms ← members source (category = .buffer) [] (close - 1) ((s.drop 1).tokens.drop 1)
        if category = .block then discard <| Std140.validate type ms line
        return some (category, { Descriptor.declared type type stage with members := ms })) =
      (outcome (members source (category = .buffer) [] (close - 1)
          ((s.drop 1).tokens.drop 1))).bind fun ms =>
          if category = .block && (Std140.size ms).toOption.isNone then none
          else some (some (blockOf stage type category ms)) := by
    have valid (ms : List Member) : Steady (discard <| Std140.validate type ms line) :=
      (composed_validate type ms line).steady.bind fun _ => steady_pure _
    rw [outcome_bind (steady_members _ _ _ _ _)]
    · congr 1
      funext ms
      by_cases uniform : category = .block
      · rw [if_pos uniform, outcome_bind (valid ms) fun _ => steady_pure _]
        show ((outcome (Std140.validate type ms line >>= fun _ => pure ())).bind _) = _
        rw [outcome_bind (composed_validate type ms line).steady fun _ => steady_pure _, outcome_validate]
        cases (Std140.size ms).toOption <;> simp [uniform, blockOf]
      · rw [if_neg uniform]
        simp [uniform, blockOf]
    · intro ms
      split
      · exact (valid ms).bind fun _ => steady_pure _
      · exact steady_pure _
  unfold body?
  rw [named]
  dsimp only
  rw [if_pos block]
  cases storage with
  | uniform =>
    dsimp only [blockCategory?]
    cases Bracket.closeOffset? (s.drop 1).tokens with
    | none => rfl
    | some close => exact closing .block close
  | buffer =>
    dsimp only [blockCategory?]
    cases Bracket.closeOffset? (s.drop 1).tokens with
    | none => rfl
    | some close => exact closing .buffer close
  | input => rfl
  | output => rfl

theorem outcome_body?_of_variable {type : String} (named : s.ident? = some type)
    (no_block : (s.drop 1).startsWith '\x7b' = false) :
    outcome (body? source stage q storage line s) =
      match (s.drop 1).ident? with
      | none => some none
      | some name => (outcome (category? storage type stage name line)).bind fun
        | none => some none
        | some category =>
          (if ((s.drop 1).drop 1).startsWith '[' then
            (outcome (arrayLength source false ((s.drop 1).drop 1).tokens)).map Prod.snd
          else some 1).map fun count =>
            some (variableOf stage q.precision name type category count) := by
  unfold body?
  rw [named]
  dsimp only
  rw [if_neg (by rw [no_block]; decide)]
  cases (s.drop 1).ident? with
  | none => rfl
  | some name =>
    dsimp only
    rw [outcome_bind (composed_category? _ _ _ _ _).steady]
    · congr 1
      funext found
      cases found with
      | none => rfl
      | some category =>
        dsimp only
        split
        · rw [outcome_bind (steady_arrayLength _ _ _) fun _ => steady_pure _]
          cases outcome (arrayLength source false ((s.drop 1).drop 1).tokens) <;> rfl
        · rfl
    · intro found
      cases found with
      | none => exact steady_pure _
      | some category =>
        dsimp only
        split
        · exact (steady_arrayLength _ _ _).bind fun _ => steady_pure _
        · exact steady_pure _

end Body

theorem composed_parse? (source : Text) (stage : Stage) (s : Statement) :
    Composed reads redirects Code.alwaysFatal (parse? source stage s) := by
  unfold parse?
  cases s.tokens.head? with
  | none => exact .pure none
  | some first =>
    cases Qualifiers.read source {} s with
    | none => exact .pure none
    | some found =>
      obtain ⟨q, rest⟩ := found
      dsimp only
      cases q.storage with
      | none => exact .pure none
      | some storage =>
        refine (composed_body? _ _ _ _ _ _).bind fun found => ?_
        cases found with
        | none => exact .pure none
        | some d => exact .pure _

theorem steady_parse? (source : Text) (stage : Stage) (s : Statement) :
    Steady (parse? source stage s) :=
  (composed_parse? source stage s).steady

def assemble (source : Text) (s : Statement) (first : Token) (q : Qualifiers)
    (storageRange : Nat × Nat) (found : Category × Descriptor) : Declaration :=
  { start := first.start
    stop := (s.tokens[s.size]?.map Token.stop).getD (Text.byteLen source)
    descriptor := { found.2 with
      binding := q.layout.number? "binding"
      location := q.layout.number? "location"
      inputAttachment := q.layout.number? "input_attachment_index"
      memoryAccess := if found.1 = .buffer || found.1 = .image then some (q.access.getD .readWrite)
        else none }
    category := found.1
    layout := q.layout
    layoutRange := q.layoutRange
    storageRange := storageRange
    line := Text.lineOf source first.start }

theorem outcome_parse? (source : Text) (stage : Stage) {s : Statement} {first : Token}
    (head : s.tokens.head? = some first) : outcome (parse? source stage s) =
      match Qualifiers.read source {} s with
      | none => some none
      | some (q, rest) =>
        match q.storage with
        | none => some none
        | some (storage, range) =>
          (outcome (body? source stage q storage (Text.lineOf source first.start) rest)).map
            (Option.map (assemble source s first q range)) := by
  unfold parse?
  rw [head]
  dsimp only
  cases Qualifiers.read source {} s with
  | none => rfl
  | some found =>
    obtain ⟨q, rest⟩ := found
    dsimp only
    cases q.storage with
    | none => rfl
    | some storage =>
      dsimp only
      rw [outcome_bind (composed_body? _ _ _ _ _ _).steady]
      · cases outcome (body? source stage q storage.1 (Text.lineOf source first.start) rest) with
        | none => rfl
        | some found => cases found <;> rfl
      · intro found
        cases found with
        | none => exact steady_pure _
        | some found => exact steady_pure _

theorem composed_extractFrom (source : Text) (stage : Stage) (functions : List FunctionDef)
    (stack : Condition.Stack) (tags : List (String × String)) (tokens : List Token) :
    Composed reads redirects Code.alwaysFatal
      (extractFrom source stage functions stack tags tokens) := by
  fun_induction extractFrom source stage functions stack tags tokens with
  | case1 => exact .pure []
  | case2 stack tags t ts f _ ih => exact ih
  | case3 stack tags t ts _ _ tags' ih => exact ih
  | case4 stack tags t ts _ _ _ n later ih =>
    refine (composed_parse? _ _ _).bind fun found => ?_
    cases found with
    | none => exact ih
    | some d => exact later.bind fun _ => .pure _
  | case5 stack tags t ts _ _ _ ih => exact ih

theorem steady_extractFrom (source : Text) (stage : Stage) (functions : List FunctionDef)
    (stack : Condition.Stack) (tags : List (String × String)) (tokens : List Token) :
    Steady (extractFrom source stage functions stack tags tokens) :=
  (composed_extractFrom source stage functions stack tags tokens).steady

def retag (t : Token) (tags : List (String × String)) : List (String × String) :=
  match builtinTag? t.lexeme with
  | some tag => Table.insert "builtin" tag tags
  | none => tags

def under (stack : Condition.Stack) (tags : List (String × String)) (d : Declaration) : Declaration :=
  { d with descriptor := { d.descriptor with defines := stack.identifiers, tags := tags } }

def statementAt (t : Token) (ts : List Token) : Statement :=
  ⟨t :: ts, statementLength ts + 1⟩

section Run

variable (source : Text) (stage : Stage) (functions : List FunctionDef)

inductive Passes (stack : Condition.Stack) (tags : List (String × String)) (t : Token)
    (ts : List Token) : Condition.Stack → List (String × String) → List Token → Prop
  | function {f : FunctionDef} (inside : functions.find? (·.contains t.start) = some f) :
    Passes stack tags t ts stack tags (ts.dropWhile fun t => t.start < f.stop)
  | directive (outside : functions.find? (·.contains t.start) = none)
    (directive : t.isDirective = true) :
    Passes stack tags t ts (stack.update t.lexeme) (retag t tags) ts
  | other (outside : functions.find? (·.contains t.start) = none)
    (no_directive : t.isDirective = false) (no_identifier : t.isIdentifier = false) :
    Passes stack tags t ts stack tags ts
  | statement (outside : functions.find? (·.contains t.start) = none)
    (identifier : t.isIdentifier = true)
    (nothing : outcome (parse? source stage (statementAt t ts)) = some none) :
    Passes stack tags t ts stack tags (afterStatement (statementLength ts) ts)

/-- Extraction that succeeds, step by step, where the statements of the declarations satisfy `P`. -/
inductive Run (P : Statement → Prop) : Condition.Stack → List (String × String) → List Token → List Declaration → Prop
  | done (stack : Condition.Stack) (tags : List (String × String)) : Run P stack tags [] []
  | pass {stack stack' : Condition.Stack} {tags tags' : List (String × String)} {t : Token}
    {ts ts' : List Token} {ds : List Declaration}
    (step : Passes source stage functions stack tags t ts stack' tags' ts')
    (later : Run P stack' tags' ts' ds) : Run P stack tags (t :: ts) ds
  | declaration {stack : Condition.Stack} {tags : List (String × String)} {t : Token}
    {ts : List Token} {d : Declaration} {ds : List Declaration}
    (outside : functions.find? (·.contains t.start) = none) (identifier : t.isIdentifier = true)
    (found : outcome (parse? source stage (statementAt t ts)) = some (some d))
    (holds : P (statementAt t ts))
    (later : Run P stack [] (afterStatement (statementLength ts) ts) ds) :
    Run P stack tags (t :: ts) (under stack tags d :: ds)

variable {source stage functions}

theorem isDirective_of_isIdentifier {t : Token} (identifier : t.isIdentifier = true) :
    t.isDirective = false := by
  have kind := of_decide_eq_true identifier
  simp [Token.isDirective, kind]

theorem run_of_outcome {stack : Condition.Stack} {tags : List (String × String)} {ts : List Token}
    {ds : List Declaration}
    (h : outcome (extractFrom source stage functions stack tags ts) = some ds) :
    Run source stage functions (fun _ => True) stack tags ts ds := by
  fun_induction extractFrom source stage functions stack tags ts generalizing ds with
  | case1 =>
    obtain rfl := Option.some.inj h
    exact .done _ _
  | case2 stack tags t ts f inside ih => exact .pass (.function inside) (ih h)
  | case3 =>
    rename_i stack tags t ts outside directive tags' ih
    exact .pass (.directive outside directive) (ih h)
  | case4 =>
    rename_i stack tags t ts outside directive identifier n later ih
    rw [outcome_bind (steady_parse? _ _ _)] at h
    · obtain ⟨found, parsed, rest⟩ := Option.bind_eq_some_iff.1 h
      cases found with
      | none => exact .pass (.statement outside identifier parsed) (ih rest)
      | some d =>
        dsimp only at rest
        rw [outcome_bind (steady_extractFrom _ _ _ _ _ _) fun _ => steady_pure _] at rest
        obtain ⟨ds', run, made⟩ := Option.bind_eq_some_iff.1 rest
        obtain rfl := Option.some.inj made
        exact .declaration outside identifier parsed trivial (later run)
    · intro found
      cases found with
      | none => exact steady_extractFrom _ _ _ _ _ _
      | some d => exact (steady_extractFrom _ _ _ _ _ _).bind fun _ => steady_pure _
  | case5 stack tags t ts outside directive identifier ih =>
    exact .pass (.other outside (by simpa using directive) (by simpa using identifier)) (ih h)

theorem outcome_extractFrom_statement (stack : Condition.Stack) (tags : List (String × String))
    {t : Token} {ts : List Token} (outside : functions.find? (·.contains t.start) = none)
    (identifier : t.isIdentifier = true) :
    outcome (extractFrom source stage functions stack tags (t :: ts)) =
      (outcome (parse? source stage (statementAt t ts))).bind fun
        | some d => (outcome (extractFrom source stage functions stack []
            (afterStatement (statementLength ts) ts))).map (under stack tags d :: ·)
        | none => outcome (extractFrom source stage functions stack tags
            (afterStatement (statementLength ts) ts)) := by
  rw [extractFrom, outside, if_neg (by simp [isDirective_of_isIdentifier identifier]),
    if_pos identifier]
  dsimp only
  rw [outcome_bind (steady_parse? _ _ _), statementAt]
  · congr 1
    funext found
    cases found with
    | none => rfl
    | some d =>
      dsimp only
      rw [outcome_bind (steady_extractFrom _ _ _ _ _ _) fun _ => steady_pure _]
      cases outcome (extractFrom source stage functions stack []
        (afterStatement (statementLength ts) ts)) <;> rfl
  · intro found
    cases found with
    | none => exact steady_extractFrom _ _ _ _ _ _
    | some d => exact (steady_extractFrom _ _ _ _ _ _).bind fun _ => steady_pure _

theorem Run.outcome {stack : Condition.Stack} {tags : List (String × String)} {ts : List Token}
    {ds : List Declaration} {P : Statement → Prop} (h : Run source stage functions P stack tags ts ds) :
    Compile.outcome (extractFrom source stage functions stack tags ts) = some ds := by
  induction h with
  | done => rw [extractFrom]; rfl
  | @pass stack stack' tags tags' t ts ts' ds step later ih =>
    cases step with
    | function inside =>
      rw [extractFrom, inside]
      exact ih
    | directive outside directive =>
      rw [extractFrom, outside, if_pos directive]
      exact ih
    | other outside no_directive no_identifier =>
      rw [extractFrom, outside, if_neg (by simp [no_directive]), if_neg (by simp [no_identifier])]
      exact ih
    | statement outside identifier nothing =>
      rw [outcome_extractFrom_statement stack tags outside identifier, nothing]
      exact ih
  | @declaration stack tags t ts d ds outside identifier found _ later ih =>
    rw [outcome_extractFrom_statement stack tags outside identifier, found, Option.bind_some, ih]
    rfl

end Run

end Declaration
end ShaderPass
