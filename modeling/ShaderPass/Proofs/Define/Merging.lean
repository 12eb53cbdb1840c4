import ShaderPass.Proofs.Define.Dependency

/-! The types of defines, within a text and over several. In a text a declared type stands whatever the
conditions infer, but where the defines of several texts are merged the first type that is not boolean
stays, declared or not. -/
namespace ShaderPass.Define

open Text

def typeOf? (defines : List Define) (name : String) : Option DefineType :=
  (defines.find? fun d => d.name = name).map Define.type

def raise : Option DefineType → DefineType → DefineType
  | none, type | some .boolean, type => type
  | some type, _ => type

def join (first second : Option DefineType) : Option DefineType :=
  match second with
  | some type => some (raise first type)
  | none => first

section Lines

def testedType? (name : String) (line : Text) : Option DefineType :=
  match Directive.parse? line with
  | some (directive, condition) =>
    if directive ∈ conditionalNames ∧ name ∈ Condition.identifiers condition then
      some (inferredType condition name)
    else none
  | none => none

def declaration? (args : Text) : Option (String × List (String × Option Text)) :=
  let (name, rest) := spanIdent args
  if name.isEmpty then none else some (String.ofList name, properties rest)

def declared? (line : Text) : Option (String × List (String × Option Text)) :=
  match Directive.pragma? line with
  | some ("define-meta", args) => declaration? args
  | _ => none

def propertyType? : String × Option Text → Option DefineType
  | ("range", some _) => some .number
  | ("options", some _) => some .string
  | ("constant", none) => some .constant
  | _ => none

/-- The type that a line declares a define to have: the last one among its properties. -/
def declaredType? (name : String) (line : Text) : Option DefineType :=
  (declared? line).bind fun declaration =>
    if declaration.1 = name then (declaration.2.filterMap propertyType?).getLast? else none

def mentions (name : String) (line : Text) : Bool :=
  (testedType? name line).isSome || (declared? line).any fun declaration => declaration.1 = name

/-- The type that some lines settle for a define: the last one declared, or number where a condition
compares it with one. -/
def settled? (name : String) (lines : List Text) : Option DefineType :=
  (lines.filterMap (declaredType? name)).getLast?.or
    (if lines.any (fun line => testedType? name line = some .number) then some .number else none)

def settledType? (t : Text) (name : String) : Option DefineType :=
  settled? name (Text.lines t)

end Lines

section Scan

variable {name : String}

theorem typeOf?_cons (d : Define) (defines : List Define) :
    typeOf? (d :: defines) name = if d.name = name then some d.type else typeOf? defines name := by
  by_cases same : d.name = name <;> simp [typeOf?, same]

theorem typeOf?_upsert (type : Option DefineType → DefineType) {key : String} {change : Define → Define}
    {fresh : Define} (kept : ∀ d, (change d).name = d.name) (made : fresh.name = key)
    (changed : ∀ d, (change d).type = type (some d.type)) (new : fresh.type = type none)
    (defines : List Define) :
    typeOf? (Table.upsert (fun d => d.name = key) change fresh defines) name =
      if key = name then some (type (typeOf? defines name)) else typeOf? defines name := by
  induction defines with
  | nil =>
    rw [Table.upsert, typeOf?_cons, made, new]
    rfl
  | cons d ds ih =>
    rw [Table.upsert, typeOf?_cons]
    by_cases here : d.name = key
    · subst here
      rw [if_pos (by simp), typeOf?_cons, kept, changed]
      split <;> rfl
    · rw [if_neg (by simpa using here), typeOf?_cons, ih]
      by_cases same : d.name = name
      · have other : key ≠ name := fun h => here (same.trans h.symm)
        rw [if_pos same, if_neg other, if_pos same]
      · rw [if_neg same, if_neg same]

theorem typeOf?_noteUse (enclosing : List String) (condition : Text) (defines : List Define)
    (used : String) : typeOf? (noteUse enclosing condition defines used) name =
      if used = name then some (raise (typeOf? defines name) (inferredType condition name))
      else typeOf? defines name := by
  have kept : ∀ d : Define, (if inferredType condition used = .number && d.type = .boolean then
      { d with type := DefineType.number } else d).name = d.name := by
    intro d
    split <;> rfl
  have changed : ∀ d : Define, (if inferredType condition used = .number && d.type = .boolean then
      { d with type := DefineType.number } else d).type = raise (some d.type) (inferredType condition used) := by
    intro d
    have range : inferredType condition used = .number ∨ inferredType condition used = .boolean := by
      unfold inferredType
      split
      · exact .inl rfl
      · exact .inr rfl
    rcases range with number | boolean
    · cases type : d.type <;> simp [number, type, raise]
    · cases type : d.type <;> simp [boolean, type, raise]
  unfold noteUse
  refine (typeOf?_upsert (raise · (inferredType condition used)) kept ?_ changed ?_ defines).trans ?_
  · rfl
  · rfl
  split
  · rename_i same
    rw [same]
  · rfl

theorem raise_raise (first : Option DefineType) (type : DefineType) :
    raise (some (raise first type)) type = raise first type := by
  rcases first with - | (_ | _ | _ | _) <;> cases type <;> rfl

theorem typeOf?_noteLine (stack : Condition.Stack) (defines : List Define) (line : Text) :
    typeOf? (noteLine stack defines line) name = join (typeOf? defines name) (testedType? name line) := by
  have uses (enclosing : List String) (condition : Text) (tests : List String) (defines : List Define) :
      typeOf? (tests.foldl (noteUse enclosing condition) defines) name =
        if name ∈ tests then some (raise (typeOf? defines name) (inferredType condition name))
        else typeOf? defines name := by
    induction tests generalizing defines with
    | nil => rfl
    | cons used tests ih =>
      rw [List.foldl_cons, ih, typeOf?_noteUse]
      by_cases same : used = name
      · subst same
        rw [if_pos rfl, if_pos List.mem_cons_self, raise_raise, ite_self]
      · have : name ∈ used :: tests ↔ name ∈ tests := by simp [Ne.symm same]
        simp only [if_neg same, this]
  unfold noteLine testedType?
  cases Directive.parse? line with
  | none => rfl
  | some parsed =>
    obtain ⟨directive, condition⟩ := parsed
    dsimp only
    by_cases conditional : directive ∈ conditionalNames
    · rw [if_pos conditional, uses]
      by_cases named : name ∈ Condition.identifiers condition
      · rw [if_pos named, if_pos ⟨conditional, named⟩]
        rfl
      · rw [if_neg named, if_neg fun h => named h.2]
        rfl
    · rw [if_neg conditional, if_neg fun h => conditional h.1]
      rfl

theorem setProperty_type (d : Define) (property : String × Option Text) :
    (setProperty d property).type = (propertyType? property).getD d.type := by
  unfold setProperty propertyType?
  grind

theorem foldl_setProperty_type (properties : List (String × Option Text)) (d : Define) :
    (properties.foldl setProperty d).type = ((properties.filterMap propertyType?).getLast?).getD d.type := by
  induction properties using List.reverseRecOn with
  | nil => rfl
  | append_singleton properties property ih =>
    rw [List.foldl_append, List.foldl_cons, List.foldl_nil, setProperty_type, ih, List.filterMap_append]
    cases type : propertyType? property <;> simp [type]

def declare (defines : List Define) : Option (String × List (String × Option Text)) → List Define
  | some (key, properties) =>
    Table.upsert (fun d => d.name = key) (fun d => properties.foldl setProperty d)
      (properties.foldl setProperty { name := key, type := .boolean }) defines
  | none => defines

theorem applyMeta_eq (defines : List Define) (args : Text) :
    applyMeta defines args = declare defines (declaration? args) := by
  unfold applyMeta declaration?
  dsimp only
  split <;> rfl

theorem scanLine_fst (defines : List Define) (stack : Condition.Stack) (line : Text) :
    (scanLine (defines, stack) line).1 = declare (noteLine stack defines line) (declared? line) := by
  unfold scanLine declared?
  rcases Directive.pragma? line with - | ⟨name, args⟩
  · rfl
  · by_cases declares : name = "define-meta"
    · subst declares
      exact applyMeta_eq _ _
    · simp [declares, declare]

theorem typeOf?_scanLine (defines : List Define) (stack : Condition.Stack) (line : Text) :
    typeOf? (scanLine (defines, stack) line).1 name =
      if (declared? line).any fun declaration => declaration.1 = name then
        some ((declaredType? name line).getD
          ((join (typeOf? defines name) (testedType? name line)).getD .boolean))
      else join (typeOf? defines name) (testedType? name line) := by
  rw [scanLine_fst, ← typeOf?_noteLine stack]
  unfold declaredType?
  cases declared? line with
  | none => rfl
  | some declaration =>
    obtain ⟨key, properties⟩ := declaration
    refine (typeOf?_upsert (fun before => (properties.filterMap propertyType?).getLast?.getD
      (before.getD .boolean)) (foldl_setProperty_name properties) ?_ ?_ ?_ _).trans ?_
    · exact foldl_setProperty_name properties _
    · exact foldl_setProperty_type properties
    · exact foldl_setProperty_type properties _
    · by_cases same : key = name <;> simp [same]

def lineType? (name : String) (lines : List Text) : Option DefineType :=
  (settled? name lines).or (if lines.any (mentions name) then some .boolean else none)

theorem propertyType?_ne_boolean (property : String × Option Text) : propertyType? property ≠ some .boolean := by
  unfold propertyType?
  split <;> nofun

theorem declaredType?_ne_boolean (name : String) (line : Text) : declaredType? name line ≠ some .boolean := by
  intro h
  obtain ⟨⟨key, properties⟩, -, declares⟩ := Option.bind_eq_some_iff.1 h
  dsimp only at declares
  split at declares
  · obtain ⟨property, -, type⟩ := List.mem_filterMap.1 (List.mem_of_getLast? declares)
    exact propertyType?_ne_boolean property type
  · cases declares

theorem settled?_ne_boolean (name : String) (lines : List Text) : settled? name lines ≠ some .boolean := by
  intro h
  rcases Option.or_eq_some_iff.1 h with last | ⟨-, number⟩
  · obtain ⟨line, -, declares⟩ := List.mem_filterMap.1 (List.mem_of_getLast? last)
    exact declaredType?_ne_boolean name line declares
  · split at number
    · cases number
    · cases number

theorem settled?_concat (name : String) (lines : List Text) (line : Text) :
    settled? name (lines ++ [line]) = (declaredType? name line).or
      ((settled? name lines).or (if testedType? name line = some .number then some .number else none)) := by
  unfold settled?
  rw [List.filterMap_append, List.getLast?_append, List.any_append]
  have last : ([line].filterMap (declaredType? name)).getLast? = declaredType? name line := by
    cases type : declaredType? name line <;> simp [type]
  rw [last, Option.or_assoc, Option.or_assoc]
  cases (lines.filterMap (declaredType? name)).getLast? with
  | some type => rfl
  | none =>
    by_cases before : lines.any (fun line => testedType? name line = some .number) = true
    · simp [before]
    · simp [before]

theorem testedType?_cases (name : String) (line : Text) : testedType? name line = none ∨
    testedType? name line = some .number ∨ testedType? name line = some .boolean := by
  unfold testedType? inferredType
  grind

theorem lineType?_concat (name : String) (lines : List Text) (line : Text) :
    lineType? name (lines ++ [line]) =
      if (declared? line).any fun declaration => declaration.1 = name then
        some ((declaredType? name line).getD
          ((join (lineType? name lines) (testedType? name line)).getD .boolean))
      else join (lineType? name lines) (testedType? name line) := by
  have no_boolean := settled?_ne_boolean name lines
  have undeclared : (declared? line).any (fun declaration => declaration.1 = name) = false →
      declaredType? name line = none := by
    unfold declaredType?
    cases declared? line with
    | none => exact fun _ => rfl
    | some declaration =>
      intro other
      exact if_neg (by simpa using other)
  unfold lineType?
  rw [settled?_concat, List.any_append, List.any_cons, List.any_nil, mentions]
  generalize (declared? line).any (fun declaration => decide (declaration.1 = name)) = declares at *
  generalize lines.any (mentions name) = mentioned
  generalize settled? name lines = settled at *
  rcases testedType?_cases name line with tested | tested | tested <;> rw [tested] <;>
    cases declares <;> rcases settled with - | (_ | _ | _ | _) <;> cases mentioned <;>
    simp_all [join, raise]

theorem typeOf?_scan (t : Text) (name : String) : typeOf? (scan t) name = lineType? name (Text.lines t) := by
  unfold scan
  -- The scan folds from the left, so the last line is the one to take off.
  induction Text.lines t using List.reverseRecOn with
  | nil => rfl
  | append_singleton lines line ih =>
    rw [List.foldl_append, List.foldl_cons, List.foldl_nil, lineType?_concat, ← ih]
    exact typeOf?_scanLine _ _ _

end Scan

section Merge

variable {name : String}

theorem typeOf?_merge {defines : List Define} (distinct : (names defines).Nodup) (target : List Define) :
    typeOf? (merge target defines) name = join (typeOf? target name) (typeOf? defines name) := by
  induction defines generalizing target with
  | nil => rfl
  | cons d ds ih =>
    obtain ⟨new, distinct⟩ := List.nodup_cons.1 distinct
    have step : typeOf? (Table.upsert (fun e => e.name = d.name) (fun e => mergeInto e d) d target) name =
        if d.name = name then some (raise (typeOf? target name) d.type) else typeOf? target name := by
      refine typeOf?_upsert (raise · d.type) ?_ ?_ ?_ ?_ target
      · exact fun e => rfl
      · rfl
      · intro e
        cases type : e.type <;> simp [mergeInto, type, raise]
      · rfl
    rw [merge, List.foldl_cons]
    refine (ih distinct _).trans ?_
    rw [step, typeOf?_cons]
    by_cases same : d.name = name
    · have absent : typeOf? ds name = none := by
        rw [typeOf?, Option.map_eq_none_iff, List.find?_eq_none]
        rintro e member
        have := fun h => new (List.mem_map.2 ⟨e, member, h⟩)
        simpa [same] using this
      rw [if_pos same, if_pos same, absent]
      rfl
    · rw [if_neg same, if_neg same]

def mergeAll (texts : List Text) : List Define :=
  texts.foldl (fun defines t => merge defines (scan t)) []

def Mentioned (t : Text) (name : String) : Prop :=
  ∃ line ∈ Text.lines t, mentions name line = true

theorem mentioned_of_settledType? {t : Text} {type : DefineType} (settled : settledType? t name = some type) :
    Mentioned t name := by
  rcases Option.or_eq_some_iff.1 settled with last | ⟨-, number⟩
  · obtain ⟨line, member, declares⟩ := List.mem_filterMap.1 (List.mem_of_getLast? last)
    obtain ⟨declaration, declared, named⟩ := Option.bind_eq_some_iff.1 declares
    refine ⟨line, member, ?_⟩
    have : declaration.1 = name := by
      by_contra other
      rw [if_neg other] at named
      cases named
    simp [mentions, declared, this]
  · split at number
    · rename_i compared
      obtain ⟨line, member, tested⟩ := List.any_eq_true.1 compared
      refine ⟨line, member, ?_⟩
      simp [mentions, of_decide_eq_true tested]
    · cases number

/-- The type of a merged define: the first that a text settles, or boolean if texts only mention it. -/
theorem typeOf?_mergeAll (texts : List Text) (name : String) : typeOf? (mergeAll texts) name =
    (texts.findSome? (settledType? · name)).or
      (if texts.any (fun t => (Text.lines t).any (mentions name)) then some .boolean else none) := by
  induction texts using List.reverseRecOn with
  | nil => rfl
  | append_singleton texts t ih =>
    rw [mergeAll] at ih
    rw [mergeAll, List.foldl_append, List.foldl_cons, List.foldl_nil, typeOf?_merge (ordered_scan t).nodup,
      ih, typeOf?_scan, lineType?, List.findSome?_append, List.any_append, List.findSome?_singleton]
    have no_boolean : texts.findSome? (settledType? · name) ≠ some .boolean := by
      intro h
      obtain ⟨t, -, settled⟩ := List.exists_of_findSome?_eq_some h
      exact settled?_ne_boolean name _ settled
    have unsettled := settled?_ne_boolean name (Text.lines t)
    rw [settledType?]
    generalize texts.findSome? (settledType? · name) = before at *
    generalize settled? name (Text.lines t) = settled at *
    cases here : (Text.lines t).any (mentions name) <;>
      cases (texts.any fun t => (Text.lines t).any (mentions name)) <;>
      rcases before with - | (_ | _ | _ | _) <;> rcases settled with - | (_ | _ | _ | _) <;>
      simp_all [join, raise]

theorem typeOf?_eq_some_iff {defines : List Define} (distinct : (names defines).Nodup) {type : DefineType} :
    typeOf? defines name = some type ↔ ∃ d ∈ defines, d.name = name ∧ d.type = type := by
  induction defines with
  | nil => simp [typeOf?]
  | cons d ds ih =>
    obtain ⟨new, distinct⟩ := List.nodup_cons.1 distinct
    rw [typeOf?_cons, List.exists_mem_cons_iff]
    by_cases same : d.name = name
    · have absent : ¬ ∃ e ∈ ds, e.name = name ∧ e.type = type := by
        rintro ⟨e, member, other, -⟩
        exact new (List.mem_map.2 ⟨e, member, other.trans same.symm⟩)
      simp [same, absent]
    · simp [same, ih distinct]

theorem mem_names_filter_iff {texts : List Text} :
    name ∈ names ((mergeAll texts).filter fun d => d.type ≠ .constant) ↔
      (∃ t ∈ texts, Mentioned t name) ∧ texts.findSome? (settledType? · name) ≠ some .constant := by
  have ordered : Ordered [] (mergeAll texts) := ordered_foldl_merge texts trivial
  have listed : name ∈ names ((mergeAll texts).filter fun d => d.type ≠ .constant) ↔
      ∃ type, typeOf? (mergeAll texts) name = some type ∧ type ≠ .constant := by
    simp only [typeOf?_eq_some_iff ordered.nodup, names, List.mem_map, List.mem_filter, decide_eq_true_eq]
    grind
  have mentioned : (∃ t ∈ texts, Mentioned t name) ↔
      texts.any (fun t => (Text.lines t).any (mentions name)) = true := by
    simp only [Mentioned, List.any_eq_true]
  rw [listed, typeOf?_mergeAll, mentioned]
  cases first : texts.findSome? (settledType? · name) with
  | none => simp
  | some type =>
    obtain ⟨t, member, settled⟩ := List.exists_of_findSome?_eq_some first
    have := mentioned.1 ⟨t, member, mentioned_of_settledType? settled⟩
    simp [this]

theorem typeOf?_merge_comm_iff (a b : Text) (name : String) :
    typeOf? (mergeAll [a, b]) name = typeOf? (mergeAll [b, a]) name ↔
      ∀ first ∈ settledType? a name, ∀ second ∈ settledType? b name, first = second := by
  rw [typeOf?_mergeAll, typeOf?_mergeAll]
  simp only [List.findSome?_cons, List.findSome?_nil, List.any_cons, List.any_nil, Bool.or_false]
  rw [Bool.or_comm]
  cases settledType? a name <;> cases settledType? b name <;> simp

end Merge

end ShaderPass.Define
