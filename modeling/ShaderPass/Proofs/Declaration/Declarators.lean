import ShaderPass.Proofs.Declaration.Reaching

/-! What statements of the shading language declare first: a variable behind qualifiers and a type, or
a member of a uniform block. Extraction reports it. -/
namespace ShaderPass.Declaration

open Token ShaderPass.Bracket Statement Compile

def IsInner (t : Token) : Prop :=
  t.isDirective = false ∧ t.isPunct ';' = false ∧ t.isPunct '\x7b' = false

/-- Qualifiers, with the storage that the last storage qualifier among them gives. -/
inductive Qualifying : Option Storage → List Token → Prop
  | nil : Qualifying none []
  | word {storage : Option Storage} {k : Token} {ts : List Token} (identifier : k.isIdentifier = true)
    (listed : k.name ∈ qualifierWords) (later : Qualifying storage ts) :
    Qualifying (storage <|> Storage.ofName? k.name) (k :: ts)
  | list {storage : Option Storage} {x y close : Token} {inner ts : List Token}
    (identifier : x.isIdentifier = true) (named : x.name = "layout") (opens : y.isPunct '(' = true)
    (closed : closeOffset? (y :: (inner ++ [close])) = some (inner.length + 1))
    (belong : ∀ u ∈ inner, IsInner u) (later : Qualifying storage ts) :
    Qualifying storage (x :: y :: (inner ++ close :: ts))

structure StartsVariable (storage : Storage) (type name : Token) (statement : List Token) : Prop where
  shape : ∃ qualifiers later, statement = qualifiers ++ type :: name :: later ∧
    Qualifying (some storage) qualifiers
  type : type.isIdentifier = true ∧ type.name ∉ qualifierWords
  name : name.isIdentifier = true

structure StartsMember (type name : Token) (body : List Token) : Prop where
  shape : ∃ front words stop later, body = front ++ (words ++ type :: name :: stop :: later) ∧
    square.ClosedIn front ∧ (∀ last, front.getLast? = some last → last.isPunct ';' = true) ∧
    (∀ w ∈ words, w.isIdentifier = true) ∧ (stop.isPunct ';' = true ∨ stop.isPunct '[' = true)
  type : type.isIdentifier = true ∧ type.name ∉ precisions
  name : name.isIdentifier = true ∧ name.name ∉ precisions

structure HoldsMember (type name : Token) (statement : List Token) : Prop where
  shape : ∃ qualifiers block opening body close later,
    statement = qualifiers ++ block :: opening :: (body ++ close :: later) ∧
    Qualifying (some .uniform) qualifiers ∧ block.isIdentifier = true ∧ block.name ∉ qualifierWords ∧
    opening.isPunct '\x7b' = true ∧
    closeOffset? (opening :: (body ++ close :: later)) = some (body.length + 1) ∧
    StartsMember type name body

section Inner

theorem isInner_of_isIdentifier {t : Token} (identifier : t.isIdentifier = true) : IsInner t := by
  have kind := of_decide_eq_true identifier
  exact ⟨isDirective_of_isIdentifier identifier, by simp [isPunct, kind], by simp [isPunct, kind]⟩

theorem isInner_of_isPunct {t : Token} {c : Char} (punct : t.isPunct c = true) (no_end : c ≠ ';')
    (no_block : c ≠ '\x7b') : IsInner t := by
  rw [isPunct, Bool.and_eq_true, decide_eq_true_eq, decide_eq_true_eq] at punct
  refine ⟨by simp [isDirective, punct.1], ?_, ?_⟩
  · simp [isPunct, punct.2, no_end]
  · simp [isPunct, punct.2, no_block]

theorem Qualifying.isInner {storage : Option Storage} {ts : List Token} (h : Qualifying storage ts) :
    ∀ t ∈ ts, IsInner t := by
  induction h with
  | nil => exact fun t member => absurd member List.not_mem_nil
  | word identifier _ _ ih =>
    intro t member
    rcases List.mem_cons.1 member with rfl | member
    · exact isInner_of_isIdentifier identifier
    · exact ih t member
  | @list storage x y close inner ts identifier _ opens closed belong _ ih =>
    have closes := isPunct_of_closeOffset? opens closed
    intro t member
    simp only [List.mem_cons, List.mem_append] at member
    rcases member with rfl | rfl | member | rfl | member
    · exact isInner_of_isIdentifier identifier
    · exact isInner_of_isPunct opens (by decide) (by decide)
    · exact belong t member
    · exact isInner_of_isPunct closes (by decide) (by decide)
    · exact ih t member

theorem statementAt_eq {front later behind : List Token} {first : Token}
    (belong : ∀ t ∈ front, IsInner t) (some_token : front ≠ [])
    (cut : first :: behind = front ++ later) :
    statementAt first behind = ⟨front ++ later, front.length + statementLength later⟩ := by
  obtain ⟨k, front, rfl⟩ := List.exists_cons_of_ne_nil some_token
  obtain ⟨rfl, rfl⟩ := List.cons.inj cut
  have rest := statementLength_append_of_flat
    (fun u hu => belong u (List.mem_cons_of_mem first hu)) later
  rw [statementAt, List.length_cons, Nat.add_right_comm, ← rest]
  rfl

end Inner

section Qualifiers

variable {source : Text} {q : Qualifiers}

theorem note?_eq_none {k : Token} (other : k.name ∉ qualifierWords) : q.note? k = none := by
  cases noted : q.note? k with
  | none => rfl
  | some q' => exact absurd (mem_qualifierWords noted) other

theorem exists_note? {k : Token} (listed : k.name ∈ qualifierWords) :
    ∃ q', q.note? k = some q' ∧
      q'.storage.map Prod.fst = (Storage.ofName? k.name <|> q.storage.map Prod.fst) ∧
      (q'.precision = q.precision ∨ ∃ p ∈ precisions, q'.precision = some p) := by
  unfold Qualifiers.note?
  cases storage : Storage.ofName? k.name with
  | some s => exact ⟨_, rfl, rfl, Or.inl rfl⟩
  | none =>
    dsimp only
    split
    · exact ⟨_, rfl, rfl, Or.inl rfl⟩
    · split
      · exact ⟨_, rfl, rfl, Or.inl rfl⟩
      · split
        · rename_i precise
          exact ⟨_, rfl, rfl, Or.inr ⟨_, precise, rfl⟩⟩
        · split
          · exact ⟨_, rfl, rfl, Or.inl rfl⟩
          · rename_i no_reading no_writing imprecise recorded
            exfalso
            simp only [qualifierWords, List.mem_append, List.mem_cons, List.not_mem_nil, or_false] at listed
            rcases listed with ((named | named | named | named | named | named) | named) | named
            any_goals
              rw [named] at storage
              cases storage
            · exact no_reading named
            · exact no_writing named
            · exact imprecise named
            · exact recorded named

theorem startsList_cons_of_ne {k : Token} (other : k.name ≠ "layout") (ts : List Token) (m : Nat) :
    Qualifiers.startsList ⟨k :: ts, m + 1⟩ = false := by
  rw [Qualifiers.startsList_cons, decide_eq_false other, Bool.false_and]

theorem Qualifying.exists_read {storage : Option Storage} {ts : List Token}
    (h : Qualifying storage ts) (source : Text) (q : Qualifiers) (later : List Token) (m : Nat) :
    ∃ q', Qualifiers.read source q ⟨ts ++ later, ts.length + m⟩ =
        Qualifiers.read source q' ⟨later, m⟩ ∧
      q'.storage.map Prod.fst = (storage <|> q.storage.map Prod.fst) ∧
      (q'.precision = q.precision ∨ ∃ p ∈ precisions, q'.precision = some p) := by
  induction h generalizing q with
  | nil => exact ⟨q, by rw [List.nil_append, List.length_nil, Nat.zero_add], rfl, Or.inl rfl⟩
  | @word storage k ts _ listed _ ih =>
    obtain ⟨q₁, noted, storage₁, precision₁⟩ := exists_note? (q := q) listed
    obtain ⟨q₂, read, storage₂, precision₂⟩ := ih q₁
    have other : k.name ≠ "layout" := fun same => absurd (same ▸ listed) (by decide)
    refine ⟨q₂, ?_, ?_, ?_⟩
    · rw [List.length_cons, Nat.add_right_comm, List.cons_append,
        Qualifiers.read_of_word source rfl (startsList_cons_of_ne other _ _) noted]
      exact read
    · rw [storage₂, storage₁]
      cases storage <;> rfl
    · rcases precision₂ with same | precise
      · rw [same]
        exact precision₁
      · exact Or.inr precise
  | @list storage x y close inner ts _ named opens closed _ _ ih =>
    have isList : IsList source (x :: y :: (inner ++ [close])) _ _ :=
      ⟨x, y, inner, close, rfl, named, opens, closed, rfl, rfl⟩
    obtain ⟨q', read, rest⟩ := ih { q with
      layout := Layout.parse (Text.slice y.stop close.start source)
      layoutRange := some (x.start, close.stop) }
    refine ⟨q', ?_, rest⟩
    have tokens : x :: y :: (inner ++ close :: ts) ++ later =
        (x :: y :: (inner ++ [close])) ++ (ts ++ later) := by simp
    have size : (x :: y :: (inner ++ close :: ts)).length + m =
        (x :: y :: (inner ++ [close])).length + (ts.length + m) := by
      simp only [List.length_cons, List.length_append, List.length_nil]
      omega
    rw [tokens, size, isList.read, read]

theorem Qualifying.exists_read_of_other {storage : Storage} {ts : List Token}
    (h : Qualifying (some storage) ts) {k next : Token} (source : Text) (later : List Token) (m : Nat)
    (other : k.name ∉ qualifierWords) (no_list : next.isPunct '(' = false) :
    ∃ q range, Qualifiers.read source {} ⟨ts ++ k :: next :: later, ts.length + (m + 2)⟩ =
        some (q, ⟨k :: next :: later, m + 2⟩) ∧ q.storage = some (storage, range) ∧
      ∀ p ∈ q.precision, p ∈ precisions := by
  obtain ⟨q, read, storage', precision⟩ := h.exists_read source {} (k :: next :: later) (m + 2)
  obtain ⟨⟨_, range⟩, at_storage, rfl⟩ := Option.map_eq_some_iff.1 storage'
  refine ⟨q, range, ?_, at_storage, ?_⟩
  · rw [read]
    refine Qualifiers.read_of_other source rfl ?_ (note?_eq_none other)
    rw [Qualifiers.startsList_cons, Bool.and_eq_false_iff]
    exact Or.inr no_list
  · intro p precise
    rcases precision with none | ⟨p', member, precise'⟩
    · rw [none] at precise
      cases precise
    · rw [precise', Option.mem_some] at precise
      exact precise ▸ member

theorem Qualifying.single {storage : Storage} {k : Token} (identifier : k.isIdentifier = true)
    (listed : k.name ∈ qualifierWords) (stores : Storage.ofName? k.name = some storage) :
    Qualifying (some storage) [k] := by
  have h := Qualifying.word identifier listed .nil
  rw [stores] at h
  exact h

theorem Qualifying.ne_nil {storage : Storage} {ts : List Token} (h : Qualifying (some storage) ts) :
    ts ≠ [] := by
  generalize given : some storage = s at h
  cases h with
  | nil => cases given
  | word => exact List.cons_ne_nil _ _
  | list => exact List.cons_ne_nil _ _

theorem Qualifying.isIdentifier_of_cons {storage : Storage} {k : Token} {qualifiers later ts : List Token}
    (h : Qualifying (some storage) qualifiers) (cut : k :: ts = qualifiers ++ later) :
    k.isIdentifier = true := by
  generalize given : some storage = s at h
  cases h with
  | nil => cases given
  | word identifier =>
    obtain ⟨rfl, -⟩ := List.cons.inj cut
    exact identifier
  | list identifier =>
    obtain ⟨rfl, -⟩ := List.cons.inj cut
    exact identifier

end Qualifiers

section Reading

variable {source : Text} {stage : Stage} {storage : Storage} {type name first : Token}
  {behind : List Token}

theorem ident?_cons {k : Token} (identifier : k.isIdentifier = true) (ts : List Token) (m : Nat) :
    Statement.ident? ⟨k :: ts, m + 1⟩ = some k.name := by
  simp [ident?, Statement.head?, identifier]

theorem startsWith_cons (k : Token) (ts : List Token) (m : Nat) (c : Char) :
    Statement.startsWith ⟨k :: ts, m + 1⟩ c = k.isPunct c := by
  simp [startsWith, Statement.head?]

/-- The category of a variable outside blocks in a stage, if it has one there. -/
def stageCategory? : Storage → Stage → Option Category
  | .input, .vertex => some .vertexInput
  | .input, .fragment => some .varying
  | .output, .vertex => some .varying
  | .output, .fragment => some .fragColor
  | _, _ => none

theorem outcome_category?_of_stage {category : Category}
    (staged : stageCategory? storage stage = some category) (type name : String) (line : Nat) :
    outcome (category? storage type stage name line) = some (some category) := by
  unfold stageCategory? at staged
  split at staged
  all_goals first | cases staged; rfl | cases staged

theorem exists_body?_of_parse? {ts later : List Token} {k next : Token}
    (qualifying : Qualifying (some storage) ts) (cut : first :: behind = ts ++ k :: next :: later)
    (other : k.isIdentifier = true ∧ k.name ∉ qualifierWords) (inner : next.isPunct '(' = false)
    {m : Nat} (size : statementLength (next :: later) = m + 1) {found : Option Declaration}
    (parsed : outcome (parse? source stage (statementAt first behind)) = some found) :
    ∃ q line body make, outcome (body? source stage q storage line ⟨k :: next :: later, m + 2⟩) =
        some body ∧ found = body.map make ∧ (∀ p ∈ q.precision, p ∈ precisions) ∧
      ∀ b, (make b).start = first.start ∧ (make b).category = b.1 ∧
        (make b).descriptor.type = b.2.type ∧ (make b).descriptor.name = b.2.name ∧
        (make b).descriptor.precision = b.2.precision ∧ (make b).descriptor.members = b.2.members := by
  obtain ⟨q, range, read, at_storage, precise⟩ :=
    qualifying.exists_read_of_other source later m other.2 inner
  have length : statementLength (k :: next :: later) = m + 2 := by
    obtain ⟨directive, ends, block⟩ := isInner_of_isIdentifier other.1
    rw [statementLength_cons_of_other (by rw [directive, ends]; rfl) block, size]
  have statement := statementAt_eq qualifying.isInner qualifying.ne_nil cut
  rw [length] at statement
  rw [outcome_parse? source stage rfl, statement, read] at parsed
  dsimp only at parsed
  rw [at_storage] at parsed
  obtain ⟨body, made, rfl⟩ := Option.map_eq_some_iff.1 parsed
  exact ⟨q, _, body, _, made, rfl, precise, fun b => ⟨rfl, rfl, rfl, rfl, rfl, rfl⟩⟩

theorem StartsVariable.exists_of_parse? (h : StartsVariable storage type name (first :: behind))
    {category : Category} (staged : stageCategory? storage stage = some category)
    {found : Option Declaration}
    (parsed : outcome (parse? source stage (statementAt first behind)) = some found) :
    ∃ d, found = some d ∧ d.start = first.start ∧ d.category = category ∧
      d.descriptor.type = type.name ∧ d.descriptor.name = name.name ∧
      ∀ p ∈ d.descriptor.precision, p ∈ precisions := by
  obtain ⟨⟨qualifiers, later, cut, qualifying⟩, is_type, identifier⟩ := h
  have inner := isInner_of_isIdentifier identifier
  have kind := of_decide_eq_true identifier
  have size : statementLength (name :: later) = statementLength later + 1 :=
    statementLength_cons_of_other (by rw [inner.1, inner.2.1]; rfl) inner.2.2 later
  obtain ⟨q, line, body, make, read, rfl, precise, made⟩ :=
    exists_body?_of_parse? qualifying cut is_type (by simp [isPunct, kind]) size parsed
  have behind_type : Statement.drop ⟨type :: name :: later, statementLength later + 2⟩ 1 =
      ⟨name :: later, statementLength later + 1⟩ := rfl
  rw [outcome_body?_of_variable source stage q storage line (ident?_cons is_type.1 _ _)
    (by rw [behind_type, startsWith_cons]; exact inner.2.2), behind_type, ident?_cons identifier] at read
  dsimp only at read
  rw [outcome_category?_of_stage staged, Option.bind_some] at read
  obtain ⟨count, -, rfl⟩ := Option.map_eq_some_iff.1 read
  obtain ⟨start, same, type_eq, name_eq, precision, -⟩ := made (variableOf stage q.precision name.name
    type.name category count)
  exact ⟨_, rfl, start, same, type_eq, name_eq, precision ▸ precise⟩

end Reading

section Members

variable {source : Text} {unsized : Bool}

theorem outcome_members_cons (words : List String) (size : Nat) (k : Token) (ts : List Token) :
    outcome (members source unsized words (size + 1) (k :: ts)) =
      if k.isDirective then none
      else if k.isIdentifier then outcome (members source unsized (words ++ [k.name]) size ts)
      else if k.isPunct '[' then
        (outcome (arrayLength source unsized (k :: ts))).bind fun length =>
          (outcome (members source unsized [] (size - (closeOffset? (k :: ts)).getD size)
            (ts.drop ((closeOffset? (k :: ts)).getD size)))).map
              ((member? words length.1 length.2).toList ++ ·)
      else if k.isPunct ';' then
        (outcome (members source unsized [] size ts)).map ((member? words none 1).toList ++ ·)
      else outcome (members source unsized words size ts) := by
  rw [members]
  split
  · exact outcome_fatal _ _ _
  · split
    · rfl
    · split
      · rw [outcome_bind (steady_arrayLength _ _ _) fun _ =>
          (steady_members _ _ _ _ _).bind fun _ => steady_pure _]
        congr 1
        funext length
        rw [outcome_bind (steady_members _ _ _ _ _) fun _ => steady_pure _]
        cases outcome (members source unsized [] _ _) <;> rfl
      · split
        · rw [outcome_bind (steady_members _ _ _ _ _) fun _ => steady_pure _]
          cases outcome (members source unsized [] size ts) <;> rfl
        · rfl

theorem outcome_members_append_of_identifiers {front : List Token}
    (identifiers : ∀ k ∈ front, k.isIdentifier = true) (words : List String) (size : Nat)
    (later : List Token) :
    outcome (members source unsized words (front.length + size) (front ++ later)) =
      outcome (members source unsized (words ++ front.map Token.name) size later) := by
  induction front generalizing words with
  | nil => rw [List.length_nil, Nat.zero_add, List.nil_append, List.map_nil, List.append_nil]
  | cons k front ih =>
    have identifier := identifiers k List.mem_cons_self
    rw [List.length_cons, Nat.add_right_comm, List.cons_append, outcome_members_cons,
      if_neg (by simp [isDirective_of_isIdentifier identifier]), if_pos identifier,
      ih fun k hk => identifiers k (List.mem_cons_of_mem _ hk), List.append_assoc, List.map_cons,
      List.singleton_append]

theorem exists_members_behind {front : List Token} {last : Token} (closed : square.ClosedIn front)
    (at_last : front.getLast? = some last) (ends : last.isPunct ';' = true) {words : List String}
    {size : Nat} {later : List Token} {ms : List Member}
    (read : outcome (members source unsized words (front.length + size) (front ++ later)) = some ms) :
    ∃ ms', outcome (members source unsized [] size later) = some ms' ∧ ms' <:+ ms := by
  have kind : last.kind = .punct ∧ last.lexeme.head? = some ';' := by
    rwa [isPunct, Bool.and_eq_true, decide_eq_true_eq, decide_eq_true_eq] at ends
  induction len : front.length using Nat.strongRecOn generalizing front words ms with
  | ind n ih =>
    cases front with
    | nil => cases at_last
    | cons k front =>
      rw [List.length_cons] at len
      rw [List.length_cons, Nat.add_right_comm, List.cons_append, outcome_members_cons] at read
      have next {words : List String} {ms : List Member} (some_token : front ≠ [])
          (read : outcome (members source unsized words (front.length + size) (front ++ later)) =
            some ms) : ∃ ms', outcome (members source unsized [] size later) = some ms' ∧ ms' <:+ ms :=
        ih front.length (by omega) (closed.of_suffix (List.suffix_cons k front))
          (by rwa [List.getLast?_cons_of_ne_nil some_token] at at_last) read rfl
      have more (other : k.isPunct ';' = false) : front ≠ [] := by
        rintro rfl
        rw [List.getLast?_singleton, Option.some.injEq] at at_last
        rw [at_last, ends] at other
        cases other
      split at read
      · cases read
      · split at read
        · rename_i identifier
          exact next (more (isInner_of_isIdentifier identifier).2.1) read
        · split at read
          · rename_i opens
            obtain ⟨c, found, inside⟩ := closed.exists_closeOffset? (b := square) (by decide) opens
              at_last (by simp [isPunct, kind, square])
            have whole : closeOffset? (k :: (front ++ later)) = some c :=
              closeOffset?_append_of_some found later
            obtain ⟨length, -, read⟩ := Option.bind_eq_some_iff.1 read
            obtain ⟨ms₁, inner, rfl⟩ := Option.map_eq_some_iff.1 read
            rw [whole, Option.getD_some, List.drop_append_of_le_length (Nat.le_of_lt inside),
              Nat.sub_add_comm (Nat.le_of_lt inside), ← List.length_drop] at inner
            obtain ⟨ms', rest, part⟩ := ih (front.drop c).length (by rw [List.length_drop]; omega)
              (closed.of_suffix ((List.drop_suffix c front).trans (List.suffix_cons k front)))
              (by rw [List.getLast?_drop, if_neg (by omega), ← at_last]
                  exact (List.getLast?_cons_of_ne_nil (List.ne_nil_of_length_pos (by omega))).symm)
              inner rfl
            exact ⟨ms', rest, part.trans (List.suffix_append _ _)⟩
          · split at read
            · obtain ⟨ms₁, inner, rfl⟩ := Option.map_eq_some_iff.1 read
              by_cases some_token : front = []
              · subst some_token
                rw [List.length_nil, Nat.zero_add, List.nil_append] at inner
                exact ⟨ms₁, inner, List.suffix_append _ _⟩
              · obtain ⟨ms', rest, part⟩ := next some_token inner
                exact ⟨ms', rest, part.trans (List.suffix_append _ _)⟩
            · rename_i other
              exact next (more (by simpa using other)) read

theorem exists_member? (words : List String) {type name : String} (type_word : type ∉ precisions)
    (name_word : name ∉ precisions) (arraySize : Option String) (count : Nat) :
    ∃ m, member? (words ++ [type, name]) arraySize count = some m ∧ m.type = type ∧ m.name = name ∧
      ∀ p ∈ m.precision, p ∈ precisions := by
  have kept : ((words ++ [type, name]).filter (· ∉ precisions)).reverse =
      name :: type :: (words.filter (· ∉ precisions)).reverse := by
    simp [List.filter_append, type_word, name_word]
  refine ⟨_, by rw [member?, kept], rfl, rfl, fun p found => ?_⟩
  simpa using List.find?_some found

theorem StartsMember.exists_of_members {type name : Token} {body later : List Token}
    (h : StartsMember type name body) {ms : List Member}
    (read : outcome (members source unsized [] body.length (body ++ later)) = some ms) :
    ∃ m ∈ ms, m.type = type.name ∧ m.name = name.name ∧ ∀ p ∈ m.precision, p ∈ precisions := by
  obtain ⟨⟨front, words, stop, rest, rfl, closed, ended, identifiers, stops⟩, is_type, is_name⟩ := h
  have size : (front ++ (words ++ type :: name :: stop :: rest)).length =
      front.length + ((words ++ [type, name]).length + (rest.length + 1)) := by
    simp only [List.length_append, List.length_cons, List.length_nil]
    omega
  have regroup : front ++ (words ++ type :: name :: stop :: rest) ++ later =
      front ++ ((words ++ [type, name]) ++ stop :: (rest ++ later)) := by simp
  rw [size, regroup] at read
  obtain ⟨ms₁, read, part⟩ : ∃ ms₁, outcome (members source unsized []
      ((words ++ [type, name]).length + (rest.length + 1))
        ((words ++ [type, name]) ++ stop :: (rest ++ later))) = some ms₁ ∧ ms₁ <:+ ms := by
    cases at_last : front.getLast? with
    | none =>
      rw [List.getLast?_eq_none_iff] at at_last
      subst at_last
      rw [List.length_nil, Nat.zero_add, List.nil_append] at read
      exact ⟨ms, read, List.suffix_refl ms⟩
    | some last => exact exists_members_behind closed at_last (ended last at_last) read
  rw [outcome_members_append_of_identifiers, List.nil_append, List.map_append,
    outcome_members_cons] at read
  · have punct : stop.isDirective = false ∧ stop.isIdentifier = false := by
      rcases stops with punct | punct <;>
      · rw [isPunct, Bool.and_eq_true, decide_eq_true_eq] at punct
        simp [isDirective, isIdentifier, punct.1]
    have member (arraySize : Option String) (count : Nat) := exists_member? (words.map Token.name)
      is_type.2 is_name.2 arraySize count
    rw [if_neg (by simp [punct.1]), if_neg (by simp [punct.2])] at read
    split at read
    · obtain ⟨length, -, read⟩ := Option.bind_eq_some_iff.1 read
      obtain ⟨ms₂, -, rfl⟩ := Option.map_eq_some_iff.1 read
      obtain ⟨m, found, rest⟩ := member length.1 length.2
      refine ⟨m, part.mem (List.mem_append_left _ ?_), rest⟩
      rw [List.map_cons, List.map_singleton, found]
      exact List.mem_singleton_self m
    · rename_i no_array
      rw [if_pos (stops.resolve_right no_array)] at read
      obtain ⟨ms₂, -, rfl⟩ := Option.map_eq_some_iff.1 read
      obtain ⟨m, found, rest⟩ := member none 1
      refine ⟨m, part.mem (List.mem_append_left _ ?_), rest⟩
      rw [List.map_cons, List.map_singleton, found]
      exact List.mem_singleton_self m
  · intro k member
    simp only [List.mem_append, List.mem_cons, List.not_mem_nil, or_false] at member
    rcases member with member | rfl | rfl
    · exact identifiers k member
    · exact is_type.1
    · exact is_name.1

theorem HoldsMember.exists_of_parse? {type name first : Token} {behind : List Token}
    (h : HoldsMember type name (first :: behind)) {stage : Stage} {found : Option Declaration}
    (parsed : outcome (parse? source stage (statementAt first behind)) = some found) :
    ∃ d, found = some d ∧ d.start = first.start ∧ d.category = .block ∧
      ∃ m ∈ d.descriptor.members, m.type = type.name ∧ m.name = name.name ∧
        ∀ p ∈ m.precision, p ∈ precisions := by
  obtain ⟨qualifiers, block, opening, body, close, later, cut, qualifying, identifier, other, opens,
    closed, member⟩ := h.shape
  have kind : opening.kind = .punct ∧ opening.lexeme.head? = some '\x7b' := by
    rwa [isPunct, Bool.and_eq_true, decide_eq_true_eq, decide_eq_true_eq] at opens
  have size : statementLength (opening :: (body ++ close :: later)) = body.length + 1 +
      statementLength ((body ++ close :: later).drop (body.length + 1)) + 1 := by
    rw [statementLength_cons_of_block (by simp [isDirective, isPunct, kind]) opens closed]
    omega
  obtain ⟨q, line, body', make, read, rfl, -, made⟩ :=
    exists_body?_of_parse? qualifying cut ⟨identifier, other⟩ (by simp [isPunct, kind]) size parsed
  rw [outcome_body?_of_block source stage q .uniform line (ident?_cons identifier _ _)
    (by rw [← opens]; exact startsWith_cons _ _ _ _)] at read
  have behind_block : ∀ m, Statement.drop ⟨block :: opening :: (body ++ close :: later), m + 2⟩ 1 =
      ⟨opening :: (body ++ close :: later), m + 1⟩ := fun _ => rfl
  rw [behind_block] at read
  dsimp only [blockCategory?] at read
  rw [closed] at read
  obtain ⟨ms, members_read, read⟩ := Option.bind_eq_some_iff.1 read
  split at read
  · cases read
  · obtain rfl := Option.some.inj read
    obtain ⟨start, category, -, -, -, same⟩ := made (blockOf stage block.name .block ms)
    refine ⟨_, rfl, start, category, ?_⟩
    rw [same]
    exact member.exists_of_members members_read

end Members

end ShaderPass.Declaration
