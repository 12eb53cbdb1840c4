import ShaderPass.Proofs.Declaration.Qualifiers

/-! Statements that are alike make the same declaration, at another place. -/
namespace ShaderPass.Declaration

open Token ShaderPass.Bracket Compile Statement

section Body

variable {z z' : Nat} {source source' : Text} {s s' : Statement}

theorem outcome_members_of_block (h : s.Alike z z' source source' s') (closed : s.Closed)
    {t : Token} (head : s.head? = some t) (opens : t.isPunct brace.opening = true) {n : Nat}
    (inside : n < s.size) (found : closeOffset? s.tokens = some n) (allowUnsized : Bool) :
    outcome (members source' allowUnsized [] (n - 1) (s'.tokens.drop 1)) =
      outcome (members source allowUnsized [] (n - 1) (s.tokens.drop 1)) := by
  have le : n - 1 ≤ (s.drop 1).size := by
    show n - 1 ≤ s.size - 1
    omega
  have inner := (closed.of_first (by decide) head opens found).2
  exact outcome_members ((h.drop 1).shorten le) inner allowUnsized []

theorem outcome_arrayLength_alike (h : s.Alike z z' source source' s') (closed : s.Closed)
    (opens : s.startsWith '[' = true) (allowUnsized : Bool) :
    outcome (arrayLength source' allowUnsized s'.tokens) =
      outcome (arrayLength source allowUnsized s.tokens) := by
  obtain ⟨t, head, opens⟩ := exists_of_startsWith opens
  have hb : square ∈ all := by decide
  apply outcome_arrayLength_congr
  rcases h.closeOffset?_cases hb head opens with ⟨old, new⟩ | ⟨n, inside, old, new⟩ |
      ⟨n, n', outside, -, old, -⟩
  · rw [bracketed?_eq_none old, bracketed?_eq_none new]
  · obtain ⟨last, -, -, -, text, text'⟩ := h.bracketed?_of_lt hb head opens inside old new
    rw [text, text']
  · exact absurd (closed.of_first hb head opens old).1 (Nat.not_lt.2 outside)

theorem outcome_block_alike (h : s.Alike z z' source source' s') {q q' : Qualifiers} {stage : Stage}
    {storage : Storage} {line line' : Nat} {type : String} (named : s.ident? = some type)
    (block : (s.drop 1).startsWith '\x7b' = true)
    (closed : outcome (body? source stage q storage line s) ≠ some none → s.Closed) :
    outcome (body? source' stage q' storage line' s') =
      outcome (body? source stage q storage line s) := by
  have h1 := h.drop 1
  have block' := (h1.startsWith _).trans block
  rw [outcome_body?_of_block _ _ _ _ _ named block] at closed ⊢
  rw [outcome_body?_of_block _ _ _ _ _ (h.ident?.trans named) block']
  obtain ⟨t, head, opens⟩ := exists_of_startsWith block
  have hb : brace ∈ all := by decide
  cases kind : blockCategory? storage with
  | none => dsimp only
  | some category =>
    have made {n : Nat} (found : closeOffset? (s.drop 1).tokens = some n) : s.Closed := by
      apply closed
      rw [kind, found]
      intro nothing
      obtain ⟨ms, -, made⟩ := Option.bind_eq_some_iff.1 nothing
      split at made <;> cases made
    rcases h1.closeOffset?_cases hb head opens with ⟨old, new⟩ | ⟨n, inside, old, new⟩ |
        ⟨n, n', outside, -, old, -⟩
    · rw [old, new]
    · have closed1 := (made old).drop 1
      rw [old, new]
      dsimp only
      rw [outcome_members_of_block h1 closed1 head opens inside old]
    · exact absurd (((made old).drop 1).of_first hb head opens old).1 (Nat.not_lt.2 outside)

theorem outcome_variable_alike (h : s.Alike z z' source source' s') {q q' : Qualifiers}
    (precision : q'.precision = q.precision) {stage : Stage} {storage : Storage} {line line' : Nat}
    {type : String} (named : s.ident? = some type) (block : (s.drop 1).startsWith '\x7b' = false)
    (closed : outcome (body? source stage q storage line s) ≠ some none → s.Closed) :
    outcome (body? source' stage q' storage line' s') =
      outcome (body? source stage q storage line s) := by
  have h1 := h.drop 1
  have block' := (h1.startsWith _).trans block
  rw [outcome_body?_of_variable _ _ _ _ _ named block] at closed ⊢
  rw [outcome_body?_of_variable _ _ _ _ _ (h.ident?.trans named) block', h1.ident?]
  cases name : (s.drop 1).ident? with
  | none => dsimp only
  | some name' =>
    rw [name] at closed
    dsimp only at closed ⊢
    rw [outcome_category?_line storage type stage name' line line', precision]
    cases found : outcome (category? storage type stage name' line) with
    | none => rw [Option.bind_none, Option.bind_none]
    | some category? =>
      rw [found, Option.bind_some] at closed
      rw [Option.bind_some, Option.bind_some]
      cases category? with
      | none => dsimp only
      | some category =>
        dsimp only at closed ⊢
        have made : s.Closed := by
          apply closed
          intro nothing
          obtain ⟨count, -, made⟩ := Option.map_eq_some_iff.1 nothing
          cases made
        rw [(h1.drop 1).startsWith]
        cases array : ((s.drop 1).drop 1).startsWith '[' with
        | false => rw [if_neg Bool.false_ne_true, if_neg Bool.false_ne_true]
        | true =>
          rw [if_pos rfl, if_pos rfl,
            outcome_arrayLength_alike (h1.drop 1) ((made.drop 1).drop 1) array false]

theorem outcome_body?_alike (h : s.Alike z z' source source' s') {q q' : Qualifiers}
    (precision : q'.precision = q.precision) (stage : Stage) (storage : Storage) (line line' : Nat)
    (closed : outcome (body? source stage q storage line s) ≠ some none → s.Closed) :
    outcome (body? source' stage q' storage line' s') =
      outcome (body? source stage q storage line s) := by
  cases named : s.ident? with
  | none =>
    rw [outcome_body?_of_no_type _ _ _ _ _ named,
      outcome_body?_of_no_type _ _ _ _ _ (h.ident?.trans named)]
  | some type =>
    cases block : (s.drop 1).startsWith '\x7b' with
    | true => exact outcome_block_alike h named block closed
    | false => exact outcome_variable_alike h precision named block closed

end Body

structure Moved (z z' : Nat) (d d' : Declaration) : Prop where
  start : d'.start = d.start - z + z'
  stop : d'.stop = d.stop - z + z'
  category : d'.category = d.category
  descriptor : d'.descriptor = d.descriptor
  layout : d'.layout = d.layout
  range : d'.layoutRange = d.layoutRange.map fun r => (r.1 - z + z', r.2 - z + z')

theorem Moved.under {z z' : Nat} {d d' : Declaration} (h : Moved z z' d d')
    (stack : Condition.Stack) (tags : List (String × String)) :
    Moved z z' (d.under stack tags) (d'.under stack tags) := by
  refine ⟨h.start, h.stop, h.category, ?_, h.layout, h.range⟩
  simp only [Declaration.under, h.descriptor]

section Parse

variable {z z' : Nat} {source source' : Text} {s s' : Statement}

theorem head?_tokens {t : Token} (head : s.head? = some t) : s.tokens.head? = some t := by
  rw [Statement.head?, if_neg (Nat.ne_of_gt (size_pos head))] at head
  exact head

/-- A layout that the statements did not come with is the same in both, at another place. -/
theorem Qualifiers.same_or_moved {q q' : Qualifiers}
    (layouts : SameLayout {} q ∧ SameLayout {} q' ∨ Relisted z z' s q q')
    (behind : ∀ x ∈ s.window, z ≤ x.start) : q'.layout = q.layout ∧
      q'.layoutRange = q.layoutRange.map fun r => (r.1 - z + z', r.2 - z + z') := by
  rcases layouts with ⟨kept, kept'⟩ | relisted
  · rw [kept.1, kept.2, kept'.1, kept'.2]
    exact ⟨rfl, rfl⟩
  · obtain ⟨x, -, y, member, range, range'⟩ := relisted.range
    refine ⟨relisted.layout, ?_⟩
    rw [range, range', Option.map_some, move_start, move_stop z' (behind y member)]

theorem parse?_alike (h : s.Alike z z' source source' s') {t : Token} (head : s.head? = some t)
    (behind : ∀ x ∈ s.window, z ≤ x.start) (stage : Stage)
    (stop : (s'.tokens[s'.size]?.map Token.stop).getD (Text.byteLen source') =
      (s.tokens[s.size]?.map Token.stop).getD (Text.byteLen source) - z + z')
    {found : Option Declaration} (parsed : outcome (parse? source stage s) = some found)
    (closed : found ≠ none → s.Closed) :
    ∃ found', outcome (parse? source' stage s') = some found' ∧ Option.Rel (Moved z z') found found' := by
  have head' : s'.head? = some (t.move z z') := by rw [h.head?, head]; rfl
  rw [outcome_parse? source stage (head?_tokens head)] at parsed
  rw [outcome_parse? source' stage (head?_tokens head')]
  rcases Qualifiers.read_alike h (.refl {}) with ⟨old, new⟩ |
      ⟨q, r, q', r', old, new, same, rest, closed_rest, layouts⟩
  · rw [old] at parsed
    rw [new]
    obtain rfl := Option.some.inj parsed
    exact ⟨none, rfl, .none⟩
  · rw [old] at parsed
    rw [new]
    dsimp only at parsed ⊢
    have storages := same.storage
    cases kind : q.storage with
    | none =>
      rw [kind, Option.map_none, Option.map_eq_none_iff] at storages
      rw [kind] at parsed
      rw [storages]
      obtain rfl := Option.some.inj parsed
      exact ⟨none, rfl, .none⟩
    | some storage =>
      obtain ⟨storage, range⟩ := storage
      rw [kind, Option.map_some, Option.map_eq_some_iff] at storages
      obtain ⟨⟨_, range'⟩, kind', rfl⟩ := storages
      rw [kind] at parsed
      rw [kind']
      dsimp only at parsed ⊢
      obtain ⟨body, read, made⟩ := Option.map_eq_some_iff.1 parsed
      have again := outcome_body?_alike rest same.precision stage _
        (Text.lineOf source t.start) (Text.lineOf source' (t.move z z').start) (by
          intro something
          apply closed_rest
          apply closed
          rintro rfl
          rw [Option.map_eq_none_iff] at made
          exact something (made ▸ read))
      rw [again, read, Option.map_some]
      refine ⟨_, rfl, ?_⟩
      subst made
      cases body with
      | none => exact .none
      | some body =>
        obtain ⟨layout, ranges⟩ := Qualifiers.same_or_moved layouts behind
        refine .some ⟨rfl, stop, rfl, ?_, layout, ranges⟩
        simp only [assemble, layout, same.access]

end Parse

end ShaderPass.Declaration
