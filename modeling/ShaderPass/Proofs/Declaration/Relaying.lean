import ShaderPass.Proofs.Declaration.Exchange

/-! The statement whose layout list is exchanged makes the same declaration, with the new layout. -/
namespace ShaderPass.Declaration

open Token ShaderPass.Bracket Compile Statement FunctionDef

structure Relaid (l : Layout) (d d' : Declaration) : Prop where
  category : d'.category = d.category
  layout : d'.layout = l
  descriptor : d'.descriptor = { d.descriptor with
    binding := l.number? "binding"
    location := l.number? "location"
    inputAttachment := l.number? "input_attachment_index" }

theorem Relaid.under {l : Layout} {d d' : Declaration} (h : Relaid l d d')
    (stack : Condition.Stack) (tags : List (String × String)) :
    Relaid l (d.under stack tags) (d'.under stack tags) := by
  refine ⟨h.category, h.layout, ?_⟩
  simp only [Declaration.under, h.descriptor]

/-- The tokens that give a statement its layout: the last list in it or, at its start, none. -/
def Counts (source : Text) (front before : List Token) (range : Option (Nat × Nat)) : Prop :=
  (front = [] ∧ before = [] ∧ range = none) ∨
    ∃ inner r, range = some r ∧ IsList source before inner r

section

variable {a z z' : Nat} {before after later front : List Token} {k : Token} {source source' : Text}
  {inner' : Text} {range' : Nat × Nat} {m : Nat}

theorem read_exchange (agree : Agree a z z' source source')
    (new : IsList source' after inner' range')
    (ordered : Ordered (front ++ (before ++ k :: later))) (ahead : ∀ t ∈ front, InFront source a t)
    (behind : ∀ t ∈ k :: later, z ≤ t.start) {p : Qualifiers} {r : Statement}
    (h : Qualifiers.read source {}
      ⟨front ++ (before ++ k :: later), front.length + (before.length + m)⟩ = some (p, r))
    (counts : Counts source front before p.layoutRange) :
    ∃ p' r', Qualifiers.read source' {}
        ⟨front ++ (after ++ (k :: later).map (move z z')), front.length + (after.length + m)⟩ =
          some (p', r') ∧
      Qualifiers.Alike p p' ∧ r.Alike z z' source source' r' ∧
      (Closed ⟨k :: later, m⟩ → r.Closed) ∧ p'.layout = Layout.parse inner' := by
  have ordered_tail : Ordered (k :: later) :=
    ordered.sublist ((List.sublist_append_right _ _).trans (List.sublist_append_right _ _))
  have tails := alike_behind agree m ordered_tail behind
  -- Both statements come to what stands behind the list.
  obtain ⟨q, q', old, new, same, layout, starts⟩ : ∃ q q',
      Qualifiers.read source q ⟨k :: later, m⟩ = some (p, r) ∧
      Qualifiers.read source' {}
        ⟨front ++ (after ++ (k :: later).map (move z z')), front.length + (after.length + m)⟩ =
          Qualifiers.read source' q' ⟨(k :: later).map (move z z'), m⟩ ∧
      Qualifiers.Alike q q' ∧ q'.layout = Layout.parse inner' ∧
      ∀ range, p.layoutRange = some range → ∀ t ∈ k :: later, range.1 < t.start := by
    rcases counts with ⟨rfl, rfl, none⟩ | ⟨inner, range, at_range, isList⟩
    · rw [List.length_nil, Nat.zero_add, Nat.zero_add, List.nil_append, List.nil_append] at h
      have reach := new.read {} ((k :: later).map (move z z')) m
      rw [List.length_nil, Nat.zero_add, List.nil_append]
      refine ⟨{}, _, h, reach, ⟨rfl, rfl, rfl⟩, rfl, ?_⟩
      · intro range at_range
        rw [none] at at_range
        cases at_range
    · obtain ⟨q, old, reach⟩ := read_front isList new ordered
        (fun x hx y hy => agree.front _ _ (ahead x hx).1.isBoundary_stop (ahead y hy).start_le)
        (by simp) h at_range ((k :: later).map (move z z'))
      rw [isList.read] at old
      rw [new.read] at reach
      refine ⟨_, _, old, reach, ⟨rfl, rfl, rfl⟩, rfl, ?_⟩
      intro range' at_range' t ht
      rw [at_range, Option.some.injEq] at at_range'
      rw [← at_range']
      refine isList.lt_start ordered (List.append_assoc _ _ _).symm ?_ ht
      rw [List.length_append]
      exact Nat.lt_add_of_pos_right isList.length_pos
  rw [new]
  rcases Qualifiers.read_alike tails same with ⟨failed, -⟩ |
      ⟨p₁, r₁, p', r', old', new', same', rest, closed, layouts⟩
  · rw [failed] at old
    cases old
  · rw [old', Option.some.injEq] at old
    obtain ⟨rfl, rfl⟩ := Prod.mk.inj old
    refine ⟨p', r', new', same', rest, closed, ?_⟩
    rcases layouts with ⟨-, kept⟩ | relisted
    · rw [kept.1, layout]
    · -- A later list would count instead.
      obtain ⟨x, hx, y, -, at_range, -⟩ := relisted.range
      exact absurd (starts _ at_range x (List.mem_of_mem_take hx)) (Nat.lt_irrefl _)

theorem parse?_exchange (agree : Agree a z z' source source')
    (new : IsList source' after inner' range')
    (ordered : Ordered (front ++ (before ++ k :: later))) (ahead : ∀ t ∈ front, InFront source a t)
    (behind : ∀ t ∈ k :: later, z ≤ t.start) {t t' : Token}
    (head : (front ++ (before ++ k :: later)).head? = some t)
    (head' : (front ++ (after ++ (k :: later).map (move z z'))).head? = some t')
    (stage : Stage) {d : Declaration} (parsed : outcome (parse? source stage
      ⟨front ++ (before ++ k :: later), front.length + (before.length + m)⟩) = some (some d))
    (counts : Counts source front before d.layoutRange) (closed : Closed ⟨k :: later, m⟩) :
    ∃ d', outcome (parse? source' stage
        ⟨front ++ (after ++ (k :: later).map (move z z')), front.length + (after.length + m)⟩) =
          some (some d') ∧ Relaid (Layout.parse inner') d d' := by
  rw [outcome_parse? source stage head] at parsed
  rw [outcome_parse? source' stage head']
  cases read : Qualifiers.read source {}
      ⟨front ++ (before ++ k :: later), front.length + (before.length + m)⟩ with
  | none =>
    rw [read] at parsed
    cases parsed
  | some found =>
    obtain ⟨p, r⟩ := found
    rw [read] at parsed
    dsimp only at parsed
    cases kind : p.storage with
    | none =>
      rw [kind] at parsed
      cases parsed
    | some storage =>
      obtain ⟨storage, range⟩ := storage
      rw [kind] at parsed
      obtain ⟨body, body_eq, made⟩ := Option.map_eq_some_iff.1 parsed
      cases body with
      | none => cases made
      | some body =>
        obtain rfl := Option.some.inj made
        obtain ⟨p', r', read', same, rest, closed_rest, layout⟩ :=
          read_exchange agree new ordered ahead behind read counts
        have storages := same.storage
        rw [kind, Option.map_some, Option.map_eq_some_iff] at storages
        obtain ⟨⟨storage', range'⟩, kind', same_storage⟩ := storages
        obtain rfl : storage' = storage := same_storage
        have again := outcome_body?_alike rest same.precision stage storage'
          (Text.lineOf source t.start) (Text.lineOf source' t'.start) fun _ => closed_rest closed
        rw [read']
        dsimp only
        rw [kind']
        dsimp only
        rw [again, body_eq]
        refine ⟨_, rfl, rfl, layout, ?_⟩
        simp only [assemble, layout, same.access]

end

end ShaderPass.Declaration
