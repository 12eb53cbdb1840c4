import ShaderPass.Proofs.Declaration.Location
import ShaderPass.Proofs.Token.Editing

/-! The layout list of a declaration among the tokens of a text. If the brackets of the declaration
nest properly and there is no block in the list, the list is passed over as a group. -/
namespace ShaderPass.Declaration

open Token ShaderPass.Bracket Compile Statement FunctionDef

def within (range : Nat × Nat) (ts : List Token) : List Token :=
  ts.filter fun t => range.1 ≤ t.start && t.start < range.2

theorem within_append {range : Nat × Nat} {pre middle post : List Token}
    (before : ∀ t ∈ pre, t.start < range.1)
    (inside : ∀ t ∈ middle, range.1 ≤ t.start ∧ t.start < range.2)
    (after : ∀ t ∈ post, range.2 ≤ t.start) : within range (pre ++ (middle ++ post)) = middle := by
  have nothing_pre : within range pre = [] := by
    rw [within, List.filter_eq_nil_iff]
    intro t ht
    have := before t ht
    simp only [Bool.and_eq_true, decide_eq_true_eq]
    omega
  have nothing_post : within range post = [] := by
    rw [within, List.filter_eq_nil_iff]
    intro t ht
    have := after t ht
    simp only [Bool.and_eq_true, decide_eq_true_eq]
    omega
  have all_middle : within range middle = middle := by
    rw [within, List.filter_eq_self]
    intro t ht
    simpa using inside t ht
  rw [within, List.filter_append, List.filter_append]
  show within range pre ++ (within range middle ++ within range post) = middle
  rw [nothing_pre, all_middle, nothing_post, List.nil_append, List.append_nil]

section Length

theorem statementLength_append_of_nested {t : Text} {front rest : List Token} {stack : List Bracket}
    (standing : ∀ k ∈ front, k ∈ significant t) (no_block : stack.count brace = 0)
    (closed : nested stack (marks front) = true)
    (inside : front.length ≤ statementLength (front ++ rest)) :
    statementLength (front ++ rest) = front.length + statementLength rest := by
  induction len : front.length using Nat.strongRecOn generalizing front stack with
  | ind n ih =>
    cases front with
    | nil => rw [← len, List.nil_append, List.length_nil, Nat.zero_add]
    | cons k front =>
      rw [List.length_cons] at len inside
      rw [List.cons_append] at inside ⊢
      have standing' : ∀ k ∈ front, k ∈ significant t :=
        fun u hu => standing u (List.mem_cons_of_mem _ hu)
      cases ends : k.isDirective || k.isPunct ';' with
      | true =>
        rw [statementLength_cons_of_ends ends] at inside
        omega
      | false =>
        cases block : k.isPunct '\x7b' with
        | false =>
          rw [statementLength_cons_of_other ends block] at inside ⊢
          obtain ⟨stack', closed', count⟩ := nested_marks_cons closed
          have count := count brace (by decide)
          have weight : brace.weight k ≤ 0 := by
            rw [weight, if_neg (by rw [show brace.opening = '\x7b' from rfl, block]; decide)]
            split <;> decide
          rw [ih front.length (by omega) standing' (by omega) closed' (by omega) rfl]
          omega
        | true =>
          have hb : brace ∈ all := by decide
          rw [marks_cons_of_some (isPunct_iff.1 block)] at closed
          rw [show '\x7b' = brace.opening from rfl, nested_cons_opening hb] at closed
          obtain ⟨m, search⟩ := exists_closeAfter hb closed
          have bound := closeAfter_lt search
          have found : closeOffset? (k :: (front ++ rest)) = some (m + 1) := by
            have single : k.lexeme = [brace.opening] :=
              lexeme_of_isPunct (standing k List.mem_cons_self) block
            rw [closeOffset?_cons hb block, if_pos single, closeAfter_append_of_some search]
            rfl
          have drop : (front ++ rest).drop (m + 1) = front.drop (m + 1) ++ rest :=
            List.drop_append_of_le_length bound
          rw [statementLength_cons_of_block ends block found, drop] at inside ⊢
          rw [ih (front.drop (m + 1)).length (by rw [List.length_drop]; omega)
            (fun u hu => standing' u (List.mem_of_mem_drop hu)) no_block
            (nested_drop_of_closeAfter hb closed search)
            (by rw [List.length_drop]; omega) rfl, List.length_drop]
          omega

theorem ends_of_length_le {ts later : List Token} (no_block : ∀ t ∈ ts, t.isPunct '\x7b' = false)
    (inside : ts.length ≤ statementLength (ts ++ later)) :
    ∀ t ∈ ts, (t.isDirective || t.isPunct ';') = false := by
  induction ts with
  | nil => simp
  | cons u ts ih =>
    rw [List.length_cons, List.cons_append] at inside
    have first : (u.isDirective || u.isPunct ';') = false := by
      rw [Bool.eq_false_iff]
      intro ends
      rw [statementLength_cons_of_ends ends] at inside
      omega
    rw [statementLength_cons_of_other first (no_block u List.mem_cons_self)] at inside
    intro t ht
    rcases List.mem_cons.1 ht with rfl | ht
    · exact first
    · exact ih (fun v hv => no_block v (List.mem_cons_of_mem _ hv)) (Nat.le_of_succ_le_succ inside) t ht

end Length

theorem letter_of_read {source : Text} {q p : Qualifiers} {s r : Statement}
    (h : Qualifiers.read source q s = some (p, r)) (typed : r.ident? ≠ none) :
    ∃ k, s.head? = some k ∧
      (k.isIdentifier = true ∨ ∃ c rest, k.lexeme = c :: rest ∧ isIdentStart c = true) := by
  cases head : s.head? with
  | none =>
    rw [Qualifiers.read_of_nil source q head] at h
    obtain ⟨-, rfl⟩ := Prod.mk.inj (Option.some.inj h)
    rw [ident?, head] at typed
    exact absurd rfl typed
  | some k =>
    refine ⟨k, rfl, ?_⟩
    cases list : Qualifiers.startsList s with
    | true =>
      rw [Qualifiers.startsList, head, Bool.and_eq_true] at list
      exact Or.inr (letter_of_layout (of_decide_eq_true list.1))
    | false =>
      cases noted : q.note? k with
      | some q' => exact Or.inr (letter_of_note? noted)
      | none =>
        rw [Qualifiers.read_of_other source head list noted] at h
        obtain ⟨-, rfl⟩ := Prod.mk.inj (Option.some.inj h)
        left
        cases identifier : k.isIdentifier with
        | true => rfl
        | false =>
          rw [ident?, head, Option.filter_some, if_neg (by simp [identifier])] at typed
          exact absurd rfl typed

theorem isIdentifier_of_letter {t : Text} {k : Token} (member : k ∈ significant t)
    (word : k.isIdentifier = true ∨ ∃ c rest, k.lexeme = c :: rest ∧ isIdentStart c = true) :
    k.isIdentifier = true := by
  rcases word with identifier | ⟨c, rest, lexeme, letter⟩
  · exact identifier
  · have piece := mem_pieces_of_mem_significant member
    rw [lexeme] at piece
    exact decide_eq_true (identifier_of_mem_pieces piece letter)

/-- Where a declaration and its layout list stand: `before` are the tokens of the list, in front of an
identifier `k`, and `own` those of the declaration in front of the list. Without a list there is
neither. -/
structure Placement (source : Text) (d : Declaration) (front own before : List Token) (k : Token)
    (later : List Token) : Prop where
  tokens : significant source = front ++ (own ++ (before ++ k :: later))
  fresh : Fresh front
  head : ∃ first, (own ++ (before ++ k :: later)).head? = some first ∧
    first.isIdentifier = true ∧ d.start = first.start
  counts : Counts source own before d.layoutRange
  layout : ∀ inner range, IsList source before inner range → d.layout = Layout.parse inner
  bare : before = [] → d.layout = []
  identifier : k.isIdentifier = true
  inside : own.length + before.length ≤ statementLength (own ++ (before ++ k :: later))
  closed : nested [] (marks own) = true ∧ nested [] (marks before) = true

theorem Run.placement {t : Text} {stage : Stage} {ds : List Declaration}
    (run : Run t stage (find t) Closed [] [] (significant t) ds) {d : Declaration}
    (member : d ∈ ds) : ∃ front own before k later, Placement t d front own before k later := by
  obtain ⟨front, first, us, d₀, stack, tags, cut, fresh, identifier, ⟨open_still, closed⟩, parsed, rfl⟩ :=
    run.exists_statement (ordered_significant t) (endsIn_find t) (List.nil_append _).symm
      (fun _ _ _ _ _ last => by cases last) member
  obtain ⟨q, rest, range, found, read, typed, rfl⟩ := exists_of_parse? rfl parsed
  have size : statementLength (first :: us) = statementLength us + 1 := by
    obtain ⟨us', cut, statement, -⟩ :=
      statementLength_of_head? (List.head?_cons (a := first) (l := us)) identifier
    obtain ⟨-, rfl⟩ := List.cons.inj cut
    exact (congrArg Statement.size statement).symm
  rcases exists_list_of_read read with kept |
      ⟨own, before, tail, m, inner, r, q', split, isList, layout, at_range, read', nested⟩
  · refine ⟨front, [], [], first, us, ⟨cut, fresh, ⟨first, rfl, identifier, rfl⟩,
      Or.inl ⟨rfl, rfl, kept.2⟩, ?_, fun _ => kept.1, identifier, Nat.zero_le _, rfl, rfl⟩⟩
    rintro _ _ ⟨_, _, _, _, absurd, _⟩
    cases absurd
  · obtain ⟨k, head, word⟩ := letter_of_read read' typed
    obtain ⟨later, m, same⟩ := Qualifiers.exists_of_head? head
    obtain ⟨rfl, rfl⟩ := Statement.mk.inj same
    obtain ⟨tokens, size'⟩ := Statement.mk.inj split
    have k_member : k ∈ significant t := by
      rw [cut, tokens]
      simp
    refine ⟨front, own, before, k, later, ⟨by rw [cut, tokens], fresh,
      ⟨first, by rw [← tokens]; rfl, identifier, rfl⟩, Or.inr ⟨inner, r, at_range, isList⟩, ?_, ?_,
      isIdentifier_of_letter k_member word, ?_, nested open_still closed⟩⟩
    · intro inner' range' isList'
      obtain ⟨x, y, body, close, rfl, -, -, -, rfl, -⟩ := isList
      obtain ⟨x', y', body', close', same, -, -, -, rfl, -⟩ := isList'
      simp only [List.cons.injEq] at same
      obtain ⟨-, rfl, same⟩ := same
      obtain ⟨-, last⟩ := List.append_inj' same rfl
      obtain ⟨rfl, -⟩ := List.cons.inj last
      exact layout
    · rintro rfl
      exact absurd isList.length_pos (Nat.lt_irrefl 0)
    · rw [← tokens, size, size']
      omega

section Placement

variable {t : Text} {d : Declaration} {front own before later : List Token} {k : Token}

theorem Placement.ordered (place : Placement t d front own before k later) :
    Ordered ((front ++ own) ++ (before ++ k :: later)) := by
  rw [List.append_assoc, ← place.tokens]
  exact ordered_significant t

theorem Placement.within_eq (place : Placement t d front own before k later) {range : Nat × Nat}
    (at_range : d.layoutRange = some range) : within range (significant t) = before := by
  rcases place.counts with ⟨-, -, none⟩ | ⟨inner, r, some, isList⟩
  · rw [none] at at_range
    cases at_range
  rw [some, Option.some.injEq] at at_range
  obtain ⟨x, y, body, close, rfl, -, -, -, -, rfl⟩ := isList
  subst at_range
  have ordered := place.ordered
  obtain ⟨-, -, across⟩ := List.pairwise_append.1 ordered.1
  have tail := ordered.sublist (List.sublist_append_right (front ++ own) _)
  have regroup : x :: y :: (body ++ [close]) ++ k :: later = (x :: y :: body) ++ close :: k :: later := by
    simp
  have apart := tail.1
  rw [regroup] at apart
  obtain ⟨-, behind, ahead⟩ := List.pairwise_append.1 apart
  rw [place.tokens, ← List.append_assoc]
  refine within_append (fun u hu => ?_) (fun u hu => ⟨?_, ?_⟩) fun u hu => ?_
  · have filled := ordered.2 u (List.mem_append_left _ hu)
    exact Nat.lt_of_lt_of_le filled (across u hu x (by simp))
  · exact tail.start_le_of_head? rfl (List.mem_append_left _ hu)
  · have filled := tail.2 close (by simp)
    have last : u ∈ x :: y :: body ∨ u = close := by simpa [or_assoc] using hu
    rcases last with hu | rfl
    · have := ahead u hu close List.mem_cons_self
      have := tail.2 u (regroup ▸ List.mem_append_left _ hu)
      show u.start < close.stop
      omega
    · exact filled
  · exact (List.pairwise_cons.1 behind).1 u hu

theorem Placement.group (place : Placement t d front own before k later)
    (no_block : ∀ range, d.layoutRange = some range →
      ∀ u ∈ within range (significant t), u.isPunct '\x7b' = false) : Group before := by
  rcases place.counts with ⟨-, rfl, -⟩ | ⟨inner, r, at_range, -⟩
  · exact group_nil
  have no_block := no_block r at_range
  rw [place.within_eq at_range] at no_block
  have inside := place.inside
  have own_standing : ∀ u ∈ own, u ∈ significant t := fun u hu => by simp [place.tokens, hu]
  rw [statementLength_append_of_nested own_standing List.count_nil place.closed.1 (by omega)] at inside
  have long : before.length ≤ statementLength (before ++ k :: later) := by omega
  have ends := ends_of_length_le no_block long
  refine ⟨fun b hb => level_of_nested hb place.closed.2, fun u hu => ?_⟩
  have := ends u hu
  rw [Bool.or_eq_false_iff] at this
  exact ⟨this.1, this.2, no_block u hu⟩

end Placement

end ShaderPass.Declaration
