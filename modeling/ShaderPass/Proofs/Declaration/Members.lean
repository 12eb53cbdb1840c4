import ShaderPass.Proofs.Declaration.Variable

/-! The members of blocks, as they are written. Each is declared by a stretch of tokens between the braces
of its block, and the braces close inside the statement, so the words of a member stand in the range of
its declaration. -/
namespace ShaderPass.Declaration

open Token ShaderPass.Bracket Statement FunctionDef Compile

def wordsOf (ts : List Token) : List String :=
  (ts.filter Token.isIdentifier).map Token.name

/-- Whether some words, in front of further tokens, declare a member. The last two words, precisions
aside, are its type and its name, the first precision is its precision, and its length is what the square
brackets hold that follow. -/
structure DeclaresMember (source : Text) (words : List String) (later : List Token) (m : Member) :
    Prop where
  named : ∃ before, words.filter (· ∉ precisions) = before ++ [m.type, m.name]
  precision : m.precision = words.find? (· ∈ precisions)
  length : m.arraySize.map String.toList = lengthText? source later

def Continues (k : Token) : Prop :=
  k.isPunct ';' = false ∧ k.isPunct '[' = false

/-- Whether a member starts behind a token: the brace of the block, a semicolon or the end of a length. -/
def Separates (k : Token) : Prop :=
  k.isPunct '\x7b' = true ∨ k.isPunct ';' = true ∨ k.isPunct ']' = true

/-- Whether a member is declared by the tokens between two ends of members, in the range of a
declaration. -/
def HasMember (t : Text) (d : Declaration) (m : Member) : Prop :=
  ∃ front sep stretch stop later, significant t = front ++ sep :: (stretch ++ stop :: later) ∧
    Separates sep ∧ ¬ Continues stop ∧
    (∀ k ∈ stretch, Continues k ∧ d.start ≤ k.start ∧ k.stop ≤ d.stop) ∧
    DeclaresMember t (wordsOf stretch) (stop :: later) m

section Words

theorem wordsOf_append (ts us : List Token) : wordsOf (ts ++ us) = wordsOf ts ++ wordsOf us := by
  unfold wordsOf
  rw [List.filter_append, List.map_append]

theorem wordsOf_singleton (k : Token) : wordsOf [k] = if k.isIdentifier then [k.name] else [] := by
  cases identifier : k.isIdentifier <;> simp [wordsOf, identifier]

theorem exists_of_mem_wordsOf {ts : List Token} {w : String} (member : w ∈ wordsOf ts) :
    ∃ k ∈ ts, k.isIdentifier = true ∧ w = k.name := by
  obtain ⟨k, found, rfl⟩ := List.mem_map.1 member
  obtain ⟨hk, identifier⟩ := List.mem_filter.1 found
  exact ⟨k, hk, identifier, rfl⟩

theorem DeclaresMember.name_mem {source : Text} {words : List String} {later : List Token} {m : Member}
    (h : DeclaresMember source words later m) : m.name ∈ words := by
  obtain ⟨before, shape⟩ := h.named
  have last : m.name ∈ words.filter (· ∉ precisions) := by
    rw [shape]
    simp
  exact (List.mem_filter.1 last).1

theorem declaresMember_of_member? {source : Text} {words : List String} {later : List Token}
    {arraySize : Option String} {count : Nat} {m : Member}
    (made : member? words arraySize count = some m)
    (length : arraySize.map String.toList = lengthText? source later) :
    DeclaresMember source words later m := by
  unfold member? at made
  split at made
  · rename_i name type others shape
    obtain rfl := Option.some.inj made
    refine ⟨⟨others.reverse, ?_⟩, rfl, length⟩
    have forwards := congrArg List.reverse shape
    simpa using forwards
  · cases made

end Words

section Lengths

variable {source : Text} {unsized : Bool}

theorem toList_of_arrayLength {k : Token} {ts : List Token} (opens : k.isPunct '[' = true)
    {length : Option String × Nat} (read : outcome (arrayLength source unsized (k :: ts)) = some length) :
    length.1.map String.toList = lengthText? source (k :: ts) := by
  rw [lengthText?, List.head?_cons, Option.any_some, if_pos opens]
  unfold arrayLength at read
  cases brackets : bracketed? source (k :: ts) with
  | none =>
    rw [brackets] at read
    obtain rfl := Option.some.inj read
    rfl
  | some inner =>
    rw [brackets] at read
    dsimp only at read
    split at read
    · rename_i empty
      rw [Bool.and_eq_true, List.isEmpty_iff] at empty
      obtain rfl := Option.some.inj read
      rw [Option.map_some, Option.map_some, empty.1]
      rfl
    · have written : (some (String.ofList (Text.trim inner.1))).map String.toList =
          (some inner).map fun inner => Text.trim inner.1 := by
        rw [Option.map_some, Option.map_some, String.toList_ofList]
      split at read
      · obtain rfl := Option.some.inj read
        exact written
      · cases value : ConstExpr.evaluate (Text.trim inner.1) none with
        | ok n =>
          rw [value] at read
          dsimp only at read
          split at read
          · obtain rfl := Option.some.inj read
            exact written
          · rw [outcome_error_bind fun _ => steady_pure _] at read
            obtain rfl := Option.some.inj read
            exact written
        | error fault =>
          rw [value] at read
          dsimp only at read
          rw [outcome_error_bind fun _ => steady_pure _] at read
          obtain rfl := Option.some.inj read
          exact written

end Lengths

section Reading

variable {source : Text} {unsized : Bool}

theorem separates_of_closeOffset? {k e : Token} {ts : List Token} {n : Nat} (opens : k.isPunct '[' = true)
    (closed : closeOffset? (k :: ts) = some n) (last : (k :: ts.take n).getLast? = some e) :
    Separates e := by
  obtain ⟨-, n, search, rfl⟩ := (closeOffset?_eq_some_iff (b := square) (by decide) opens).1 closed
  obtain ⟨close, at_n, closes⟩ := exists_of_closeAfter search
  rw [List.take_add_one, at_n, Option.toList_some, ← List.cons_append, List.getLast?_concat] at last
  exact Or.inr (Or.inr (Option.some.inj last ▸ closes))

theorem members_cases {words : List String} {size : Nat} {k : Token} {ts : List Token} {ms : List Member}
    (read : outcome (members source unsized words (size + 1) (k :: ts)) = some ms) :
    Continues k ∧ outcome (members source unsized (words ++ wordsOf [k]) size ts) = some ms ∨
      ¬ Continues k ∧ ∃ n arraySize count ms', arraySize.map String.toList = lengthText? source (k :: ts) ∧
        (n < size → ∀ e ∈ (k :: ts.take n).getLast?, Separates e) ∧
        outcome (members source unsized [] (size - n) (ts.drop n)) = some ms' ∧
        ms = (member? words arraySize count).toList ++ ms' := by
  rw [wordsOf_singleton]
  rw [outcome_members_cons] at read
  split at read
  · cases read
  split at read
  · rename_i identifier
    obtain ⟨-, semicolon, -⟩ := isInner_of_isIdentifier identifier
    have kind := of_decide_eq_true identifier
    rw [if_pos identifier]
    exact Or.inl ⟨⟨semicolon, by simp [isPunct, kind]⟩, read⟩
  rename_i no_identifier
  split at read
  · rename_i opens
    obtain ⟨length, measured, read⟩ := Option.bind_eq_some_iff.1 read
    obtain ⟨ms', rest, made⟩ := Option.map_eq_some_iff.1 read
    refine Or.inr ⟨fun continues => ?_, _, length.1, length.2, ms', toList_of_arrayLength opens measured,
      fun short e last => ?_, rest, made.symm⟩
    · rw [continues.2] at opens
      cases opens
    · cases closed : closeOffset? (k :: ts) with
      | none =>
        rw [closed] at short
        exact absurd short (Nat.lt_irrefl _)
      | some n =>
        rw [closed] at last
        exact separates_of_closeOffset? opens closed last
  rename_i no_opening
  split at read
  · rename_i semicolon
    obtain ⟨ms', rest, made⟩ := Option.map_eq_some_iff.1 read
    refine Or.inr ⟨fun continues => ?_, 0, none, 1, ms', ?_, fun _ e last => ?_, rest, made.symm⟩
    · rw [continues.1] at semicolon
      cases semicolon
    · rw [lengthText?, List.head?_cons, Option.any_some, if_neg no_opening]
      rfl
    · rw [List.take_zero, List.getLast?_singleton] at last
      exact Or.inr (Or.inl (Option.some.inj last ▸ semicolon))
  · rename_i no_semicolon
    rw [if_neg no_identifier, List.append_nil]
    exact Or.inl ⟨⟨by simpa using no_semicolon, by simpa using no_opening⟩, read⟩

def DeclaresAmong (source : Text) (bound : Nat) (ts : List Token) (m : Member) : Prop :=
  ∃ front stretch stop later, ts = front ++ (stretch ++ stop :: later) ∧
    front.length + stretch.length < bound ∧ (∀ e ∈ front.getLast?, Separates e) ∧ ¬ Continues stop ∧
    (∀ k ∈ stretch, Continues k) ∧ DeclaresMember source (wordsOf stretch) (stop :: later) m

theorem DeclaresAmong.behind {front ts : List Token} {bound : Nat} {m : Member}
    (h : DeclaresAmong source bound ts m) (ends : ∀ e ∈ front.getLast?, Separates e) :
    DeclaresAmong source (front.length + bound) (front ++ ts) m := by
  obtain ⟨before, stretch, stop, later, rfl, lt, behind, declares⟩ := h
  refine ⟨front ++ before, stretch, stop, later, (List.append_assoc ..).symm, ?_, fun e last => ?_, declares⟩
  · rw [List.length_append]
    omega
  · rw [List.getLast?_append] at last
    cases at_last : before.getLast? with
    | some e' =>
      rw [at_last] at last
      exact behind e (at_last.trans last)
    | none =>
      rw [at_last] at last
      exact ends e last

theorem DeclaresAmong.mono {ts : List Token} {bound bound' : Nat} {m : Member}
    (h : DeclaresAmong source bound ts m) (le : bound ≤ bound') : DeclaresAmong source bound' ts m := by
  obtain ⟨front, stretch, stop, later, cut, lt, declares⟩ := h
  exact ⟨front, stretch, stop, later, cut, Nat.lt_of_lt_of_le lt le, declares⟩

theorem DeclaresAmong.pos {ts : List Token} {bound : Nat} {m : Member}
    (h : DeclaresAmong source bound ts m) : 0 < bound := by
  obtain ⟨front, stretch, stop, later, -, lt, -⟩ := h
  omega

/-- Every member is declared by a stretch of the tokens. Those that wait for the end of a member are in
front of those that are read. -/
theorem exists_declaresMember {pending ts : List Token} {size : Nat} {ms : List Member} {m : Member}
    (waiting : ∀ k ∈ pending, Continues k)
    (read : outcome (members source unsized (wordsOf pending) size ts) = some ms) (member : m ∈ ms) :
    DeclaresAmong source (pending.length + size) (pending ++ ts) m := by
  induction size using Nat.strongRecOn generalizing pending ts ms with
  | ind size ih =>
    have nothing (none : outcome (members source unsized (wordsOf pending) size ts) = some []) : False := by
      rw [none] at read
      obtain rfl := Option.some.inj read
      cases member
    cases size with
    | zero => exact (nothing (by simp only [members]; rfl)).elim
    | succ size =>
      cases ts with
      | nil => exact (nothing (by simp only [members]; rfl)).elim
      | cons k ts =>
        rcases members_cases read with ⟨continues, read⟩ |
          ⟨stops, n, arraySize, count, ms', length, separated, rest, rfl⟩
        · -- The token waits with the others.
          have found := @ih size (Nat.lt_succ_self size) (pending ++ [k]) ts ms (fun v hv => by
            rcases List.mem_append.1 hv with hv | hv
            · exact waiting v hv
            · exact List.mem_singleton.1 hv ▸ continues) (wordsOf_append _ _ ▸ read) member
          rw [List.append_assoc, List.singleton_append, List.length_append, List.length_singleton] at found
          exact found.mono (by omega)
        · rcases List.mem_append.1 member with own | other
          · exact ⟨[], pending, k, ts, rfl, by simp, fun e none => absurd none (by simp), stops, waiting,
              declaresMember_of_member? (Option.mem_toList.1 own) length⟩
          · have found := @ih (size - n) (by omega) [] _ _ (fun v hv => absurd hv List.not_mem_nil) rest other
            rw [List.length_nil, Nat.zero_add, List.nil_append] at found
            have short : n < size := Nat.lt_of_sub_pos found.pos
            have ends : ∀ e ∈ (pending ++ k :: ts.take n).getLast?, Separates e := fun e last => by
              rw [List.getLast?_append_of_ne_nil _ (List.cons_ne_nil _ _)] at last
              exact separated short e last
            have behind := found.behind ends
            rw [List.append_assoc, List.cons_append, List.take_append_drop] at behind
            refine behind.mono ?_
            rw [List.length_append, List.length_cons, List.length_take]
            omega

end Reading

section Blocks

variable {t : Text}

theorem closeOffset?_lt_of_block {h k : Token} {us later : List Token} {c j n : Nat}
    (block : h.isPunct '\x7b' = true) (outer : closeOffset? (h :: us) = some c)
    (inside : j < c) (at_j : us.drop j = k :: later) (opens : k.isPunct '\x7b' = true)
    (closed : closeOffset? (k :: later) = some n) : j + 1 + n < c := by
  obtain ⟨-, c, search, rfl⟩ := (closeOffset?_eq_some_iff (b := brace) (by decide) block).1 outer
  obtain ⟨-, n, inner, rfl⟩ := (closeOffset?_eq_some_iff (b := brace) (by decide) opens).1 closed
  have split : us = us.take j ++ k :: later := by rw [← at_j, List.take_append_drop]
  have front : (us.take j).length = j := by
    have := congrArg List.length at_j
    simp only [List.length_drop, List.length_cons] at this
    rw [List.length_take]
    omega
  rw [split] at search
  rcases closeAfter_append_cases brace (Nat.le_refl 1) (us.take j) with
    ⟨m, lt, always⟩ | ⟨d, positive, always⟩
  · rw [always, Option.some.injEq] at search
    omega
  · rw [always] at search
    obtain ⟨c', deeper, rfl⟩ := Option.map_eq_some_iff.1 search
    rcases closeAfter_cons_cases positive deeper with ⟨-, n', m', inner', -, rfl⟩ | ⟨no_opening, -⟩
    · obtain rfl := Option.some.inj (inner'.symm.trans inner)
      omega
    · rw [show k.isPunct brace.opening = true from opens] at no_opening
      cases no_opening

theorem closeOffset?_lt_statementLength {us later : List Token} {k : Token} {j n : Nat}
    (inside : j < statementLength us) (at_j : us.drop j = k :: later) (opens : k.isPunct '\x7b' = true)
    (closed : closeOffset? (k :: later) = some n) : j + n < statementLength us := by
  induction len : us.length using Nat.strongRecOn generalizing us j with
  | ind size ih =>
    cases us with
    | nil => simp at at_j
    | cons h us =>
      rw [List.length_cons] at len
      cases ends : h.isDirective || h.isPunct ';' with
      | true =>
        rw [statementLength_cons_of_ends ends] at inside
        omega
      | false =>
        cases block : h.isPunct '\x7b' with
        | false =>
          rw [statementLength_cons_of_other ends block] at inside ⊢
          cases j with
          | zero =>
            obtain ⟨rfl, -⟩ := List.cons.inj (by simpa using at_j)
            rw [opens] at block
            cases block
          | succ j =>
            rw [List.drop_succ_cons] at at_j
            have := ih us.length (by omega) (by omega) at_j rfl
            omega
        | true =>
          cases outer : closeOffset? (h :: us) with
          | none =>
            rw [statementLength_cons_of_open ends block outer]
            obtain ⟨-, m, search, rfl⟩ :=
              (closeOffset?_eq_some_iff (b := brace) (by decide) opens).1 closed
            have short := closeAfter_lt search
            have size := congrArg List.length at_j
            simp only [List.length_drop, List.length_cons] at size
            omega
          | some c =>
            rw [statementLength_cons_of_block ends block outer] at inside ⊢
            -- The brace is the outer one, or stands inside it, or behind it.
            rcases Nat.lt_or_ge j (c + 1) with within | behind
            · cases j with
              | zero =>
                obtain ⟨rfl, rfl⟩ := List.cons.inj (by simpa using at_j)
                obtain rfl := Option.some.inj (outer.symm.trans closed)
                omega
              | succ j =>
                have := closeOffset?_lt_of_block block outer (by omega) at_j opens closed
                omega
            · obtain ⟨i, rfl⟩ : ∃ i, j = i + (c + 1) := ⟨j - (c + 1), by omega⟩
              have at_i : (us.drop c).drop i = k :: later := by
                rw [List.drop_drop, ← at_j, ← Nat.add_assoc, List.drop_succ_cons, Nat.add_comm]
              have := ih (us.drop c).length (by rw [List.length_drop]; omega) (by omega) at_i rfl
              omega

theorem exists_members_of_body? {source : Text} {stage : Stage} {q : Qualifiers} {storage : Storage}
    {line : Nat} {s : Statement} {found : Category × Descriptor} {m : Member}
    (read : outcome (body? source stage q storage line s) = some (some found))
    (member : m ∈ found.2.members) :
    (s.drop 1).startsWith '\x7b' = true ∧ ∃ unsized close ms,
      closeOffset? (s.drop 1).tokens = some close ∧ m ∈ ms ∧
      outcome (members source unsized [] (close - 1) ((s.drop 1).tokens.drop 1)) = some ms := by
  obtain ⟨type, typed⟩ := Option.ne_none_iff_exists'.1 (ident?_ne_none_of_body? read)
  cases block : (s.drop 1).startsWith '\x7b' with
  | true =>
    rw [outcome_body?_of_block _ _ _ _ _ typed block] at read
    split at read
    · rename_i category close kind closed
      obtain ⟨ms, members_read, made⟩ := Option.bind_eq_some_iff.1 read
      split at made
      · cases made
      · obtain rfl := Option.some.inj (Option.some.inj made)
        exact ⟨rfl, _, close, ms, closed, member, members_read⟩
    · cases read
  | false =>
    rw [outcome_body?_of_variable _ _ _ _ _ typed block] at read
    split at read
    · cases read
    · obtain ⟨category, -, read⟩ := Option.bind_eq_some_iff.1 read
      split at read
      · cases read
      · obtain ⟨count, -, made⟩ := Option.map_eq_some_iff.1 read
        obtain rfl := Option.some.inj made
        cases member

theorem exists_block_of_startsWith {first : Token} {us : List Token} {n : Nat}
    (block : (((statementAt first us).drop n).drop 1).startsWith '\x7b' = true) :
    ∃ k body, us.drop n = k :: body ∧ k.isPunct '\x7b' = true ∧ n < statementLength us ∧
      (((statementAt first us).drop n).drop 1).tokens = k :: body := by
  have behind : Statement.drop ((statementAt first us).drop n) 1 =
      ⟨us.drop n, statementLength us + 1 - n - 1⟩ := by
    simp only [statementAt, Statement.drop, List.drop_drop]
    rfl
  rw [behind] at block ⊢
  obtain ⟨k, head, opens⟩ := exists_of_startsWith block
  obtain ⟨body, size, same⟩ := Qualifiers.exists_of_head? head
  obtain ⟨tokens, length⟩ := Statement.mk.inj same
  exact ⟨k, body, tokens, opens, by omega, tokens⟩

theorem Run.hasMember {stage : Stage} {ds : List Declaration} {P : Statement → Prop}
    {d : Declaration} {m : Member} (run : Run t stage (find t) P [] [] (significant t) ds)
    (reported : d ∈ ds) (member : m ∈ d.descriptor.members) : HasMember t d m := by
  obtain ⟨front, first, us, d₀, stack, tags, cut, -, -, -, parsed, rfl⟩ :=
    run.exists_statement (ordered_significant t) (endsIn_find t) (List.nil_append _).symm
      (fun _ _ _ _ _ last => by cases last) reported
  obtain ⟨start, stop⟩ := start_of_parse? (t := first) rfl parsed
  obtain ⟨q, rest, storage, range, found, read, -, body, made⟩ := exists_body_of_parse? rfl parsed
  have inside : m ∈ found.2.members := by
    have same : d₀.descriptor.members = found.2.members := by rw [made]; rfl
    exact same ▸ member
  obtain ⟨block, unsized, close, ms, closed, listed, members_read⟩ := exists_members_of_body? body inside
  obtain ⟨n, rfl⟩ := exists_drop_of_read read
  obtain ⟨k, later, at_n, opens, long, tokens⟩ := exists_block_of_startsWith block
  rw [tokens] at closed members_read
  obtain ⟨before, stretch, ending, later, rfl, size, behind, ends, plain, declares⟩ :=
    @exists_declaresMember _ _ [] _ _ _ _ (fun v hv => absurd hv List.not_mem_nil) members_read listed
  have standing : ∀ v ∈ first :: us, v ∈ significant t := fun v hv => by
    rw [cut]
    exact List.mem_append_right _ hv
  have short := closeOffset?_lt_statementLength long at_n opens closed
  have whole : us = (us.take n ++ k :: (before ++ stretch)) ++ ending :: later := by
    rw [List.append_assoc, List.cons_append, List.append_assoc, ← at_n, List.take_append_drop]
  have in_window : ∀ v ∈ stretch, v ∈ (statementAt first us).window := by
    intro v hv
    have prefix_le : (us.take n ++ k :: (before ++ stretch)).length ≤ statementLength us := by
      simp only [List.length_nil, List.length_append, List.length_take, List.length_cons] at size ⊢
      omega
    show v ∈ (first :: us).take (statementLength us + 1)
    rw [List.take_succ_cons, whole, List.take_append, List.take_of_length_le (whole ▸ prefix_le)]
    simp [hv]
  have ordered := ordered_significant t
  rw [cut] at ordered
  have own : Ordered (first :: us) := ordered.sublist (List.sublist_append_right _ _)
  obtain ⟨inner, sep, at_sep⟩ := List.eq_nil_or_concat' (k :: before) |>.resolve_left (List.cons_ne_nil _ _)
  refine ⟨front ++ first :: (us.take n ++ inner), sep, stretch, ending, later, ?_, ?_, ends, fun v hv => ?_,
    declares⟩
  · have tail : us = us.take n ++ (inner ++ [sep] ++ (stretch ++ ending :: later)) := by
      rw [← at_sep, List.cons_append, ← at_n, List.take_append_drop]
    calc significant t = front ++ first :: us := cut
      _ = front ++ first :: (us.take n ++ (inner ++ [sep] ++ (stretch ++ ending :: later))) := by rw [← tail]
      _ = _ := by simp
  · have last : (k :: before).getLast? = some sep := by rw [at_sep, List.getLast?_concat]
    cases none_before : before.getLast? with
    | none =>
      obtain rfl := List.getLast?_eq_none_iff.1 none_before
      exact Or.inl (Option.some.inj last ▸ opens)
    | some e =>
      rw [List.getLast?_cons, none_before] at last
      exact behind sep (none_before.trans last)
  · refine ⟨plain v hv, ?_, ?_⟩
    · show d₀.start ≤ v.start
      rw [start]
      exact own.start_le_of_head? rfl (List.mem_of_mem_take (in_window v hv))
    · show v.stop ≤ d₀.stop
      rw [stop]
      exact stop_le_of_mem_window own (fun u hu => standsIn_of_mem_significant (standing u hu))
        (in_window v hv)

end Blocks

end ShaderPass.Declaration
