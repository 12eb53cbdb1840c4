import ShaderPass.Proofs.Declaration.Parsing

/-! The layout list that counts in a declaration, which is the last one, and what happens when it is
exchanged for another. -/
namespace ShaderPass.Declaration

open Token ShaderPass.Bracket Compile Statement

def IsList (source : Text) (ts : List Token) (inner : Text) (range : Nat × Nat) : Prop :=
  ∃ x y body close, ts = x :: y :: (body ++ [close]) ∧ x.name = "layout" ∧
    y.isPunct '(' = true ∧ closeOffset? (y :: (body ++ [close])) = some (body.length + 1) ∧
    inner = Text.slice y.stop close.start source ∧ range = (x.start, close.stop)

theorem closeOffset?_append_of_some {ts : List Token} {n : Nat} (found : closeOffset? ts = some n)
    (later : List Token) : closeOffset? (ts ++ later) = some n := by
  cases ts with
  | nil => cases found
  | cons t ts =>
    obtain ⟨b, pair, close⟩ := Option.bind_eq_some_iff.1 found
    show (ofOpening? t.lexeme).bind _ = _
    rw [pair, Option.bind_some]
    exact closeAfter_append_of_some close later

theorem closeOffset?_of_append {b : Bracket} (hb : b ∈ all) {t : Token}
    (opens : t.isPunct b.opening = true) {ts later : List Token} {n : Nat}
    (found : closeOffset? (t :: (ts ++ later)) = some n) (inside : n < ts.length + 1) :
    closeOffset? (t :: ts) = some n := by
  obtain ⟨lexeme, m, hm, rfl⟩ := (closeOffset?_eq_some_iff hb opens).1 found
  rcases closeAfter_append_cases b (Nat.le_refl 1) ts with ⟨n, -, search⟩ | ⟨e, -, search⟩
  · have here := search []
    rw [List.append_nil] at here
    rw [search later] at hm
    exact (closeOffset?_eq_some_iff hb opens).2 ⟨lexeme, m, here.trans hm, rfl⟩
  · rw [search later] at hm
    obtain ⟨k, -, rfl⟩ := Option.map_eq_some_iff.1 hm
    omega

theorem IsList.read {source : Text} {ts : List Token} {inner : Text} {range : Nat × Nat}
    (h : IsList source ts inner range) (q : Qualifiers) (later : List Token) (m : Nat) :
    Qualifiers.read source q ⟨ts ++ later, ts.length + m⟩ =
      Qualifiers.read source { q with layout := Layout.parse inner, layoutRange := some range }
        ⟨later, m⟩ := by
  obtain ⟨x, y, body, close, rfl, named, opens, found, rfl, rfl⟩ := h
  have list : Qualifiers.startsList ⟨x :: y :: (body ++ [close]) ++ later,
      (x :: y :: (body ++ [close])).length + m⟩ = true := by
    have size : (x :: y :: (body ++ [close])).length + m = body.length + 1 + m + 1 + 1 := by
      simp only [List.length_cons, List.length_append, List.length_nil]
      omega
    rw [size, List.cons_append, Qualifiers.startsList_cons, Bool.and_eq_true, decide_eq_true_eq]
    exact ⟨named, opens⟩
  have head : Statement.head? ⟨x :: y :: (body ++ [close]) ++ later,
      (x :: y :: (body ++ [close])).length + m⟩ = some x := by
    rw [Statement.head?, if_neg (by simp)]
    rfl
  have close_at : (y :: (body ++ [close]) ++ later)[body.length + 1]? = some close := by simp
  rw [Qualifiers.read_of_list q head list
    (bracketed?_eq source (closeOffset?_append_of_some found later) rfl close_at) close_at
    (by simp only [List.length_cons, List.length_append, List.length_nil]; omega)]
  congr 1
  have len : (x :: y :: (body ++ [close])).length = body.length + 1 + 2 := by simp
  rw [Statement.drop, ← len, List.drop_left, Nat.add_sub_cancel_left]

theorem exists_isList {s : Statement} (list : Qualifiers.startsList s = true) {n : Nat}
    (found : closeOffset? (s.tokens.drop 1) = some n) (inside : n + 1 < s.size) (source : Text) :
    ∃ ts later m inner range, s = ⟨ts ++ later, ts.length + m⟩ ∧ ts.length = n + 2 ∧
      IsList source ts inner range := by
  rw [Qualifiers.startsList, Bool.and_eq_true] at list
  obtain ⟨y, head1, opens⟩ := exists_of_startsWith list.2
  have hb : paren ∈ all := by decide
  obtain ⟨rest, cut⟩ := List.head?_eq_some_iff.1
    (show (s.tokens.drop 1).head? = some y from head?_tokens head1)
  rw [cut] at found
  obtain ⟨-, k, search, rfl⟩ := (closeOffset?_eq_some_iff hb opens).1 found
  have bound := closeAfter_lt search
  have split : rest = rest.take k ++ [rest[k]] ++ rest.drop (k + 1) := by
    rw [List.take_append_getElem, List.take_append_drop]
  have body : (rest.take k).length = k := by
    rw [List.length_take]
    omega
  obtain ⟨x, tokens, named⟩ : ∃ x, s.tokens = x :: s.tokens.drop 1 ∧ x.name = "layout" := by
    cases head : s.head? with
    | none =>
      rw [head] at list
      cases list.1
    | some x =>
      obtain ⟨ts, tokens⟩ := List.head?_eq_some_iff.1 (head?_tokens head)
      refine ⟨x, by rw [tokens]; rfl, ?_⟩
      simpa [head] using list.1
  have fits : (x :: y :: (rest.take k ++ [rest[k]])).length ≤ s.size := by
    simp only [List.length_cons, List.length_append, body, List.length_nil]
    omega
  obtain ⟨m, size⟩ := Nat.exists_eq_add_of_le fits
  refine ⟨x :: y :: (rest.take k ++ [rest[k]]), rest.drop (k + 1), m, _, _, ?_, ?_,
    x, y, rest.take k, rest[k], rfl, named, opens, ?_, rfl, rfl⟩
  · rw [← size, List.cons_append, List.cons_append, ← split, ← cut, ← tokens]
  · simp only [List.length_cons, List.length_append, body, List.length_nil]
  · rw [body]
    have found' : closeOffset? (y :: (rest.take k ++ [rest[k]] ++ rest.drop (k + 1))) = some (k + 1) := by
      rw [← split]
      exact found
    refine closeOffset?_of_append hb opens found' ?_
    rw [List.length_append, body]
    exact Nat.lt_succ_self _

theorem IsList.length_pos {source : Text} {ts : List Token} {inner : Text} {range : Nat × Nat}
    (h : IsList source ts inner range) : 0 < ts.length := by
  obtain ⟨x, y, body, close, rfl, -⟩ := h
  exact Nat.succ_pos _

theorem nested_marks_of_letter {t : Token} {c : Char} {rest : Text} (lexeme : t.lexeme = c :: rest)
    (letter : isIdentStart c = true) (stack : List Bracket) (ts : List Token) :
    nested stack (marks (t :: ts)) = nested stack (marks ts) := by
  have plain : isPlain c = true := by
    rcases isPlain_or c with plain | ⟨b, hb, rfl⟩ | ⟨b, hb, rfl⟩
    · exact plain
    all_goals rcases mem_all_iff.1 hb with rfl | rfl | rfl <;> cases letter
  cases mark : t.mark? with
  | none => rw [marks_cons_of_none mark]
  | some d =>
    have same : d = c := by
      rw [mark?] at mark
      split at mark
      · rw [lexeme, List.head?_cons, Option.some.injEq] at mark
        exact mark.symm
      · cases mark
    rw [marks_cons_of_some mark, same, nested_cons_of_isPlain plain]

theorem lexeme_of_name {t : Token} {name : String} (named : t.name = name) :
    t.lexeme = name.toList := by
  rw [← named, Token.name, String.toList_ofList]

def qualifierWords : List String :=
  ["uniform", "in", "out", "buffer", "readonly", "writeonly"] ++ precisions ++ ignoredQualifiers

theorem mem_qualifierWords {q q' : Qualifiers} {t : Token} (noted : q.note? t = some q') :
    t.name ∈ qualifierWords := by
  unfold Qualifiers.note? at noted
  split at noted
  · rename_i storage named
    unfold Storage.ofName? at named
    split at named <;> simp_all [qualifierWords]
  · split at noted
    · simp_all [qualifierWords]
    · split at noted
      · simp_all [qualifierWords]
      · split at noted
        · simp_all [qualifierWords]
        · split at noted
          · simp_all [qualifierWords]
          · cases noted

theorem letter_of_note? {q q' : Qualifiers} {t : Token} (noted : q.note? t = some q') :
    ∃ c rest, t.lexeme = c :: rest ∧ isIdentStart c = true := by
  have letters : ∀ word ∈ qualifierWords, word.toList.head?.any isIdentStart = true := by decide
  have letter := letters _ (mem_qualifierWords noted)
  rw [← lexeme_of_name rfl, Option.any_eq_true] at letter
  obtain ⟨c, head, letter⟩ := letter
  obtain ⟨rest, lexeme⟩ := List.head?_eq_some_iff.1 head
  exact ⟨c, rest, lexeme, letter⟩

theorem letter_of_layout {t : Token} (named : t.name = "layout") :
    ∃ c rest, t.lexeme = c :: rest ∧ isIdentStart c = true :=
  ⟨_, _, lexeme_of_name named, rfl⟩

theorem IsList.nested {source : Text} {ts : List Token} {inner : Text} {range : Nat × Nat}
    (h : IsList source ts inner range) {stack : List Bracket} {later : List Token}
    (closed : Bracket.nested stack (marks (ts ++ later)) = true) :
    Bracket.nested [] (marks ts) = true ∧ Bracket.nested stack (marks later) = true := by
  obtain ⟨x, y, body, close, rfl, named, opens, found, -, -⟩ := h
  have hb : paren ∈ all := by decide
  obtain ⟨c, rest, lexeme, letter⟩ := letter_of_layout named
  have enter (stack : List Bracket) (us : List Token) :
      Bracket.nested stack (marks (x :: y :: us)) = Bracket.nested (paren :: stack) (marks us) := by
    rw [nested_marks_of_letter lexeme letter, marks_cons_of_some (isPunct_iff.1 opens)]
    exact nested_cons_opening hb stack _
  obtain ⟨-, m, search, size⟩ := (closeOffset?_eq_some_iff hb opens).1 found
  obtain rfl := Nat.succ.inj size
  have search' := closeAfter_append_of_some search later
  rw [List.cons_append, List.cons_append, enter] at closed
  have inner := nested_take_of_closeAfter hb [] closed search'
  have outer := nested_drop_of_closeAfter hb closed search'
  rw [List.append_assoc, List.take_left] at inner
  have length : body.length + 1 = (body ++ [close]).length := by simp
  rw [length, List.drop_left] at outer
  refine ⟨?_, outer⟩
  obtain ⟨last, at_last, closes⟩ := exists_of_closeAfter search
  have same : close = last := by simpa using at_last
  rw [enter, marks_append, ← List.nil_append [paren], nested_append [] inner,
    marks_cons_of_some (isPunct_iff.1 (same ▸ closes)), nested_cons_closing hb]
  exact ⟨[], rfl, rfl⟩

section Read

variable {source : Text} {q q' p : Qualifiers} {s r : Statement}

/-- The layout that was read is the one before, or that of a list in the statement. What stands in
front of the list and the list itself nest their brackets properly if the statement does. -/
def ReadsList (source : Text) (q p : Qualifiers) (s r : Statement) : Prop :=
  Qualifiers.SameLayout q p ∨ ∃ front ts later m inner range q',
    s = ⟨front ++ (ts ++ later), front.length + (ts.length + m)⟩ ∧ IsList source ts inner range ∧
    p.layout = Layout.parse inner ∧ p.layoutRange = some range ∧
    Qualifiers.read source q' ⟨later, m⟩ = some (p, r) ∧
    ∀ stack, Bracket.nested stack (marks s.window) = true →
      Bracket.nested [] (marks front) = true ∧ Bracket.nested [] (marks ts) = true

theorem ReadsList.of_word {t : Token} (head : s.head? = some t) (noted : q.note? t = some q')
    (kept : Qualifiers.SameLayout q q') (behind : ReadsList source q' p (s.drop 1) r) :
    ReadsList source q p s r := by
  rcases behind with
    ⟨e1, e2⟩ | ⟨front, ts, later, m, inner, range, q₁, cut, isList, layout, at_range, rest, closed⟩
  · exact Or.inl ⟨e1.trans kept.1, e2.trans kept.2⟩
  · obtain ⟨us, n, rfl⟩ := Qualifiers.exists_of_head? head
    obtain ⟨rfl, rfl⟩ := Statement.mk.inj cut
    obtain ⟨c, tail, lexeme, letter⟩ := letter_of_note? noted
    refine Or.inr ⟨t :: front, ts, later, m, inner, range, q₁, ?_, isList, layout, at_range,
      rest, fun stack nested => ?_⟩
    · rw [List.cons_append, List.length_cons, Nat.add_right_comm]
    · rw [window, List.take_succ_cons, nested_marks_of_letter lexeme letter] at nested
      rw [nested_marks_of_letter lexeme letter]
      exact closed stack nested

/-- The list counts, unless a later one replaces it. -/
theorem ReadsList.of_list {ts later : List Token} {m : Nat} {inner : Text} {range : Nat × Nat}
    (isList : IsList source ts inner range) (layout : q'.layout = Layout.parse inner)
    (at_range : q'.layoutRange = some range)
    (read : Qualifiers.read source q' ⟨later, m⟩ = some (p, r))
    (behind : ReadsList source q' p ⟨later, m⟩ r) :
    ReadsList source q p ⟨ts ++ later, ts.length + m⟩ r := by
  have window_eq : Statement.window ⟨ts ++ later, ts.length + m⟩ = ts ++ later.take m := by
    rw [window, List.take_length_add_append]
  rcases behind with ⟨e1, e2⟩ |
      ⟨front, ts', later', m', inner', range', q₁, cut, isList', layout', at_range', rest, closed⟩
  · refine Or.inr ⟨[], ts, later, m, inner, range, _, ?_, isList, e1.trans layout, e2.trans at_range,
      read, fun stack nested => ⟨rfl, ?_⟩⟩
    · rw [List.nil_append, List.length_nil, Nat.zero_add]
    · rw [window_eq] at nested
      exact (isList.nested nested).1
  · obtain ⟨rfl, rfl⟩ := Statement.mk.inj cut
    refine Or.inr ⟨ts ++ front, ts', later', m', inner', range', q₁, ?_, isList', layout',
      at_range', rest, fun stack nested => ?_⟩
    · rw [List.append_assoc, List.length_append, Nat.add_assoc]
    · rw [window_eq] at nested
      obtain ⟨first, second⟩ := isList.nested nested
      obtain ⟨third, fourth⟩ := closed stack second
      refine ⟨?_, fourth⟩
      rw [marks_append, ← List.nil_append [], nested_append [] first, third]

theorem exists_list_of_read (h : Qualifiers.read source q s = some (p, r)) :
    ReadsList source q p s r := by
  induction len : s.size using Nat.strongRecOn generalizing s q with
  | ind size ih =>
    cases head : s.head? with
    | none =>
      rw [Qualifiers.read_of_nil source q head] at h
      obtain ⟨rfl, -⟩ := Prod.mk.inj (Option.some.inj h)
      exact Or.inl ⟨rfl, rfl⟩
    | some t =>
      have positive := size_pos head
      cases list : Qualifiers.startsList s with
      | false =>
        rcases Qualifiers.note?_alike (.refl q) t 0 0 with ⟨other, -⟩ | ⟨q', -, noted, -, -, kept, -⟩
        · rw [Qualifiers.read_of_other source head list other] at h
          obtain ⟨rfl, -⟩ := Prod.mk.inj (Option.some.inj h)
          exact Or.inl ⟨rfl, rfl⟩
        · rw [Qualifiers.read_of_word source head list noted] at h
          exact .of_word head noted kept
            (ih (s.drop 1).size (by simp only [Statement.drop]; omega) h rfl)
      | true =>
        by_cases inside : ∃ n, closeOffset? (s.tokens.drop 1) = some n ∧ n + 1 < s.size
        · obtain ⟨n, found, inside⟩ := inside
          obtain ⟨ts, later, m, inner, range, rfl, -, isList⟩ := exists_isList list found inside source
          have some_token := isList.length_pos
          rw [isList.read] at h
          simp only at len
          exact .of_list isList rfl rfl h (ih m (by omega) h rfl)
        · rw [Qualifiers.read_of_open_list q list] at h
          · cases h
          · intro n found
            exact Nat.not_lt.1 fun lt => inside ⟨n, found, lt⟩

end Read

theorem range_of_read {source : Text} {q p : Qualifiers} {s r : Statement}
    (h : Qualifiers.read source q s = some (p, r)) :
    p.layoutRange = q.layoutRange ∨ ∃ x ∈ s.window, ∃ y ∈ s.window,
      p.layoutRange = some (x.start, y.stop) := by
  rcases exists_list_of_read h with kept | ⟨front, ts, later, m, inner, range, -, rfl, isList, -, at_range, -⟩
  · exact Or.inl kept.2
  · obtain ⟨x, y, body, close, rfl, -, -, -, -, rfl⟩ := isList
    have inside : ∀ t ∈ x :: y :: (body ++ [close]), t ∈ Statement.window
        ⟨front ++ (x :: y :: (body ++ [close]) ++ later),
          front.length + ((x :: y :: (body ++ [close])).length + m)⟩ := by
      intro t ht
      rw [window, List.take_length_add_append, List.take_length_add_append]
      exact List.mem_append_right _ (List.mem_append_left _ ht)
    exact Or.inr ⟨x, inside x (by simp), close, inside close (by simp), at_range⟩

theorem IsList.startsList_append {source : Text} {ts : List Token} {inner : Text}
    {range : Nat × Nat} (h : IsList source ts inner range) (x : Token) (f tail : List Token) (m : Nat) :
    Qualifiers.startsList ⟨x :: f ++ (ts ++ tail), (x :: f).length + (ts.length + m)⟩ =
      Qualifiers.startsList ⟨x :: f, (x :: f).length⟩ := by
  obtain ⟨x', y, body, close, rfl, named, -⟩ := h
  have size : (x :: f).length + ((x' :: y :: (body ++ [close])).length + m) =
      f.length + (body.length + 2 + m + 1) + 1 := by
    simp only [List.length_cons, List.length_append, List.length_nil]
    omega
  rw [size, List.cons_append, Qualifiers.startsList_cons, List.length_cons,
    Qualifiers.startsList_cons]
  congr 1
  cases f with
  | nil =>
    have lexeme : x'.lexeme = "layout".toList := by
      rw [← named, Token.name, String.toList_ofList]
    show x'.isPunct '(' = false
    simp [isPunct, lexeme]
  | cons y' f =>
    rw [startsWith, Statement.head?, if_neg (by simp)]
    rfl

theorem IsList.of_text {source source' : Text} {ts : List Token} {inner : Text} {range : Nat × Nat}
    (h : IsList source ts inner range) (text : ∀ x ∈ ts, ∀ y ∈ ts,
      Text.slice x.stop y.start source' = Text.slice x.stop y.start source) :
    IsList source' ts inner range := by
  obtain ⟨x, y, body, close, rfl, named, opens, found, rfl, at_range⟩ := h
  exact ⟨x, y, body, close, rfl, named, opens, found,
    (text y (by simp) close (by simp)).symm, at_range⟩

theorem closeOffset?_of_front {x : Token} {f later : List Token} {n : Nat}
    (list : Qualifiers.startsList ⟨x :: f, (x :: f).length⟩ = true)
    (found : closeOffset? (f ++ later) = some n) (short : n < f.length) :
    closeOffset? f = some n := by
  rw [List.length_cons, Qualifiers.startsList_cons, Bool.and_eq_true] at list
  obtain ⟨y, head, opens⟩ := exists_of_startsWith list.2
  obtain ⟨f, rfl⟩ := List.head?_eq_some_iff.1 (head?_tokens head)
  exact closeOffset?_of_append (b := paren) (by decide) opens found short

section Around

variable {source : Text} {front ts tail : List Token} {inner : Text} {range : Nat × Nat}

theorem IsList.start_eq (h : IsList source ts inner range) {x : Token} {us : List Token}
    (cut : x :: us = ts ++ tail) : range.1 = x.start := by
  obtain ⟨x', y, body, close, rfl, -, -, -, -, rfl⟩ := h
  exact congrArg Token.start (List.cons.inj cut).1.symm

theorem IsList.start_lt (h : IsList source ts inner range) (ordered : Ordered (front ++ (ts ++ tail)))
    {x : Token} (hx : x ∈ front) : x.start < range.1 := by
  obtain ⟨x', y, body, close, rfl, -, -, -, -, rfl⟩ := h
  have filled := ordered.2 x (List.mem_append_left _ hx)
  have apart := (List.pairwise_append.1 ordered.1).2.2 x hx x' (by simp)
  exact Nat.lt_of_lt_of_le filled apart

theorem IsList.lt_start (h : IsList source ts inner range) (ordered : Ordered (front ++ (ts ++ tail)))
    {held later : List Token} (cut : front ++ (ts ++ tail) = held ++ later)
    (long : front.length < held.length) {k : Token} (hk : k ∈ later) : range.1 < k.start := by
  obtain ⟨x', y, body, close, rfl, -, -, -, -, rfl⟩ := h
  have x'_mem : x' ∈ held := by
    have at_x' : (held ++ later)[front.length]? = some x' := by
      rw [← cut, List.getElem?_append_right (Nat.le_refl _)]
      simp
    rw [List.getElem?_append_left long] at at_x'
    exact List.mem_of_getElem? at_x'
  rw [cut] at ordered
  have filled := ordered.2 x' (List.mem_append_left _ x'_mem)
  have apart := (List.pairwise_append.1 ordered.1).2.2 x' x'_mem k hk
  exact Nat.lt_of_lt_of_le filled apart

theorem IsList.ne_of_read (h : IsList source ts inner range) (ordered : Ordered (front ++ (ts ++ tail)))
    {held later : List Token} (cut : front ++ (ts ++ tail) = held ++ later)
    (long : front.length < held.length) {q p : Qualifiers} {r : Statement} {m : Nat}
    (fresh : ∀ range', q.layoutRange = some range' → range'.1 < range.1)
    (read : Qualifiers.read source q ⟨later, m⟩ = some (p, r)) : p.layoutRange ≠ some range := by
  intro counts
  rcases range_of_read read with kept | ⟨x, hx, y, -, at_range⟩
  · exact Nat.lt_irrefl _ (fresh range (kept.symm.trans counts))
  · have behind := h.lt_start ordered cut long (List.mem_of_mem_take hx)
    rw [Option.some.inj (counts.symm.trans at_range)] at behind
    exact Nat.lt_irrefl _ behind

end Around

section Front

variable {source source' : Text} {before after tail f : List Token} {inner inner' : Text}
  {range range' : Nat × Nat} {x : Token} {m : Nat} {q p : Qualifiers} {r : Statement}

theorem head?_cons_append (x : Token) (f us : List Token) (size : Nat) :
    Statement.head? ⟨x :: f ++ us, (x :: f).length + size⟩ = some x := by
  rw [Statement.head?, if_neg (by simp)]
  rfl

theorem drop_cons_append (x : Token) (f us : List Token) (size : Nat) :
    Statement.drop ⟨x :: f ++ us, (x :: f).length + size⟩ 1 = ⟨f ++ us, f.length + size⟩ := by
  simp [Statement.drop, Nat.add_right_comm]

theorem exists_note_of_read (old : IsList source before inner range) (new : IsList source' after inner' range')
    (list : Qualifiers.startsList ⟨x :: f, (x :: f).length⟩ = false)
    (h : Qualifiers.read source q ⟨x :: f ++ (before ++ tail), (x :: f).length + (before.length + m)⟩ =
      some (p, r)) (counts : p.layoutRange ≠ q.layoutRange) (tail' : List Token) :
    ∃ q', q'.layoutRange = q.layoutRange ∧
      Qualifiers.read source q' ⟨f ++ (before ++ tail), f.length + (before.length + m)⟩ = some (p, r) ∧
      Qualifiers.read source' q ⟨x :: f ++ (after ++ tail'), (x :: f).length + (after.length + m)⟩ =
        Qualifiers.read source' q' ⟨f ++ (after ++ tail'), f.length + (after.length + m)⟩ := by
  have list₁ := (old.startsList_append x f tail m).trans list
  have list₂ := (new.startsList_append x f tail' m).trans list
  rcases Qualifiers.note?_alike (.refl q) x 0 0 with ⟨other, -⟩ | ⟨q', -, noted, -, -, kept, -⟩
  · rw [Qualifiers.read_of_other source (head?_cons_append x f _ _) list₁ other] at h
    obtain ⟨rfl, -⟩ := Prod.mk.inj (Option.some.inj h)
    exact absurd rfl counts
  · rw [Qualifiers.read_of_word source (head?_cons_append x f _ _) list₁ noted, drop_cons_append] at h
    refine ⟨q', kept.2, h, ?_⟩
    rw [Qualifiers.read_of_word source' (head?_cons_append x f _ _) list₂ noted, drop_cons_append]

theorem closeOffset?_of_counts (old : IsList source before inner range)
    (ordered : Ordered (x :: f ++ (before ++ tail)))
    (list : Qualifiers.startsList ⟨x :: f, (x :: f).length⟩ = true)
    (h : Qualifiers.read source q ⟨x :: f ++ (before ++ tail), (x :: f).length + (before.length + m)⟩ =
      some (p, r)) (counts : p.layoutRange = some range) :
    ∃ n, closeOffset? f = some n ∧ n < f.length := by
  have list₁ := (old.startsList_append x f tail m).trans list
  by_cases inside : ∃ n, closeOffset? (f ++ (before ++ tail)) = some n ∧
      n + 1 < (x :: f).length + (before.length + m)
  swap
  · rw [Qualifiers.read_of_open_list q list₁] at h
    · cases h
    · intro n found
      exact Nat.not_lt.1 fun lt => inside ⟨n, found, lt⟩
  obtain ⟨n, found, inside⟩ := inside
  by_cases short : n < f.length
  · exact ⟨n, closeOffset?_of_front list found short, short⟩
  · -- The list takes the other one in, which then does not count.
    obtain ⟨ts, later, m', inner₁, range₁, cut, size, isList⟩ := exists_isList list₁ found inside source
    rw [cut, isList.read] at h
    obtain ⟨cut, -⟩ := Statement.mk.inj cut
    refine absurd counts (old.ne_of_read ordered cut ?_ (fun range' at_range => ?_) h)
    · rw [size, List.length_cons]
      omega
    · rw [← Option.some.inj at_range, isList.start_eq cut]
      exact old.start_lt ordered List.mem_cons_self

theorem exists_list_of_closeOffset? (text : ∀ y ∈ x :: f, ∀ z ∈ x :: f,
      Text.slice y.stop z.start source' = Text.slice y.stop z.start source)
    (list : Qualifiers.startsList ⟨x :: f, (x :: f).length⟩ = true) {n : Nat}
    (found : closeOffset? f = some n) (short : n < f.length)
    (h : Qualifiers.read source q ⟨x :: f ++ (before ++ tail), (x :: f).length + (before.length + m)⟩ =
      some (p, r)) (tail' : List Token) :
    ∃ ts later q' range₁, x :: f = ts ++ later ∧ 0 < ts.length ∧ q'.layoutRange = some range₁ ∧
      range₁.1 = x.start ∧
      Qualifiers.read source q' ⟨later ++ (before ++ tail), later.length + (before.length + m)⟩ =
        some (p, r) ∧
      Qualifiers.read source' q ⟨x :: f ++ (after ++ tail'), (x :: f).length + (after.length + m)⟩ =
        Qualifiers.read source' q' ⟨later ++ (after ++ tail'), later.length + (after.length + m)⟩ := by
  obtain ⟨ts, later, m', inner₁, range₁, cut, -, isList⟩ := exists_isList
    (s := ⟨x :: f, (x :: f).length⟩) list found (Nat.succ_lt_succ short) source
  obtain ⟨cut, size⟩ := Statement.mk.inj cut
  have isList' : IsList source' ts inner₁ range₁ := isList.of_text fun y hy z hz =>
    text y (cut ▸ List.mem_append_left _ hy) z (cut ▸ List.mem_append_left _ hz)
  have regroup (us : List Token) (k : Nat) : (⟨x :: f ++ us, (x :: f).length + k⟩ : Statement) =
      ⟨ts ++ (later ++ us), ts.length + (later.length + k)⟩ := by
    rw [cut, List.append_assoc, List.length_append, Nat.add_assoc]
  rw [regroup, isList.read] at h
  refine ⟨ts, later, _, range₁, cut, isList.length_pos, rfl, isList.start_eq cut, h, ?_⟩
  rw [regroup, isList'.read]

theorem read_front_step (old : IsList source before inner range) (new : IsList source' after inner' range')
    (ordered : Ordered (x :: f ++ (before ++ tail)))
    (text : ∀ y ∈ x :: f, ∀ z ∈ x :: f,
      Text.slice y.stop z.start source' = Text.slice y.stop z.start source)
    (fresh : ∀ range', q.layoutRange = some range' → range'.1 < range.1)
    (h : Qualifiers.read source q ⟨x :: f ++ (before ++ tail), (x :: f).length + (before.length + m)⟩ =
      some (p, r)) (counts : p.layoutRange = some range) (tail' : List Token) :
    ∃ ts later q', x :: f = ts ++ later ∧ 0 < ts.length ∧
      (∀ range', q'.layoutRange = some range' → range'.1 < range.1) ∧
      Qualifiers.read source q' ⟨later ++ (before ++ tail), later.length + (before.length + m)⟩ =
        some (p, r) ∧
      Qualifiers.read source' q ⟨x :: f ++ (after ++ tail'), (x :: f).length + (after.length + m)⟩ =
        Qualifiers.read source' q' ⟨later ++ (after ++ tail'), later.length + (after.length + m)⟩ := by
  cases list : Qualifiers.startsList ⟨x :: f, (x :: f).length⟩ with
  | false =>
    have later : p.layoutRange ≠ q.layoutRange := fun same =>
      Nat.lt_irrefl _ (fresh range (same.symm.trans counts))
    obtain ⟨q', kept, read, read'⟩ := exists_note_of_read old new list h later tail'
    exact ⟨[x], f, q', rfl, Nat.one_pos, fun range' at_range => fresh range' (kept ▸ at_range), read, read'⟩
  | true =>
    obtain ⟨n, found, short⟩ := closeOffset?_of_counts old ordered list h counts
    obtain ⟨ts, later, q', range₁, cut, positive, at_range, start, read, read'⟩ :=
      exists_list_of_closeOffset? text list found short h tail'
    refine ⟨ts, later, q', cut, positive, fun range' at_range' => ?_, read, read'⟩
    rw [← Option.some.inj (at_range.symm.trans at_range'), start]
    exact old.start_lt ordered List.mem_cons_self

/-- Two statements that differ from a layout list on are read alike up to that list, if it is the one
that counts. -/
theorem read_front (old : IsList source before inner range)
    (new : IsList source' after inner' range') {front : List Token}
    (ordered : Ordered (front ++ (before ++ tail)))
    (text : ∀ x ∈ front, ∀ y ∈ front,
      Text.slice x.stop y.start source' = Text.slice x.stop y.start source)
    (fresh : ∀ range', q.layoutRange = some range' → range'.1 < range.1)
    (h : Qualifiers.read source q ⟨front ++ (before ++ tail), front.length + (before.length + m)⟩ =
      some (p, r)) (counts : p.layoutRange = some range) (tail' : List Token) :
    ∃ q', Qualifiers.read source q' ⟨before ++ tail, before.length + m⟩ = some (p, r) ∧
      Qualifiers.read source' q ⟨front ++ (after ++ tail'), front.length + (after.length + m)⟩ =
        Qualifiers.read source' q' ⟨after ++ tail', after.length + m⟩ := by
  induction len : front.length using Nat.strongRecOn generalizing front q with
  | ind n ih =>
    subst len
    cases front with
    | nil =>
      rw [List.length_nil, Nat.zero_add, List.nil_append] at h
      rw [List.length_nil, Nat.zero_add, List.nil_append]
      exact ⟨q, h, rfl⟩
    | cons x f =>
      obtain ⟨ts, later, q', cut, positive, fresh', read, step⟩ :=
        read_front_step old new ordered text fresh h counts tail'
      rw [cut, List.append_assoc] at ordered
      have shorter : later.length < (x :: f).length := by
        rw [cut, List.length_append]
        omega
      obtain ⟨q'', here, rest⟩ := ih later.length shorter (ordered.sublist (List.sublist_append_right _ _))
        (fun y hy z hz => text y (cut ▸ List.mem_append_right _ hy) z (cut ▸ List.mem_append_right _ hz))
        fresh' read rfl
      exact ⟨q'', here, step.trans rest⟩

end Front

end ShaderPass.Declaration
