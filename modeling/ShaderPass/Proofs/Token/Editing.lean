import ShaderPass.Proofs.Text.Arguments
import ShaderPass.Proofs.Token.Locality
import ShaderPass.Proofs.Token.Relocation

/-! The tokens of a text with a stretch exchanged: those in front of it stay, those behind it move. -/
namespace ShaderPass.Token

def flat (ps : List (TokenKind × Text)) : Text :=
  (ps.map Prod.snd).flatten

def sig (n : Nat) (ps : List (TokenKind × Text)) : List Token :=
  (place n ps).filter fun token => !token.isTrivia

theorem flat_append (ps qs : List (TokenKind × Text)) : flat (ps ++ qs) = flat ps ++ flat qs := by
  rw [flat, List.map_append, List.flatten_append, flat, flat]

theorem flat_cons (kind : TokenKind) (lexeme : Text) (ps : List (TokenKind × Text)) :
    flat ((kind, lexeme) :: ps) = lexeme ++ flat ps := rfl

theorem sig_append (n : Nat) (ps qs : List (TokenKind × Text)) :
    sig n (ps ++ qs) = sig n ps ++ sig (n + Text.byteLen (flat ps)) qs := by
  rw [sig, place_append, List.filter_append, sig, sig, flat]

theorem sig_cons (n : Nat) (kind : TokenKind) (lexeme : Text) (ps : List (TokenKind × Text)) :
    sig n ((kind, lexeme) :: ps) =
      if kind = .comment ∨ kind = .blank then sig (n + Text.byteLen lexeme) ps
      else ⟨kind, lexeme, n⟩ :: sig (n + Text.byteLen lexeme) ps := by
  rw [sig, place, List.filter_cons]
  by_cases trivia : kind = .comment ∨ kind = .blank
  · rw [if_pos trivia, if_neg (by rcases trivia with rfl | rfl <;> simp [isTrivia]), sig]
  · rw [if_neg trivia, if_pos (by simpa [isTrivia] using trivia), sig]

theorem sig_eq_map_move (z z' : Nat) (ps : List (TokenKind × Text)) :
    sig z' ps = (sig z ps).map (move z z') := by
  rw [sig, place_eq_map_move z z', List.filter_map, sig]
  rfl

theorem start_le_of_mem_sig {n : Nat} {ps : List (TokenKind × Text)} {token : Token}
    (h : token ∈ sig n ps) : n ≤ token.start :=
  start_le_of_mem_place (List.mem_filter.1 h).1

theorem mem_of_mem_sig {n : Nat} {ps : List (TokenKind × Text)} {token : Token}
    (h : token ∈ sig n ps) : (token.kind, token.lexeme) ∈ ps := by
  have placed := (List.mem_filter.1 h).1
  clear h
  induction ps generalizing n with
  | nil => simp [place] at placed
  | cons p ps ih =>
    rw [place, List.mem_cons] at placed
    rcases placed with rfl | placed
    · exact List.mem_cons_self
    · exact List.mem_cons_of_mem _ (ih placed)

theorem exists_of_sig_eq {n : Nat} {ps : List (TokenKind × Text)} {front later : List Token}
    {k : Token} (h : sig n ps = front ++ k :: later) :
    ∃ qs rs, ps = qs ++ (k.kind, k.lexeme) :: rs ∧ sig n qs = front ∧
      k.start = n + Text.byteLen (flat qs) ∧ sig k.stop rs = later := by
  induction ps generalizing n front with
  | nil => simp [sig, place] at h
  | cons p ps ih =>
    obtain ⟨kind, lexeme⟩ := p
    rw [sig_cons] at h
    by_cases trivia : kind = .comment ∨ kind = .blank
    · rw [if_pos trivia] at h
      obtain ⟨qs, rs, rfl, front_eq, start, later_eq⟩ := ih h
      refine ⟨(kind, lexeme) :: qs, rs, rfl, ?_, ?_, later_eq⟩
      · rw [sig_cons, if_pos trivia, front_eq]
      · rw [flat_cons, Text.byteLen_append, start, Nat.add_assoc]
    · rw [if_neg trivia] at h
      cases front with
      | nil =>
        obtain ⟨rfl, later_eq⟩ := List.cons.inj h
        exact ⟨[], ps, rfl, rfl, rfl, later_eq⟩
      | cons first front =>
        obtain ⟨rfl, rest⟩ := List.cons.inj h
        obtain ⟨qs, rs, rfl, front_eq, start, later_eq⟩ := ih rest
        refine ⟨(kind, lexeme) :: qs, rs, rfl, ?_, ?_, later_eq⟩
        · rw [sig_cons, if_neg trivia, front_eq]
        · rw [flat_cons, Text.byteLen_append, start, Nat.add_assoc]

theorem pieces_rest {lineStart : Bool} {t : Text} {qs rs : List (TokenKind × Text)}
    {p : TokenKind × Text} (cut : pieces lineStart t = qs ++ p :: rs) :
    ∃ other, pieces other (flat rs) = rs ∧ (p.1 = .punct → other = false) := by
  induction qs generalizing lineStart t with
  | nil =>
    cases t with
    | nil => simp [pieces] at cut
    | cons c t =>
      have whole := flatten_pieces lineStart (c :: t)
      rw [pieces_cons] at cut
      obtain ⟨first, later⟩ := List.cons.inj cut
      have text : flat rs = t.drop (classify lineStart c t).2 := by
        rw [← later]
        exact flatten_pieces _ _
      refine ⟨startsLine lineStart p.1 p.2, ?_, ?_⟩
      · rw [text, ← first]
        exact later
      · intro punct
        rw [punct]
        rfl
  | cons q qs ih =>
    cases t with
    | nil => simp [pieces] at cut
    | cons c t =>
      rw [pieces_cons] at cut
      exact ih (List.cons.inj cut).2

def isMark (c : Char) : Bool :=
  !isIdentChar c && !isTokenBlank c && c ≠ '.' && c ≠ '+' && c ≠ '-'

theorem isMark_of_isIdentChar {c : Char} (h : isIdentChar c = true) : isMark c = false := by
  simp [isMark, h]

theorem classify_of_isIdentStart {c : Char} (start : isIdentStart c = true) (lineStart : Bool)
    (t : Text) : (classify lineStart c t).1 = .identifier := by
  simp [classify, isTokenBlank_of_isIdentStart start, start,
    ne_of_isIdentStart start (show isIdentStart '#' = false from rfl),
    ne_of_isIdentStart start (show isIdentStart '/' = false from rfl)]

theorem shape_of_classify {lineStart : Bool} {c : Char} {t : Text} {kind : TokenKind} {more : Nat}
    (h : classify lineStart c t = (kind, more)) :
    (kind = .punct ∧ more = 0) ∨ kind = .comment ∨ kind = .directive ∨
      kind ≠ .punct ∧ ∀ d ∈ c :: t.take more, isMark d = false := by
  have spread {p : Char → Bool} (first : p c = true) (each : ∀ d, p d = true → isMark d = false)
      (size : more = (t.takeWhile p).length) : ∀ d ∈ c :: t.take more, isMark d = false := by
    intro d hd
    rcases List.mem_cons.1 hd with rfl | hd
    · exact each d first
    · rw [size, take_length_takeWhile] at hd
      exact each d (List.all_eq_true.1 List.all_takeWhile d hd)
  cases starts_of_classify h with
  | blank blank =>
    refine Or.inr (Or.inr (Or.inr ⟨nofun, spread blank (fun d hd => ?_) rfl⟩))
    simp [isMark, hd]
  | comment => exact Or.inr (Or.inl rfl)
  | directive => exact Or.inr (Or.inr (Or.inl rfl))
  | identifier start =>
    exact Or.inr (Or.inr (Or.inr ⟨nofun, spread (isIdentChar_of_isIdentStart start)
      (fun d hd => isMark_of_isIdentChar hd) rfl⟩))
  | number _ start =>
    refine Or.inr (Or.inr (Or.inr ⟨nofun, fun d hd => ?_⟩))
    rcases List.mem_cons.1 hd with rfl | hd
    · rcases start with digit | ⟨rfl, -⟩
      · exact isMark_of_isIdentChar (by simp [isIdentChar, Char.isAlphanum, digit])
      · rfl
    · rcases mem_take_numberLength hd with ident | rfl | rfl | rfl
      · exact isMark_of_isIdentChar ident
      · rfl
      · rfl
      · rfl
  | punct => exact Or.inl ⟨rfl, rfl⟩

theorem shape_of_mem_pieces {lineStart : Bool} {t : Text} {kind : TokenKind} {lexeme : Text}
    (h : (kind, lexeme) ∈ pieces lineStart t) :
    (kind = .punct ∧ ∃ c, lexeme = [c]) ∨ kind = .comment ∨ kind = .directive ∨
      kind ≠ .punct ∧ ∀ d ∈ lexeme, isMark d = false := by
  fun_induction pieces lineStart t with
  | case1 => simp at h
  | case2 lineStart c t kind' more classified lexeme' ih =>
    rcases List.mem_cons.1 h with h | h
    · obtain ⟨rfl, rfl⟩ := Prod.mk.inj h
      rcases shape_of_classify classified with ⟨punct, rfl⟩ | shape
      · exact Or.inl ⟨punct, c, rfl⟩
      · exact Or.inr shape
    · exact ih h

theorem lexeme_of_isPunct {t : Text} {k : Token} (member : k ∈ significant t) {c : Char}
    (punct : k.isPunct c = true) : k.lexeme = [c] := by
  have piece := mem_pieces_of_mem_significant member
  rw [isPunct, Bool.and_eq_true, decide_eq_true_eq, decide_eq_true_eq] at punct
  rcases shape_of_mem_pieces piece with ⟨-, d, lexeme⟩ | comment | directive | ⟨other, -⟩
  · rw [lexeme, List.head?_cons, Option.some.injEq] at punct
    rw [lexeme, punct.2]
  · exact absurd (punct.1.symm.trans comment) (by decide)
  · exact absurd (punct.1.symm.trans directive) (by decide)
  · exact absurd punct.1 other

theorem identifier_of_mem_pieces {lineStart : Bool} {t : Text} {kind : TokenKind} {c : Char}
    {lexeme : Text} (h : (kind, c :: lexeme) ∈ pieces lineStart t) (start : isIdentStart c = true) :
    kind = .identifier := by
  fun_induction pieces lineStart t with
  | case1 => simp at h
  | case2 lineStart c' t kind' more classified lexeme' ih =>
    rcases List.mem_cons.1 h with h | h
    · obtain ⟨rfl, same⟩ := Prod.mk.inj h
      obtain ⟨rfl, -⟩ := List.cons.inj same
      have := classify_of_isIdentStart start lineStart t
      rw [classified] at this
      exact this
    · exact ih h

theorem isIdentStart_of_mem_pieces {lineStart : Bool} {t : Text} {kind : TokenKind} {lexeme : Text}
    (h : (kind, lexeme) ∈ pieces lineStart t) (identifier : kind = .identifier) :
    ∃ c rest, lexeme = c :: rest ∧ isIdentStart c = true := by
  fun_induction pieces lineStart t with
  | case1 => simp at h
  | case2 lineStart c t kind' more classified lexeme' ih =>
    rcases List.mem_cons.1 h with h | h
    · obtain ⟨rfl, rfl⟩ := Prod.mk.inj h
      refine ⟨c, _, rfl, ?_⟩
      subst identifier
      exact (name_of_classify classified).1
    · exact ih h

theorem filter_marks_sig {p : Char → Bool} (only : ∀ c, p c = true → isMark c = true)
    {lineStart : Bool} {t : Text} {ps : List (TokenKind × Text)}
    (inside : ∀ q ∈ ps, q ∈ pieces lineStart t)
    (kinds : ∀ q ∈ ps, q.1 ≠ .comment ∧ q.1 ≠ .directive) (n : Nat) :
    (marks (sig n ps)).filter p = (flat ps).filter p := by
  induction ps generalizing n with
  | nil => rfl
  | cons q ps ih =>
    obtain ⟨kind, lexeme⟩ := q
    obtain ⟨no_comment, no_directive⟩ := kinds _ List.mem_cons_self
    have rest := ih (fun q hq => inside q (List.mem_cons_of_mem _ hq))
      (fun q hq => kinds q (List.mem_cons_of_mem _ hq)) (n + Text.byteLen lexeme)
    rw [sig_cons, flat_cons, List.filter_append, ← rest]
    rcases shape_of_mem_pieces (inside _ List.mem_cons_self) with
      ⟨rfl, c, rfl⟩ | comment | directive | ⟨no_punct, plain⟩
    · rw [if_neg (by simp), marks_cons_of_some (by rfl : _ = some c), List.filter_cons, List.filter_cons]
      split <;> rfl
    · exact absurd comment no_comment
    · exact absurd directive no_directive
    · have nothing : lexeme.filter p = [] := by
        rw [List.filter_eq_nil_iff]
        intro c hc holds
        have := plain c hc
        rw [only c holds] at this
        cases this
      rw [nothing, List.nil_append]
      split
      · rfl
      · rw [marks_cons_of_none (by simp [mark?, no_punct])]

theorem exists_pieces_suffix {lineStart : Bool} {t : Text} {qs rs : List (TokenKind × Text)}
    (cut : pieces lineStart t = qs ++ rs) : ∃ other, pieces other (flat rs) = rs := by
  rcases List.eq_nil_or_concat qs with rfl | ⟨qs, p, rfl⟩
  · rw [List.nil_append] at cut
    have text : flat rs = t := by
      rw [← cut]
      exact flatten_pieces _ _
    exact ⟨lineStart, by rw [text, cut]⟩
  · rw [List.concat_append] at cut
    obtain ⟨other, rest, -⟩ := pieces_rest cut
    exact ⟨other, rest⟩

def layoutWord : Text := ['l', 'a', 'y', 'o', 'u', 't']

def listed (inner : Text) : Text :=
  layoutWord ++ '(' :: (inner ++ [')'])

def listTokens (a : Nat) (ps : List (TokenKind × Text)) : List Token :=
  ⟨.identifier, layoutWord, a⟩ :: ⟨.punct, ['('], a + 6⟩ ::
    (sig (a + 7) ps ++ [⟨.punct, [')'], a + 7 + Text.byteLen (flat ps)⟩])

theorem byteLen_layoutWord : Text.byteLen layoutWord = 6 := by decide

theorem byteLen_listed (inner : Text) : Text.byteLen (listed inner) = Text.byteLen inner + 8 := by
  have opening : '('.utf8Size = 1 := by decide
  have closing : Text.byteLen [')'] = 1 := by decide
  rw [listed, Text.byteLen_append, Text.byteLen_cons, Text.byteLen_append, byteLen_layoutWord,
    opening, closing]
  omega

theorem pieces_layoutWord (x : Text) : pieces true (layoutWord ++ '(' :: x) =
    (.identifier, layoutWord) :: (.punct, ['(']) :: pieces false x := by
  have first : classify true 'l' ('a' :: 'y' :: 'o' :: 'u' :: 't' :: '(' :: x) = (.identifier, 5) := by
    simp [classify, isTokenBlank, isIdentStart, isIdentChar, Char.isAlphanum, isAlpha_eq,
      Char.isDigit]
  have second : classify false '(' x = (.punct, 0) := by
    simp [classify, isTokenBlank, isIdentStart, isAlpha_eq, Char.isDigit]
  rw [layoutWord]
  simp only [List.cons_append, List.nil_append]
  rw [pieces_cons, first]
  simp only [List.take_succ_cons, List.take_zero, List.drop_succ_cons, List.drop_zero, startsLine]
  rw [pieces_cons, second]
  rfl

structure Fills (inner : Text) (ps : List (TokenKind × Text)) : Prop where
  text : flat ps = inner
  kinds : ∀ p ∈ ps, p.1 ≠ .comment ∧ p.1 ≠ .directive
  cut : ∃ lineStart t, ∀ p ∈ ps, p ∈ pieces lineStart t

theorem pieces_listed {inner : Text} (quiet : calm false inner = true) (v : Text) :
    ∃ ps, Fills inner ps ∧ pieces true (listed inner ++ v) =
      (.identifier, layoutWord) :: (.punct, ['(']) :: (ps ++ (.punct, [')']) :: pieces false v) := by
  obtain ⟨ps, cut, text, kinds⟩ := exists_pieces_of_calm (v := v) quiet
  refine ⟨ps, ⟨text, kinds, false, _, fun p hp => cut ▸ List.mem_append_left _ hp⟩, ?_⟩
  have regroup : listed inner ++ v = layoutWord ++ '(' :: (inner ++ ')' :: v) := by
    simp [listed]
  rw [regroup, pieces_layoutWord, cut]

/-- The tokens of a text in which a layout list stands in front of `v`, where there was an identifier. -/
theorem significant_listed {psA qs : List (TokenKind × Text)} {t : Text} {c : Char} {w : Text}
    (cut : pieces true t = psA ++ qs) (text : flat qs = c :: w) (start : isIdentStart c = true)
    {inner : Text} (quiet : calm false inner = true) (v : Text) :
    ∃ ps, Fills inner ps ∧ significant (flat psA ++ (listed inner ++ v)) =
      sig 0 psA ++ (listTokens (Text.byteLen (flat psA)) ps ++
        sig (Text.byteLen (flat psA) + Text.byteLen (listed inner)) (pieces false v)) := by
  obtain ⟨ps, fills, list⟩ := pieces_listed quiet v
  refine ⟨ps, fills, ?_⟩
  have whole : flat psA ++ c :: w = t := by
    rw [← text, ← flat_append, ← cut]
    exact flatten_pieces _ _
  obtain ⟨tail, first⟩ : ∃ tail, listed inner ++ v = 'l' :: tail := ⟨_, rfl⟩
  have front : pieces true (flat psA ++ (listed inner ++ v)) =
      psA ++ pieces true (listed inner ++ v) := by
    rw [first]
    exact pieces_front start (by decide) (whole.symm ▸ cut) tail
  have opening : Text.byteLen ['('] = 1 := by decide
  have closing : Text.byteLen [')'] = 1 := by decide
  show sig 0 (pieces true (flat psA ++ (listed inner ++ v))) = _
  rw [front, list, sig_append, Nat.zero_add, sig_cons, if_neg (by decide), sig_cons,
    if_neg (by decide), sig_append, sig_cons, if_neg (by decide), fills.text, byteLen_listed,
    byteLen_layoutWord, opening, closing, listTokens, fills.text]
  simp only [List.cons_append, List.append_assoc, List.nil_append, Nat.add_assoc]
  congr 6
  all_goals omega

theorem significant_relisted {t : Text} {front middle later : List Token} {x close : Token}
    (tokens : significant t = front ++ x :: (middle ++ close :: later))
    (identifier : x.isIdentifier = true) (punct : close.kind = .punct) {inner : Text}
    (quiet : calm false inner = true) :
    ∃ u m w ps, t = u ++ (m ++ w) ∧ Text.byteLen u = x.start ∧
      Text.byteLen u + Text.byteLen m = close.stop ∧ Fills inner ps ∧
      significant (u ++ (listed inner ++ w)) = front ++ (listTokens x.start ps ++
        later.map (move close.stop (x.start + Text.byteLen (listed inner)))) := by
  obtain ⟨psA, qs, cut, sig_front, start, sig_qs⟩ := exists_of_sig_eq tokens
  obtain ⟨psM, rs, rfl, -, start', sig_rs⟩ := exists_of_sig_eq sig_qs
  rw [Nat.zero_add] at start
  obtain ⟨c, s, lexeme, first⟩ := isIdentStart_of_mem_pieces
    (show (x.kind, x.lexeme) ∈ pieces true t by rw [cut]; simp) (of_decide_eq_true identifier)
  have rest : pieces false (flat rs) = rs := by
    have cut' : pieces true t =
        (psA ++ (x.kind, x.lexeme) :: psM) ++ (close.kind, close.lexeme) :: rs := by
      rw [cut, List.append_assoc, List.cons_append]
    obtain ⟨other, rest, after⟩ := pieces_rest cut'
    rwa [after punct] at rest
  obtain ⟨ps, fills, list⟩ := significant_listed cut (w := s ++ flat (psM ++ _ :: rs))
    (by rw [flat_cons, lexeme, List.cons_append]) first quiet (flat rs)
  refine ⟨flat psA, x.lexeme ++ (flat psM ++ close.lexeme), flat rs, ps, ?_, start.symm, ?_, fills, ?_⟩
  · have whole := flatten_pieces true t
    rw [cut] at whole
    rw [← whole]
    show flat _ = _
    simp only [flat_append, flat_cons, List.append_assoc]
  · rw [stop, start', stop, start]
    simp only [Text.byteLen_append, Nat.add_assoc]
  · rw [list, rest, sig_front, start, sig_eq_map_move close.stop, sig_rs]

theorem significant_inserted {t : Text} {front later : List Token} {k : Token}
    (tokens : significant t = front ++ k :: later) (identifier : k.isIdentifier = true) {inner : Text}
    (quiet : calm false inner = true) :
    ∃ u w ps, t = u ++ w ∧ Text.byteLen u = k.start ∧ Fills inner ps ∧
      significant (u ++ (listed inner ++ ' ' :: w)) = front ++ (listTokens k.start ps ++
        (k :: later).map (move k.start (k.start + Text.byteLen (listed inner) + 1))) := by
  obtain ⟨psA, qs, cut, sig_front, start, sig_qs⟩ := exists_of_sig_eq tokens
  rw [Nat.zero_add] at start
  obtain ⟨c, s, lexeme, first⟩ := isIdentStart_of_mem_pieces
    (show (k.kind, k.lexeme) ∈ pieces true t by rw [cut]; simp) (of_decide_eq_true identifier)
  obtain ⟨other, rest⟩ := exists_pieces_suffix cut
  have text : flat ((k.kind, k.lexeme) :: qs) = c :: (s ++ flat qs) := by
    rw [flat_cons, lexeme, List.cons_append]
  obtain ⟨ps, fills, list⟩ := significant_listed cut text first quiet
    (' ' :: flat ((k.kind, k.lexeme) :: qs))
  have blank : pieces false (' ' :: flat ((k.kind, k.lexeme) :: qs)) =
      (.blank, [' ']) :: (k.kind, k.lexeme) :: qs := by
    have single : classify false ' ' (c :: (s ++ flat qs)) = (.blank, 0) := by
      simp [classify, isTokenBlank_of_isIdentStart first, show isTokenBlank ' ' = true from rfl]
    rw [text, pieces_cons, single]
    show _ :: pieces false (c :: (s ++ flat qs)) = _
    rw [pieces_of_isIdentStart first false other, ← text, rest]
    rfl
  refine ⟨flat psA, flat ((k.kind, k.lexeme) :: qs), ps, ?_, start.symm, fills, ?_⟩
  · have whole := flatten_pieces true t
    rw [cut] at whole
    rw [← whole, ← flat_append]
    rfl
  · have space : Text.byteLen [' '] = 1 := by decide
    have here : sig k.start ((k.kind, k.lexeme) :: qs) = k :: later := by
      have kind : k.kind = .identifier := of_decide_eq_true identifier
      rw [sig_cons, if_neg (by simp [kind])]
      exact congrArg (k :: ·) sig_qs
    rw [list, blank, sig_cons, if_pos (Or.inr rfl), space, sig_front, start,
      sig_eq_map_move k.start, ← start, here]

end ShaderPass.Token
