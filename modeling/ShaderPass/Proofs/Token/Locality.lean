import ShaderPass.Proofs.Text.Runs
import ShaderPass.Proofs.Token.Classification
import ShaderPass.Proofs.Token.Position

/-! Tokenizing is local: what stands in front of an identifier is cut up in the same way whatever the
identifier is and whatever follows it, so a text can be changed from a token on without disturbing
the tokens in front. -/
namespace ShaderPass.Token

theorem isAlpha_eq (c : Char) : c.isAlpha =
    (c.val ≥ 'A'.val && c.val ≤ 'Z'.val || c.val ≥ 'a'.val && c.val ≤ 'z'.val) := by
  unfold Char.isAlpha Char.isUpper Char.isLower
  rw [Bool.decide_and]

section Identifier

variable {c : Char} (start : isIdentStart c = true)
include start

theorem ne_of_isIdentStart {d : Char} (other : isIdentStart d = false) : c ≠ d := by
  rintro rfl
  rw [start] at other
  cases other

theorem isTokenBlank_of_isIdentStart : isTokenBlank c = false := by
  rw [Bool.eq_false_iff]
  intro blank
  simp only [isTokenBlank, Bool.or_eq_true, decide_eq_true_eq] at blank
  rcases blank with (((rfl | rfl) | rfl) | rfl) | rfl <;> simp [isIdentStart] at start

theorem isDigit_of_isIdentStart : c.isDigit = false := by
  rw [Bool.eq_false_iff]
  intro digit
  simp only [isIdentStart, Bool.or_eq_true, decide_eq_true_eq, isAlpha_eq, Bool.and_eq_true,
    UInt32.le_iff_toNat_le, ge_iff_le] at start
  simp only [Char.isDigit, Bool.and_eq_true, decide_eq_true_eq, UInt32.le_iff_toNat_le,
    ge_iff_le] at digit
  have : 'A'.val.toNat = 65 := rfl
  have : 'a'.val.toNat = 97 := rfl
  have : '9'.val.toNat = 57 := rfl
  rcases start with (start | start) | rfl
  · omega
  · omega
  · simp at digit

end Identifier

section Front

variable {c d : Char} {s w x : Text} (hc : isIdentStart c = true) (hd : isIdentStart d = true)

theorem length_takeWhile_front {p : Char → Bool} (pc : p c = true)
    (short : ((s ++ c :: w).takeWhile p).length ≤ s.length) :
    ((s ++ d :: x).takeWhile p).length = ((s ++ c :: w).takeWhile p).length := by
  induction s with
  | nil => simp [pc] at short
  | cons a s ih =>
    by_cases pa : p a = true
    · simp only [List.cons_append, List.takeWhile_cons, pa, if_true, List.length_cons] at short ⊢
      rw [ih (by omega)]
    · simp [pa]

theorem blockCommentLength_cons (a : Char) (t : Text) : blockCommentLength (a :: t) =
    if a = '*' ∧ t.head? = some '/' then 2 else blockCommentLength t + 1 := by
  split
  · rename_i closes
    obtain ⟨rest, rfl⟩ := List.head?_eq_some_iff.1 closes.2
    rw [closes.1, blockCommentLength]
  · rename_i open_still
    rw [blockCommentLength]
    rintro rest rfl rfl
    exact open_still ⟨rfl, rfl⟩

theorem blockCommentLength_front (hc : c ≠ '/') (hd : d ≠ '/')
    (short : blockCommentLength (s ++ c :: w) ≤ s.length) :
    blockCommentLength (s ++ d :: x) = blockCommentLength (s ++ c :: w) := by
  induction s with
  | nil =>
    rw [List.nil_append, blockCommentLength_cons] at short
    split at short <;> simp at short
  | cons a s ih =>
    have heads : (s ++ d :: x).head? = some '/' ↔ (s ++ c :: w).head? = some '/' := by
      cases s <;> simp [hc, hd]
    simp only [List.cons_append, blockCommentLength_cons, heads, List.length_cons] at short ⊢
    split at short
    · rw [if_pos ‹_›, if_pos ‹_›]
    · rw [if_neg ‹_›, if_neg ‹_›, ih (by omega)]

theorem directiveLength_front (hc : c ≠ '\n') {continued : Bool}
    (short : directiveLength continued (s ++ c :: w) ≤ s.length) :
    directiveLength continued (s ++ d :: x) = directiveLength continued (s ++ c :: w) := by
  induction s generalizing continued with
  | nil => simp [directiveLength, hc] at short
  | cons a s ih =>
    simp only [List.cons_append, directiveLength, List.length_cons] at short ⊢
    split at short
    · split at short
      · rw [if_pos ‹_›, if_pos ‹_›, ih (by omega), if_pos ‹_›, if_pos ‹_›]
      · simp [*]
    · rw [if_neg ‹_›, if_neg ‹_›, ih (by omega)]

theorem numberLength_front (hc : isIdentChar c = true) {mark : Bool}
    (short : numberLength mark (s ++ c :: w) ≤ s.length) :
    numberLength mark (s ++ d :: x) = numberLength mark (s ++ c :: w) := by
  induction s generalizing mark with
  | nil => simp [numberLength, hc] at short
  | cons a s ih =>
    simp only [List.cons_append, numberLength, List.length_cons] at short ⊢
    split at short
    · rw [if_pos ‹_›, if_pos ‹_›, ih (by omega)]
    · rw [if_neg ‹_›, if_neg ‹_›]

theorem classify_front (hc : isIdentStart c = true) (hd : isIdentStart d = true) {lineStart : Bool}
    {a : Char} (short : (classify lineStart a (s ++ c :: w)).2 ≤ s.length) :
    classify lineStart a (s ++ d :: x) = classify lineStart a (s ++ c :: w) := by
  have head_ne {e : Char} (other : isIdentStart e = false) :
      (s ++ d :: x).head? = some e ↔ (s ++ c :: w).head? = some e := by
    have := ne_of_isIdentStart hc other
    have := ne_of_isIdentStart hd other
    cases s <;> simp [*]
  have head_digit : (s ++ d :: x).head?.any Char.isDigit = (s ++ c :: w).head?.any Char.isDigit := by
    cases s <;> simp [isDigit_of_isIdentStart hc, isDigit_of_isIdentStart hd]
  unfold classify at short ⊢
  simp only [head_ne (show isIdentStart '/' = false from rfl),
    head_ne (show isIdentStart '*' = false from rfl), head_digit] at short ⊢
  by_cases blank : isTokenBlank a = true
  · have hc' := isTokenBlank_of_isIdentStart hc
    have hd' := isTokenBlank_of_isIdentStart hd
    rw [if_pos blank, if_pos blank]
    simp [List.takeWhile_append, hc', hd']
  rw [if_neg blank] at short ⊢
  rw [if_neg blank]
  split at short
  · rename_i opens
    have pc : (decide (c ≠ '\n')) = true := decide_eq_true (ne_of_isIdentStart hc rfl)
    rw [if_pos opens, if_pos opens, length_takeWhile_front pc short]
  rename_i no_line
  rw [if_neg no_line, if_neg no_line]
  split at short
  · rename_i opens
    rw [if_pos opens, if_pos opens]
    cases s with
    | nil => simp at short
    | cons b s =>
      simp only [List.cons_append, List.drop_succ_cons, List.drop_zero, List.length_cons] at short ⊢
      have inner : blockCommentLength (s ++ c :: w) ≤ s.length := by omega
      rw [blockCommentLength_front (ne_of_isIdentStart hc rfl) (ne_of_isIdentStart hd rfl) inner]
  rename_i no_block
  rw [if_neg no_block, if_neg no_block]
  split at short
  · rename_i opens
    rw [if_pos opens, if_pos opens, directiveLength_front (ne_of_isIdentStart hc rfl) short]
  rename_i no_directive
  rw [if_neg no_directive, if_neg no_directive]
  split at short
  · rename_i opens
    rw [if_pos opens, if_pos opens, length_takeWhile_front (isIdentChar_of_isIdentStart hc) short]
  rename_i no_identifier
  rw [if_neg no_identifier, if_neg no_identifier]
  split at short
  · rename_i opens
    rw [if_pos opens, if_pos opens, numberLength_front (isIdentChar_of_isIdentStart hc) short]
  · rename_i no_number
    rw [if_neg no_number, if_neg no_number]

end Front

theorem pieces_cons (lineStart : Bool) (c : Char) (t : Text) : pieces lineStart (c :: t) =
    ((classify lineStart c t).1, c :: t.take (classify lineStart c t).2) ::
      pieces (startsLine lineStart (classify lineStart c t).1 (c :: t.take (classify lineStart c t).2))
        (t.drop (classify lineStart c t).2) := by
  rw [pieces]

theorem pieces_of_isIdentStart {c : Char} (start : isIdentStart c = true) (lineStart other : Bool)
    (t : Text) : pieces lineStart (c :: t) = pieces other (c :: t) := by
  have same : classify lineStart c t = classify other c t := by
    simp [classify, ne_of_isIdentStart start (show isIdentStart '#' = false from rfl)]
  have kind : (classify other c t).1 = .identifier := by
    simp [classify, isTokenBlank_of_isIdentStart start, start,
      ne_of_isIdentStart start (show isIdentStart '#' = false from rfl),
      ne_of_isIdentStart start (show isIdentStart '/' = false from rfl)]
  rw [pieces_cons, pieces_cons, same, kind]
  rfl

theorem classify_of_pieces {lineStart : Bool} {kind : TokenKind} {lexeme rest : Text}
    {ps : List (TokenKind × Text)} (more : rest ≠ [])
    (cut : pieces lineStart (lexeme ++ rest) = (kind, lexeme) :: ps) :
    ∃ a s, lexeme = a :: s ∧ classify lineStart a (s ++ rest) = (kind, s.length) ∧
      pieces (startsLine lineStart kind lexeme) rest = ps := by
  cases lexeme with
  | nil =>
    obtain ⟨a, s, rfl⟩ := List.exists_cons_of_ne_nil more
    rw [List.nil_append, pieces_cons] at cut
    simp at cut
  | cons a s =>
    rw [List.cons_append, pieces_cons] at cut
    obtain ⟨first, later⟩ := List.cons.inj cut
    obtain ⟨kind_eq, lexeme_eq⟩ := Prod.mk.inj first
    have size : (classify lineStart a (s ++ rest)).2 = s.length := by
      have len := congrArg List.length (List.cons.inj lexeme_eq).2
      have positive := List.length_pos_iff.2 more
      simp only [List.length_take, List.length_append] at len
      omega
    rw [size, List.take_left, List.drop_left, kind_eq] at later
    exact ⟨a, s, rfl, Prod.ext kind_eq size, later⟩

theorem pieces_front {c d : Char} (hc : isIdentStart c = true) (hd : isIdentStart d = true)
    {lineStart : Bool} {ps qs : List (TokenKind × Text)} {w : Text}
    (cut : pieces lineStart ((ps.map Prod.snd).flatten ++ c :: w) = ps ++ qs) (x : Text) :
    pieces lineStart ((ps.map Prod.snd).flatten ++ d :: x) = ps ++ pieces true (d :: x) := by
  induction ps generalizing lineStart with
  | nil => exact pieces_of_isIdentStart hd _ _ _
  | cons p ps ih =>
    obtain ⟨kind, lexeme⟩ := p
    simp only [List.map_cons, List.flatten_cons, List.append_assoc] at cut ⊢
    obtain ⟨a, s, rfl, first, later⟩ := classify_of_pieces (by simp) cut
    have same : classify lineStart a (s ++ ((ps.map Prod.snd).flatten ++ d :: x)) =
        (kind, s.length) := by
      rw [← List.append_assoc] at first ⊢
      rw [← first]
      apply classify_front hc hd
      rw [first, List.length_append]
      exact Nat.le_add_right _ _
    rw [List.cons_append, pieces_cons, same, List.take_left, List.drop_left, ih later,
      List.cons_append]

def calm (lineStart : Bool) : Text → Bool
  | [] => true
  | c :: t =>
    !(c = '/' && (t.head? = some '/' || t.head? = some '*')) && !(c = '#' && lineStart) &&
      calm (isTokenBlank c && (lineStart || c = '\n')) t

theorem calm_append_of_blank {b : Text} (blank : ∀ c ∈ b, isTokenBlank c = true) (lineStart : Bool)
    (t : Text) : calm lineStart (b ++ t) = calm (lineStart || b.contains '\n') t := by
  induction b generalizing lineStart with
  | nil => simp
  | cons c b ih =>
    have hc := blank c List.mem_cons_self
    have not_slash : c ≠ '/' := by
      rintro rfl
      cases hc
    have not_hash : c ≠ '#' := by
      rintro rfl
      cases hc
    rw [List.cons_append, calm, ih fun d hd => blank d (List.mem_cons_of_mem _ hd)]
    simp [not_slash, not_hash, hc, Bool.or_assoc, eq_comm]

theorem calm_append_of_solid {b : Text}
    (solid : ∀ c ∈ b, isTokenBlank c = false ∧ c ≠ '/' ∧ c ≠ '#') (t : Text) :
    calm false (b ++ t) = calm false t := by
  induction b with
  | nil => rfl
  | cons c b ih =>
    obtain ⟨blank, not_slash, not_hash⟩ := solid c List.mem_cons_self
    rw [List.cons_append, calm]
    simp [blank, not_slash, not_hash, ih fun d hd => solid d (List.mem_cons_of_mem _ hd)]

theorem calm_false_of_calm {lineStart : Bool} {t : Text} (h : calm lineStart t = true) :
    calm false t = true := by
  induction t generalizing lineStart with
  | nil => rfl
  | cons c t ih =>
    simp only [calm, Bool.and_eq_true, Bool.false_or] at h ⊢
    refine ⟨⟨h.1.1, by simp⟩, ?_⟩
    cases blank : isTokenBlank c && decide (c = '\n') with
    | false => exact ih h.2
    | true =>
      rw [Bool.and_eq_true] at blank
      simpa [blank] using h.2

theorem calm_of_isInfix {lineStart : Bool} {s t : Text} (h : calm lineStart t = true)
    (inside : s <:+: t) : calm false s = true := by
  obtain ⟨a, b, rfl⟩ := inside
  have front : ∀ {ls : Bool} (x y : Text), calm ls (x ++ y) = true → calm ls x = true := by
    intro ls x y h
    induction x generalizing ls with
    | nil => rfl
    | cons c x ih =>
      simp only [List.cons_append, calm, Bool.and_eq_true, Bool.not_eq_true'] at h ⊢
      refine ⟨⟨?_, h.1.2⟩, ih h.2⟩
      cases x with
      | nil => simp
      | cons d x => exact h.1.1
  have back : ∀ {ls : Bool} (x y : Text), calm ls (x ++ y) = true → calm false y = true := by
    intro ls x y h
    induction x generalizing ls with
    | nil => exact calm_false_of_calm h
    | cons c x ih =>
      simp only [List.cons_append, calm, Bool.and_eq_true] at h
      exact ih h.2
  exact back a s (front (a ++ s) b h)

theorem calm_append_cons {c : Char} (solid : isTokenBlank c = false ∧ c ≠ '/' ∧ c ≠ '#')
    (not_star : c ≠ '*') (lineStart : Bool) (s t : Text) :
    calm lineStart (s ++ c :: t) = (calm lineStart s && calm false t) := by
  induction s generalizing lineStart with
  | nil => simp [calm, solid]
  | cons d s ih =>
    have heads : ((s ++ c :: t).head? = some '/' ↔ s.head? = some '/') ∧
        ((s ++ c :: t).head? = some '*' ↔ s.head? = some '*') := by
      cases s <;> simp [solid.2.1, not_star]
    simp only [List.cons_append, calm, ih, heads, Bool.and_assoc]

theorem calm_concat_space (lineStart : Bool) (s : Text) :
    calm lineStart (s ++ [' ']) = calm lineStart s := by
  induction s generalizing lineStart with
  | nil => simp [calm]
  | cons d s ih =>
    have heads : ((s ++ [' ']).head? = some '/' ↔ s.head? = some '/') ∧
        ((s ++ [' ']).head? = some '*' ↔ s.head? = some '*') := by
      cases s <;> simp
    simp only [List.cons_append, calm, ih, heads]

theorem solid_of_isIdentChar {c : Char} (h : isIdentChar c = true) :
    isTokenBlank c = false ∧ c ≠ '/' ∧ c ≠ '#' := by
  refine ⟨?_, ?_, ?_⟩
  · rw [Bool.eq_false_iff]
    intro blank
    simp only [isTokenBlank, Bool.or_eq_true, decide_eq_true_eq] at blank
    rcases blank with (((rfl | rfl) | rfl) | rfl) | rfl <;> cases h
  · rintro rfl
    cases h
  · rintro rfl
    cases h

theorem mem_take_numberLength {mark : Bool} {t : Text} {c : Char}
    (h : c ∈ t.take (numberLength mark t)) :
    isIdentChar c = true ∨ c = '.' ∨ c = '+' ∨ c = '-' := by
  induction t generalizing mark with
  | nil => simp [numberLength] at h
  | cons d t ih =>
    rw [numberLength] at h
    split at h
    · rename_i goes_on
      rcases List.mem_cons.1 h with rfl | h
      · simp only [Bool.or_eq_true, Bool.and_eq_true, decide_eq_true_eq] at goes_on
        rcases goes_on with (h | h) | ⟨-, h | h⟩ <;> simp [h]
      · exact ih h
    · simp at h

section Parenthesis

variable {s v : Text}

theorem takeWhile_append_paren {p : Char → Bool} (stops : p ')' = false) :
    (s ++ ')' :: v).takeWhile p = s.takeWhile p := by
  induction s with
  | nil => simp [stops]
  | cons c s ih => simp [List.takeWhile_cons, ih]

theorem numberLength_append_paren {mark : Bool} :
    numberLength mark (s ++ ')' :: v) = numberLength mark s := by
  induction s generalizing mark with
  | nil =>
    cases mark <;> rfl
  | cons c s ih => simp [numberLength, ih]

theorem numberLength_le (mark : Bool) (t : Text) : numberLength mark t ≤ t.length := by
  induction t generalizing mark with
  | nil => exact Nat.le_refl _
  | cons c t ih =>
    rw [numberLength, List.length_cons]
    split
    · exact Nat.succ_le_succ (ih _)
    · exact Nat.zero_le _

theorem take_length_takeWhile (p : Char → Bool) (s : Text) :
    s.take (s.takeWhile p).length = s.takeWhile p :=
  (List.prefix_iff_eq_take.1 (List.takeWhile_prefix p)).symm

theorem calm_cons_of_blank {a : Char} (blank : isTokenBlank a = true) (lineStart : Bool) :
    calm lineStart (a :: s) =
      calm (startsLine lineStart .blank (a :: s.takeWhile isTokenBlank)) (s.dropWhile isTokenBlank) := by
  have blanks : ∀ c ∈ a :: s.takeWhile isTokenBlank, isTokenBlank c = true := by
    intro c member
    rcases List.mem_cons.1 member with rfl | member
    · exact blank
    · exact List.all_eq_true.1 List.all_takeWhile c member
  have step := calm_append_of_blank blanks lineStart (s.dropWhile isTokenBlank)
  rw [List.cons_append, List.takeWhile_append_dropWhile] at step
  exact step

theorem calm_cons_of_solid {lineStart : Bool} {a : Char} (solid : isTokenBlank a = false)
    (no_comment : opensComment a s = false) (no_directive : a = '#' → lineStart = false) :
    calm lineStart (a :: s) = calm false s := by
  have no_hash : (a = '#' && lineStart) = false := by simpa using no_directive
  rw [opensComment] at no_comment
  rw [calm, no_comment, no_hash, solid]
  rfl

theorem calm_cons_iff {lineStart : Bool} {a : Char} {kind : TokenKind} {m : Nat}
    (first : classify lineStart a (s ++ ')' :: v) = (kind, m)) : calm lineStart (a :: s) = true ↔
      kind ≠ .comment ∧ kind ≠ .directive ∧
        calm (startsLine lineStart kind (a :: s.take m)) (s.drop m) = true := by
  have same : opensComment a (s ++ ')' :: v) = opensComment a s := by
    cases s <;> rfl
  have solid_rest (m : Nat) (solid : ∀ c ∈ s.take m, isTokenBlank c = false ∧ c ≠ '/' ∧ c ≠ '#') :
      calm false s = calm false (s.drop m) := by
    have := calm_append_of_solid solid (s.drop m)
    rwa [List.take_append_drop] at this
  cases starts_of_classify first with
  | blank blank =>
    rw [takeWhile_append_paren rfl, take_length_takeWhile, Text.drop_length_takeWhile,
      calm_cons_of_blank blank]
    simp
  | comment _ opens =>
    rw [same, opensComment] at opens
    simp [calm, opens]
  | directive hash start => simp [calm, hash, start]
  | identifier start =>
    have no_slash : a ≠ '/' := ne_of_isIdentStart start rfl
    have no_hash : a ≠ '#' := ne_of_isIdentStart start rfl
    rw [calm_cons_of_solid (isTokenBlank_of_isIdentStart start) (opensComment_of_ne no_slash s)
      fun hash => absurd hash no_hash]
    rw [takeWhile_append_paren rfl, solid_rest (s.takeWhile isIdentChar).length fun c member => ?_]
    · simp [startsLine]
    · rw [take_length_takeWhile] at member
      exact solid_of_isIdentChar (List.all_eq_true.1 List.all_takeWhile c member)
  | number solid start =>
    have no_slash : a ≠ '/' := ne_of_opensNumber start rfl (by decide)
    have no_hash : a ≠ '#' := ne_of_opensNumber start rfl (by decide)
    rw [calm_cons_of_solid solid (opensComment_of_ne no_slash s) fun hash => absurd hash no_hash,
      numberLength_append_paren, solid_rest (numberLength false s) fun c member => ?_]
    · simp [startsLine]
    · rcases mem_take_numberLength member with ident | rfl | rfl | rfl
      · exact solid_of_isIdentChar ident
      all_goals decide
  | punct solid closed hash _ _ _ =>
    rw [same] at closed
    rw [calm_cons_of_solid solid closed hash]
    simp [startsLine]

theorem classify_le_of_calm {lineStart : Bool} {a : Char} (h : calm lineStart (a :: s) = true) :
    (classify lineStart a (s ++ ')' :: v)).2 ≤ s.length := by
  rcases first : classify lineStart a (s ++ ')' :: v) with ⟨kind, m⟩
  obtain ⟨no_comment, no_directive, -⟩ := (calm_cons_iff first).1 h
  cases starts_of_classify first with
  | blank =>
    rw [takeWhile_append_paren rfl]
    exact (List.takeWhile_prefix _).length_le
  | comment => exact absurd rfl no_comment
  | directive => exact absurd rfl no_directive
  | identifier =>
    rw [takeWhile_append_paren rfl]
    exact (List.takeWhile_prefix _).length_le
  | number =>
    rw [numberLength_append_paren]
    exact numberLength_le _ _
  | punct => exact Nat.zero_le _

theorem exists_pieces_of_calm {lineStart : Bool} (h : calm lineStart s = true) :
    ∃ ps, pieces lineStart (s ++ ')' :: v) = ps ++ (.punct, [')']) :: pieces false v ∧
      (ps.map Prod.snd).flatten = s ∧ ∀ p ∈ ps, p.1 ≠ .comment ∧ p.1 ≠ .directive := by
  induction len : s.length using Nat.strongRecOn generalizing s lineStart with
  | ind n ih =>
    cases s with
    | nil =>
      refine ⟨[], ?_, rfl, by simp⟩
      rw [List.nil_append, pieces_cons]
      have first : classify lineStart ')' v = (.punct, 0) := by simp [classify, isTokenBlank, isIdentStart]
      rw [first]
      rfl
    | cons a s =>
      have le := classify_le_of_calm (v := v) h
      rcases first : classify lineStart a (s ++ ')' :: v) with ⟨kind, m⟩
      obtain ⟨no_comment, no_directive, rest⟩ := (calm_cons_iff first).1 h
      rw [first] at le
      obtain ⟨ps, cut, flat, kinds⟩ := ih (s.drop m).length
        (by rw [← len, List.length_drop, List.length_cons]; omega) rest rfl
      refine ⟨(kind, a :: s.take m) :: ps, ?_, ?_, ?_⟩
      · rw [List.cons_append, pieces_cons, first, List.take_append_of_le_length le,
          List.drop_append_of_le_length le, cut, List.cons_append]
      · rw [List.map_cons, List.flatten_cons, flat, List.cons_append, List.take_append_drop]
      · intro p hp
        rcases List.mem_cons.1 hp with rfl | hp
        · exact ⟨no_comment, no_directive⟩
        · exact kinds p hp

theorem calm_of_pieces {lineStart : Bool} {ps qs : List (TokenKind × Text)}
    (cut : pieces lineStart ((ps.map Prod.snd).flatten ++ ')' :: v) = ps ++ qs)
    (kinds : ∀ p ∈ ps, p.1 ≠ .comment ∧ p.1 ≠ .directive) :
    calm lineStart (ps.map Prod.snd).flatten = true := by
  induction ps generalizing lineStart with
  | nil => rfl
  | cons p ps ih =>
    obtain ⟨kind, lexeme⟩ := p
    simp only [List.map_cons, List.flatten_cons, List.append_assoc] at cut ⊢
    obtain ⟨a, s, rfl, first, later⟩ := classify_of_pieces (by simp) cut
    obtain ⟨no_comment, no_directive⟩ := kinds _ List.mem_cons_self
    rw [← List.append_assoc] at first
    rw [List.cons_append, calm_cons_iff first, List.take_left, List.drop_left]
    exact ⟨no_comment, no_directive, ih later fun p hp => kinds p (List.mem_cons_of_mem _ hp)⟩

end Parenthesis

end ShaderPass.Token
