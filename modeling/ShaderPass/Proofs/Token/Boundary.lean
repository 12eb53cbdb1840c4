import ShaderPass.Proofs.Text.Rewording
import ShaderPass.Proofs.Token.Cutting

/-! Tokens cut no words: on one side of the place where two of them meet there is no identifier
character, and identifiers are whole words. -/
namespace ShaderPass.Token

open Text

section Classify

theorem take_blockCommentLength (t : Text) :
    (t.take (blockCommentLength t)).getLast? = some '/' ∨ t.drop (blockCommentLength t) = [] := by
  fun_induction blockCommentLength t with
  | case1 => exact Or.inl rfl
  | case2 => exact Or.inr rfl
  | case3 c t _ ih =>
    rw [List.take_succ_cons, List.drop_succ_cons]
    refine ih.imp_left fun at_last => ?_
    rw [List.getLast?_cons, at_last]
    rfl

theorem head?_drop_directiveLength (continued : Bool) (t : Text) :
    (t.drop (directiveLength continued t)).head? = some '\n' ∨
      t.drop (directiveLength continued t) = [] := by
  fun_induction directiveLength continued t with
  | case1 => exact Or.inr rfl
  | case2 t ih => exact ih
  | case3 t _ => exact Or.inl rfl
  | case4 _ c t _ ih => exact ih

theorem isFree_drop_numberLength (mark : Bool) (t : Text) :
    isFree (t.drop (numberLength mark t)).head? = true := by
  fun_induction numberLength mark t with
  | case1 => rfl
  | case2 _ c t _ ih => exact ih
  | case3 _ c t ends =>
    simp only [Bool.or_eq_true, not_or, Bool.not_eq_true] at ends
    exact isFree_cons ends.1.1

theorem isFree_drop_takeWhile_lineFeed (t : Text) :
    isFree (t.drop (t.takeWhile (· ≠ '\n')).length).head? = true := by
  rw [drop_length_takeWhile]
  have stop := List.head?_dropWhile_not (fun d => decide (d ≠ '\n')) t
  cases head : (t.dropWhile fun d => decide (d ≠ '\n')).head? with
  | none => rfl
  | some d =>
    rw [head] at stop
    obtain rfl : d = '\n' := by simpa using stop
    rfl

theorem isFree_getLast?_of_all {c : Char} {t : Text} (all : ∀ d ∈ c :: t, isIdentChar d = false) :
    isFree (c :: t).getLast? = true := by
  rw [List.getLast?_eq_some_getLast (List.cons_ne_nil _ _)]
  simp [isFree, all _ (List.getLast_mem (List.cons_ne_nil _ _))]

theorem isFree_of_comment {lineStart : Bool} {c : Char} {t : Text} {m : Nat}
    (first : classify lineStart c t = (.comment, m)) :
    isFree (c :: t.take m).getLast? = true ∨ isFree (t.drop m).head? = true := by
  obtain ⟨-, ⟨-, rfl⟩ | ⟨block, rfl⟩⟩ := comment_of_classify first
  · exact Or.inr (isFree_drop_takeWhile_lineFeed t)
  · obtain ⟨rest, rfl⟩ := List.head?_eq_some_iff.1 block
    simp only [List.drop_succ_cons, List.drop_zero]
    rcases take_blockCommentLength rest with slash | empty
    · refine Or.inl ?_
      rw [List.take_succ_cons, List.getLast?_cons, List.getLast?_cons, slash]
      rfl
    · refine Or.inr ?_
      rw [empty]
      rfl

theorem isFree_of_classify {lineStart : Bool} {c : Char} {t : Text} {kind : TokenKind} {m : Nat}
    (first : classify lineStart c t = (kind, m)) :
    isFree (c :: t.take m).getLast? = true ∨ isFree (t.drop m).head? = true := by
  cases starts_of_classify first with
  | blank blank =>
    refine Or.inl (isFree_getLast?_of_all fun d member => ?_)
    have blank_d : isTokenBlank d = true := by
      rcases List.mem_cons.1 member with rfl | member
      · exact blank
      · rw [take_length_takeWhile] at member
        exact List.all_eq_true.1 List.all_takeWhile d member
    rw [Bool.eq_false_iff]
    intro ident
    rw [(solid_of_isIdentChar ident).1] at blank_d
    cases blank_d
  | comment => exact isFree_of_comment first
  | directive =>
    refine Or.inr ?_
    rcases head?_drop_directiveLength false t with feed | empty
    · rw [feed]
      rfl
    · rw [empty]
      rfl
  | identifier =>
    rw [drop_length_takeWhile]
    exact Or.inr (isFree_head?_dropWhile t)
  | number => exact Or.inr (isFree_drop_numberLength false t)
  | punct _ _ _ no_start no_digit _ =>
    refine Or.inl (isFree_getLast?_of_all fun d member => ?_)
    obtain rfl : d = c := by simpa using member
    simp only [isIdentStart, Bool.or_eq_false_iff] at no_start
    simp [isIdentChar, Char.isAlphanum, no_start.1, no_start.2, no_digit]

end Classify

section Pieces

variable {lineStart : Bool} {t w : Text} {p : TokenKind × Text} {qs rs : List (TokenKind × Text)}

theorem exists_classify_of_pieces (cut : pieces lineStart t = qs ++ p :: rs) :
    ∃ c rest, p = ((classify (opensLine lineStart qs) c rest).1,
        c :: rest.take (classify (opensLine lineStart qs) c rest).2) ∧
      flat rs = rest.drop (classify (opensLine lineStart qs) c rest).2 := by
  induction qs generalizing lineStart t with
  | nil =>
    cases t with
    | nil => simp [pieces] at cut
    | cons c t =>
      rw [pieces_cons] at cut
      obtain ⟨rfl, rfl⟩ := List.cons.inj cut
      exact ⟨c, t, rfl, flatten_pieces _ _⟩
  | cons q qs ih =>
    cases t with
    | nil => simp [pieces] at cut
    | cons c t =>
      rw [pieces_cons] at cut
      obtain ⟨rfl, later⟩ := List.cons.inj cut
      exact ih later

theorem isFree_of_pieces (cut : pieces lineStart t = qs ++ p :: rs) :
    isFree p.2.getLast? = true ∨ isFree (flat rs).head? = true := by
  obtain ⟨c, rest, rfl, later⟩ := exists_classify_of_pieces cut
  rw [later]
  exact isFree_of_classify rfl

theorem isName_of_pieces (cut : pieces lineStart t = qs ++ (.identifier, w) :: rs) :
    IsName w ∧ isFree (flat qs).getLast? = true ∧ isFree (flat rs).head? = true := by
  obtain ⟨c, rest, shape, later⟩ := exists_classify_of_pieces cut
  generalize opensLine lineStart qs = other at shape later
  obtain ⟨kind, lexeme⟩ := Prod.mk.inj shape
  have first : classify other c rest = (.identifier, (classify other c rest).2) := Prod.ext kind.symm rfl
  obtain ⟨start, more⟩ := name_of_classify first
  rw [← more, take_length_takeWhile] at lexeme
  rw [← more, drop_length_takeWhile] at later
  have inside : ∀ d ∈ rest.takeWhile isIdentChar, isIdentChar d = true :=
    fun d member => List.all_eq_true.1 List.all_takeWhile d member
  refine ⟨⟨c, _, lexeme, start, inside⟩, ?_, later ▸ isFree_head?_dropWhile rest⟩
  rcases List.eq_nil_or_concat qs with rfl | ⟨qs, q, rfl⟩
  · rfl
  · rw [List.concat_eq_append, List.append_assoc, List.singleton_append] at cut
    rw [List.concat_eq_append]
    have apart := isFree_of_pieces cut
    rw [flat_cons, lexeme, List.cons_append] at apart
    have taken : isFree (c :: (rest.takeWhile isIdentChar ++ flat rs)).head? = false := by
      simp [isFree, isIdentChar_of_isIdentStart start]
    rw [taken] at apart
    obtain ⟨c', rest', shape', -⟩ := exists_classify_of_pieces cut
    have some_char : q.2 ≠ [] := by
      rw [shape']
      exact List.cons_ne_nil _ _
    have text : flat (qs ++ [q]) = flat qs ++ q.2 := by
      rw [flat_append, flat_cons]
      exact congrArg _ (List.append_nil _)
    rw [text, List.getLast?_append, Option.or_of_isSome (by simpa using some_char)]
    exact apart.resolve_right Bool.false_ne_true

theorem pieces_name (isName : IsName w) (free : isFree t.head? = true) :
    pieces lineStart (w ++ t) = (.identifier, w) :: pieces false t := by
  obtain ⟨c, more, rfl, start, inside⟩ := isName
  have size : (classify lineStart c (more ++ t)).2 = more.length := by
    unfold classify
    simp [isTokenBlank_of_isIdentStart start, start, takeWhile_append_of_isFree inside free,
      ne_of_isIdentStart start (show isIdentStart '#' = false from rfl),
      ne_of_isIdentStart start (show isIdentStart '/' = false from rfl)]
  rw [List.cons_append, pieces_cons, classify_of_isIdentStart start, size, List.take_left, List.drop_left]
  rfl

end Pieces

section Significant

variable {t : Text} {k : Token}

theorem isName_of_isIdentifier (member : k ∈ significant t) (identifier : k.isIdentifier = true) :
    IsName k.lexeme ∧ ∃ a b, t = a ++ (k.lexeme ++ b) ∧ byteLen a = k.start ∧
      isFree a.getLast? = true ∧ isFree b.head? = true := by
  obtain ⟨front, later, cut⟩ := List.append_of_mem member
  obtain ⟨qs, rs, pieces_eq, -, start, -⟩ := exists_of_sig_eq (n := 0) cut
  have kind : k.kind = .identifier := of_decide_eq_true identifier
  rw [kind] at pieces_eq
  obtain ⟨isName, before, behind⟩ := isName_of_pieces pieces_eq
  refine ⟨isName, flat qs, flat rs, ?_, by rw [start, Nat.zero_add], before, behind⟩
  rw [← flat_cons .identifier, ← flat_append, ← pieces_eq]
  exact (flatten_pieces true t).symm

end Significant

end ShaderPass.Token
