import ShaderPass.Proofs.Declaration.LayoutText
import ShaderPass.Proofs.Token.Fusion

/-! Tokens of a text with something appended to it. They are those of the text, and then those of what
the last of them leaves over: a comment or directive at the end of the text may go on. -/
namespace ShaderPass.Token

open Text

structure Apart (x : Text) : Prop where
  no_slash : '/' ∉ x
  blank : ∀ c ∈ x.head?, isBlank c = true

inductive Left (x : Text) : Text → Prop where
  | all : Left x x
  | none : Left x []
  | line (continued : Bool) : Left x (x.drop (directiveLength continued x))
  | remark : Left x (x.dropWhile (· ≠ '\n'))

theorem Left.suffix {x rest : Text} (left : Left x rest) : rest <:+ x := by
  cases left with
  | all => exact List.suffix_rfl
  | none => exact List.nil_suffix
  | line => exact List.drop_suffix _ _
  | remark => exact List.dropWhile_suffix _

section Last

variable {lineStart : Bool} {a : Char} {s x : Text}

theorem Apart.fuses_eq_false (apart : Apart x) (p : TokenKind × Text) :
    x.head?.any (fuses p) = false := by
  cases head : x.head? with
  | none => rfl
  | some c =>
    have blank := apart.blank c head
    have other : ∀ d, isBlank d = false → c ≠ d := by
      rintro d solid rfl
      rw [blank] at solid
      cases solid
    have no_name : isIdentChar c = false := by
      rw [Bool.eq_false_iff]
      intro name
      rw [Layout.isBlank_of_isIdentChar name] at blank
      cases blank
    have no_digit : c.isDigit = false := by
      simp only [isIdentChar, Char.isAlphanum, Bool.or_eq_false_iff] at no_name
      exact no_name.1.2
    rw [Option.any_some, fuses]
    cases p.1 <;>
      simp [no_name, no_digit, other '.' rfl, other '+' rfl, other '-' rfl]

theorem Apart.opensComment_eq_false (apart : Apart x) (a : Char) : opensComment a x = false := by
  cases x with
  | nil => simp [opensComment]
  | cons c x =>
    have blank := apart.blank c rfl
    have no_star : c ≠ '*' := by
      rintro rfl
      cases blank
    have no_slash : c ≠ '/' := by
      rintro rfl
      cases blank
    simp [opensComment, no_star, no_slash]

theorem length_le_blockCommentLength {t : Text} (no_slash : '/' ∉ t) : t.length ≤ blockCommentLength t := by
  induction t with
  | nil => exact Nat.zero_le _
  | cons c t ih =>
    have later : '/' ∉ t := fun member => no_slash (List.mem_cons_of_mem _ member)
    rw [blockCommentLength_cons, if_neg fun close => later (List.mem_of_mem_head? close.2)]
    exact Nat.succ_le_succ (ih later)

/-- A block comment at the end of a text is closed, or it goes on to the end of a text without slashes. -/
theorem left_drop_blockCommentLength (long : s.length ≤ blockCommentLength s) (apart : Apart x) :
    Left x ((s ++ x).drop (blockCommentLength (s ++ x))) := by
  induction s with
  | nil =>
    rw [List.nil_append, List.drop_eq_nil_of_le (length_le_blockCommentLength apart.no_slash)]
    exact .none
  | cons c s ih =>
    rw [blockCommentLength_cons] at long
    rw [List.cons_append, blockCommentLength_cons]
    cases s with
    | nil =>
      have no_close : ¬(c = '*' ∧ x.head? = some '/') := fun close =>
        apart.no_slash (List.mem_of_mem_head? close.2)
      rw [List.nil_append, if_neg no_close]
      exact ih (Nat.zero_le _)
    | cons d s =>
      by_cases close : c = '*' ∧ d = '/'
      · rw [if_pos ⟨close.1, congrArg some close.2⟩] at long
        obtain rfl : s = [] := List.eq_nil_of_length_eq_zero (by simpa using long)
        rw [if_pos ⟨close.1, congrArg some close.2⟩]
        exact .all
      · have no_close (t : Text) : ¬(c = '*' ∧ (d :: t).head? = some '/') :=
          fun both => close ⟨both.1, Option.some.inj both.2⟩
        rw [if_neg (no_close _)] at long
        rw [List.cons_append, if_neg (no_close _)]
        exact ih (Nat.le_of_succ_le_succ long)

theorem forall_of_length_takeWhile {p : Char → Bool} (long : s.length ≤ (s.takeWhile p).length) :
    ∀ c ∈ s, p c = true := by
  rw [← (List.takeWhile_prefix p).eq_of_length_le long]
  exact List.all_eq_true.1 List.all_takeWhile

theorem classify_lineComment (t : Text) : classify lineStart '/' ('/' :: t) =
    (.comment, (('/' :: t).takeWhile (· ≠ '\n')).length) := by
  simp [classify, isTokenBlank]

theorem classify_blockComment (t : Text) : classify lineStart '/' ('*' :: t) =
    (.comment, blockCommentLength t + 1) := by
  simp [classify, isTokenBlank]

theorem exists_classify_comment (long : s.length ≤ (classify lineStart a s).2)
    (opens : opensComment a s = true) (apart : Apart x) :
    ∃ m, classify lineStart a (s ++ x) = (.comment, m) ∧ Left x ((s ++ x).drop m) := by
  simp only [opensComment, Bool.and_eq_true, Bool.or_eq_true, decide_eq_true_eq] at opens
  obtain ⟨rfl, head⟩ := opens
  cases s with
  | nil => simp at head
  | cons c s =>
    rcases head with line | block
    · obtain rfl := Option.some.inj line
      rw [classify_lineComment] at long
      refine ⟨_, classify_lineComment (s ++ x), ?_⟩
      rw [← List.cons_append, drop_length_takeWhile,
        List.dropWhile_append_of_pos (forall_of_length_takeWhile long)]
      exact .remark
    · obtain rfl := Option.some.inj block
      rw [classify_blockComment] at long
      exact ⟨_, classify_blockComment (s ++ x),
        left_drop_blockCommentLength (Nat.le_of_succ_le_succ long) apart⟩

theorem exists_classify_append (long : s.length ≤ (classify lineStart a s).2)
    (visible : ∀ c ∈ (a :: s).getLast?, isTokenBlank c = false) :
    ∃ kind, ∀ x, Apart x → ∃ m, classify lineStart a (s ++ x) = (kind, m) ∧ Left x ((s ++ x).drop m) ∧
      (kind = .directive ∨ kind = .comment ∨ m = s.length) := by
  obtain ⟨kind, m, first⟩ : ∃ kind m, classify lineStart a s = (kind, m) := ⟨_, _, rfl⟩
  have starts := starts_of_classify first
  rw [first] at long
  refine ⟨kind, fun x apart => ?_⟩
  have goes_on {m : Nat} (again : classify lineStart a (s ++ x) = (kind, m)) (same : m = s.length) :
      ∃ m, classify lineStart a (s ++ x) = (kind, m) ∧ Left x ((s ++ x).drop m) ∧
        (kind = .directive ∨ kind = .comment ∨ m = s.length) := by
    refine ⟨m, again, ?_, .inr (.inr same)⟩
    rw [same, List.drop_left]
    exact .all
  cases starts with
  | blank blank =>
    obtain ⟨c, last⟩ : ∃ c, (a :: s).getLast? = some c := ⟨_, List.getLast?_cons⟩
    have blank_c : isTokenBlank c = true := by
      rcases List.mem_cons.1 (List.mem_of_getLast? last) with rfl | member
      · exact blank
      · exact forall_of_length_takeWhile long c member
    rw [visible c last] at blank_c
    cases blank_c
  | comment _ opens =>
    obtain ⟨m, again, left⟩ := exists_classify_comment (by rwa [first]) opens apart
    exact ⟨m, again, left, .inr (.inl rfl)⟩
  | directive hash opens =>
    subst hash opens
    have inside := length_le_directiveLength_append (s := s) (r := []) (by rwa [List.append_nil]) x
    refine ⟨directiveLength false (s ++ x), classify_hash true _, ?_, .inl rfl⟩
    rw [directiveLength_append inside, ← List.drop_drop, List.drop_left]
    exact .line _
  | identifier name =>
    refine goes_on (classify_of_starts (.identifier name) nofun) ?_
    have ends : x.takeWhile isIdentChar = [] := by
      cases x with
      | nil => rfl
      | cons c x =>
        have other : isIdentChar c = false := apart.fuses_eq_false (.identifier, [])
        exact List.takeWhile_cons_of_neg (Bool.eq_false_iff.1 other)
    rw [List.takeWhile_append_of_pos (forall_of_length_takeWhile long), ends, List.append_nil]
  | number solid opens =>
    have no_mark : a ≠ 'e' ∧ a ≠ 'E' :=
      ⟨ne_of_opensNumber opens rfl (by decide), ne_of_opensNumber opens rfl (by decide)⟩
    have length : numberLength false s = s.length := Nat.le_antisymm (numberLength_le false s) long
    have start := opensNumber_again opens x
    rw [length, List.take_length] at start
    refine goes_on (classify_of_starts (.number solid start) nofun) ?_
    exact (numberLength_again no_mark (by rwa [List.append_nil])).2 (apart.fuses_eq_false _)
  | punct solid closed hash no_name no_digit no_point =>
    obtain rfl : s = [] := List.eq_nil_of_length_eq_zero (Nat.le_zero.1 long)
    refine goes_on (classify_of_starts
      (.punct solid (apart.opensComment_eq_false a) hash no_name no_digit ?_) nofun) rfl
    rintro rfl
    exact apart.fuses_eq_false (.punct, ['.'])

end Last

theorem exists_sig_append {s : Text} (visible : ∀ c ∈ s.getLast?, isTokenBlank c = false)
    (lineStart : Bool) (n : Nat) : ∃ ts, ∀ x, Apart x → ∃ front n' lineStart' rest,
      sig n (pieces lineStart (s ++ x)) = ts ++ (front ++ sig n' (pieces lineStart' rest)) ∧
        (∀ k ∈ front, k.isDirective = true) ∧ Left x rest := by
  induction len : s.length using Nat.strongRecOn generalizing s lineStart n with
  | ind size ih =>
    cases s with
    | nil => exact ⟨[], fun x _ => ⟨[], n, lineStart, x, rfl, nofun, .all⟩⟩
    | cons a s =>
      by_cases long : s.length ≤ (classify lineStart a s).2
      · obtain ⟨kind, last⟩ := exists_classify_append long visible
        by_cases grows : kind = .directive ∨ kind = .comment
        · refine ⟨[], fun x apart => ?_⟩
          obtain ⟨m, again, left, -⟩ := last x apart
          rw [List.cons_append, pieces_cons, again, sig_cons_eq_append]
          refine ⟨_, _, _, _, rfl, fun k member => ?_, left⟩
          rcases grows with rfl | rfl
          · obtain rfl := List.mem_singleton.1 member
            rfl
          · cases member
        · refine ⟨sig n [(kind, a :: s)], fun x apart => ?_⟩
          obtain ⟨m, again, left, directive | comment | rfl⟩ := last x apart
          · exact absurd (.inl directive) grows
          · exact absurd (.inr comment) grows
          rw [List.cons_append, pieces_cons, again, sig_cons_eq_append, List.take_left]
          exact ⟨[], _, _, _, rfl, nofun, left⟩
      · -- The first token ends in front of another one, which does not change.
        obtain ⟨kind, m, first⟩ : ∃ kind m, classify lineStart a s = (kind, m) := ⟨_, _, rfl⟩
        rw [first, Nat.not_le] at long
        change m < s.length at long
        have length_u := List.length_take_of_le (Nat.le_of_lt long)
        obtain ⟨u, w, rfl, rfl⟩ : ∃ u w, s = u ++ w ∧ u.length = m :=
          ⟨s.take m, s.drop m, (List.take_append_drop m s).symm, length_u⟩
        obtain ⟨c, w, rfl⟩ : ∃ c w', w = c :: w' := by
          refine List.exists_cons_of_ne_nil fun empty => ?_
          rw [empty, List.append_nil] at long
          exact Nat.lt_irrefl _ long
        have visible' : ∀ d ∈ (c :: w).getLast?, isTokenBlank d = false := by
          simpa [List.getLast?_cons, List.getLast?_append] using visible
        have shorter : (c :: w).length < size := by
          simp only [← len, List.length_cons, List.length_append]
          omega
        obtain ⟨ts, later⟩ := ih (c :: w).length shorter visible'
          (startsLine lineStart kind (a :: u)) (n + byteLen (a :: u)) rfl
        refine ⟨sig n [(kind, a :: u)] ++ ts, fun x apart => ?_⟩
        obtain ⟨front, n', lineStart', rest, tokens, directives, left⟩ := later x apart
        have same : (c :: w ++ x).head? = (c :: w).head? := rfl
        have again := classify_of_head? (.inr same) first
        refine ⟨front, n', lineStart', rest, ?_, directives, left⟩
        rw [List.cons_append, List.append_assoc, pieces_cons, again, List.take_left, List.drop_left,
          sig_cons_eq_append, tokens, List.append_assoc]

end ShaderPass.Token
