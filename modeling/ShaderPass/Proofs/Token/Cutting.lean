import ShaderPass.Proofs.Text.Runs
import ShaderPass.Proofs.Token.Editing

/-! The tokens of a text with a stretch cut out. A token depends on its own characters and the one
behind it, so the tokens in front of the cut stay; the tokens behind it move, unless a `#` there gains
or loses its place at the start of a line. -/
namespace ShaderPass.Token

section Head

variable {s rest rest' : Text}

theorem length_takeWhile_of_head? {p : Char → Bool} (head : rest' = [] ∨ rest'.head? = rest.head?)
    (run : ((s ++ rest).takeWhile p).length = s.length) :
    ((s ++ rest').takeWhile p).length = s.length := by
  induction s with
  | nil =>
    rcases head with rfl | head
    · rfl
    cases rest with
    | nil =>
      rw [List.head?_eq_none_iff.1 head]
      rfl
    | cons c rest =>
      obtain ⟨rest', rfl⟩ := List.head?_eq_some_iff.1 head
      by_cases pc : p c = true
      · simp [pc] at run
      · simp [pc]
  | cons a s ih =>
    by_cases pa : p a = true
    · simp only [List.cons_append, List.takeWhile_cons, pa, if_true, List.length_cons,
        Nat.add_right_cancel_iff] at run ⊢
      exact ih run
    · simp [pa] at run

theorem blockCommentLength_pos (a : Char) (t : Text) : 0 < blockCommentLength (a :: t) := by
  rw [blockCommentLength_cons]
  split <;> omega

theorem blockCommentLength_of_head? (head : rest' = [] ∨ rest'.head? = rest.head?)
    (run : blockCommentLength (s ++ rest) = s.length) :
    blockCommentLength (s ++ rest') = s.length := by
  have nothing {t : Text} (none : blockCommentLength t = 0) : t = [] := by
    cases t with
    | nil => rfl
    | cons c t => exact absurd none (Nat.ne_of_gt (blockCommentLength_pos c t))
  have at_end (none : blockCommentLength rest = 0) : rest' = [] := by
    rcases head with rfl | head
    · rfl
    · rw [nothing none] at head
      exact List.head?_eq_none_iff.1 head
  induction s with
  | nil =>
    rw [List.nil_append] at run ⊢
    rw [at_end run]
    rfl
  | cons a s ih =>
    rw [List.cons_append, blockCommentLength_cons, List.length_cons] at run ⊢
    cases s with
    | nil =>
      split at run
      · cases run
      · rw [List.nil_append, at_end (Nat.succ.inj run)]
        simp [blockCommentLength]
    | cons b s =>
      split at run
      · rw [if_pos ‹_›, run]
      · rw [if_neg ‹_›, ih (Nat.succ.inj run)]

theorem directiveLength_of_head? {continued : Bool} (head : rest' = [] ∨ rest'.head? = rest.head?)
    (run : directiveLength continued (s ++ rest) = s.length) :
    directiveLength continued (s ++ rest') = s.length := by
  induction s generalizing continued with
  | nil =>
    rcases head with rfl | head
    · rfl
    cases rest with
    | nil =>
      rw [List.head?_eq_none_iff.1 head]
      rfl
    | cons c rest =>
      obtain ⟨rest', rfl⟩ := List.head?_eq_some_iff.1 head
      rw [List.nil_append, directiveLength, List.length_nil] at run ⊢
      split at run
      · split at run
        · omega
        · rw [if_pos ‹_›, if_neg ‹_›]
      · omega
  | cons a s ih =>
    rw [List.cons_append, directiveLength, List.length_cons] at run ⊢
    split at run
    · split at run
      · rw [if_pos ‹_›, if_pos ‹_›, ih (Nat.succ.inj run)]
      · omega
    · rw [if_neg ‹_›, ih (Nat.succ.inj run)]

theorem numberLength_of_head? {mark : Bool} (head : rest' = [] ∨ rest'.head? = rest.head?)
    (run : numberLength mark (s ++ rest) = s.length) :
    numberLength mark (s ++ rest') = s.length := by
  induction s generalizing mark with
  | nil =>
    rcases head with rfl | head
    · rfl
    cases rest with
    | nil =>
      rw [List.head?_eq_none_iff.1 head]
      rfl
    | cons c rest =>
      obtain ⟨rest', rfl⟩ := List.head?_eq_some_iff.1 head
      rw [List.nil_append, numberLength, List.length_nil] at run ⊢
      split at run
      · omega
      · rw [if_neg ‹_›]
  | cons a s ih =>
    rw [List.cons_append, numberLength, List.length_cons] at run ⊢
    split at run
    · rw [if_pos ‹_›, ih (Nat.succ.inj run)]
    · omega

theorem classify_of_single {lineStart : Bool} {a : Char} {kind : TokenKind}
    (first : classify lineStart a rest = (kind, 0)) : classify lineStart a [] = (kind, 0) := by
  cases rest with
  | nil => exact first
  | cons c rest =>
    unfold classify at first ⊢
    split at first
    · rw [if_pos ‹_›, (Prod.mk.inj first).1]
      rfl
    rw [if_neg ‹_›, if_neg (by simp), if_neg (by simp)]
    split at first
    · rename_i comment
      obtain ⟨-, rfl⟩ : a = '/' ∧ c = '/' := by simpa using comment
      cases first
    split at first
    · cases (Prod.mk.inj first).2
    split at first
    · rw [if_pos ‹_›, (Prod.mk.inj first).1]
      rfl
    rw [if_neg ‹_›]
    split at first
    · rw [if_pos ‹_›, (Prod.mk.inj first).1]
      rfl
    rw [if_neg ‹_›]
    split at first
    · rename_i number
      have digit : a.isDigit = true := by
        rw [Bool.or_eq_true, Bool.and_eq_true] at number
        rcases number with digit | ⟨-, digit⟩
        · exact digit
        · -- The number would go on with the digit.
          have longer : isIdentChar c = true := by
            simpa [isIdentChar, Char.isAlphanum] using Or.inl (Or.inr digit)
          have size := (Prod.mk.inj first).2
          rw [numberLength, if_pos (by rw [longer]; rfl)] at size
          cases size
      rw [if_pos (by simp [digit]), (Prod.mk.inj first).1]
      rfl
    · rename_i number
      rw [if_neg (by simp_all)]
      exact first

/-- A token depends on its characters and the one behind it, and stays as it is at the end of a
text. -/
theorem classify_of_head? {lineStart : Bool} {a : Char} {kind : TokenKind}
    (head : rest' = [] ∨ rest'.head? = rest.head?)
    (first : classify lineStart a (s ++ rest) = (kind, s.length)) :
    classify lineStart a (s ++ rest') = (kind, s.length) := by
  by_cases single : s = [] ∧ rest' = []
  · obtain ⟨rfl, rfl⟩ := single
    exact classify_of_single first
  have heads : (s ++ rest').head? = (s ++ rest).head? := by
    rcases head with rfl | head
    · cases s with
      | nil => exact absurd ⟨rfl, rfl⟩ single
      | cons b s => rfl
    · rw [List.head?_append, List.head?_append, head]
  unfold classify at first ⊢
  rw [heads]
  split at first
  · obtain ⟨rfl, run⟩ := Prod.mk.inj first
    rw [if_pos ‹_›, length_takeWhile_of_head? head run]
  rw [if_neg ‹_›]
  split at first
  · obtain ⟨rfl, run⟩ := Prod.mk.inj first
    rw [if_pos ‹_›, length_takeWhile_of_head? head run]
  rw [if_neg ‹_›]
  split at first
  · obtain ⟨rfl, run⟩ := Prod.mk.inj first
    rw [if_pos ‹_›]
    cases s with
    | nil => simp at run
    | cons b s =>
      simp only [List.cons_append, List.drop_succ_cons, List.drop_zero, List.length_cons,
        Nat.add_right_cancel_iff] at run ⊢
      rw [blockCommentLength_of_head? head run]
  rw [if_neg ‹_›]
  split at first
  · obtain ⟨rfl, run⟩ := Prod.mk.inj first
    rw [if_pos ‹_›, directiveLength_of_head? head run]
  rw [if_neg ‹_›]
  split at first
  · obtain ⟨rfl, run⟩ := Prod.mk.inj first
    rw [if_pos ‹_›, length_takeWhile_of_head? head run]
  rw [if_neg ‹_›]
  split at first
  · obtain ⟨rfl, run⟩ := Prod.mk.inj first
    rw [if_pos ‹_›, numberLength_of_head? head run]
  · rw [if_neg ‹_›]
    exact first

end Head

theorem classify_of_ne_hash {c : Char} (other : c ≠ '#') (lineStart lineStart' : Bool) (t : Text) :
    classify lineStart c t = classify lineStart' c t := by
  simp [classify, other]

theorem classify_hash (lineStart : Bool) (t : Text) : classify lineStart '#' t =
    if lineStart then (.directive, directiveLength false t) else (.punct, 0) := by
  cases lineStart <;> simp [classify, isTokenBlank, isIdentStart]

theorem sig_blank {b : Text} (blank : ∀ c ∈ b, isTokenBlank c = true) (n : Nat) (lineStart : Bool)
    (w : Text) : sig n (pieces lineStart (b ++ w)) =
      sig (n + Text.byteLen b) (pieces (lineStart || b.contains '\n') w) := by
  have run (n : Nat) (lineStart : Bool) (w : Text) : sig n (pieces lineStart w) =
      sig (n + Text.byteLen (w.takeWhile isTokenBlank))
        (pieces (lineStart || (w.takeWhile isTokenBlank).contains '\n') (w.dropWhile isTokenBlank)) := by
    cases w with
    | nil => simp [pieces]
    | cons c w =>
      cases hc : isTokenBlank c with
      | false => simp [hc]
      | true =>
        have first : classify lineStart c w = (.blank, (w.takeWhile isTokenBlank).length) := by
          rw [classify, if_pos hc]
        rw [pieces_cons, first, sig_cons, if_pos (Or.inr rfl), take_length_takeWhile,
          Text.drop_length_takeWhile, List.takeWhile_cons_of_pos hc, List.dropWhile_cons_of_pos hc]
        rfl
  rw [run n lineStart (b ++ w), run (n + Text.byteLen b) _ w, List.takeWhile_append_of_pos blank,
    List.dropWhile_append_of_pos blank, Text.byteLen_append, Nat.add_assoc]
  simp [Bool.or_assoc]

/-- The tokens of a text from a place that starts a line or not: the difference shows only if the first
token is a `#`. -/
theorem sig_of_lineStart {lineStart lineStart' : Bool} {n : Nat} {w : Text}
    (hash : ∀ k, (sig n (pieces lineStart w)).head? = some k → k.lexeme.head? = some '#' →
      k.isDirective = true ∧ lineStart' = true) :
    sig n (pieces lineStart' w) = sig n (pieces lineStart w) := by
  fun_induction pieces lineStart w generalizing n lineStart' with
  | case1 => simp [pieces]
  | case2 lineStart c t kind more classified lexeme =>
    rename_i ih
    rw [sig_cons] at hash ⊢
    have same : classify lineStart' c t = (kind, more) := by
      by_cases number_sign : c = '#'
      · subst number_sign
        rw [classify_hash] at classified ⊢
        cases lineStart with
        | false =>
          obtain ⟨rfl, rfl⟩ := Prod.mk.inj classified
          cases (hash ⟨.punct, lexeme, n⟩ rfl rfl).1
        | true =>
          obtain ⟨rfl, rfl⟩ := Prod.mk.inj classified
          rw [(hash ⟨.directive, lexeme, n⟩ rfl rfl).2]
          rfl
      · rw [classify_of_ne_hash number_sign _ lineStart, classified]
    rw [pieces_cons, same, sig_cons]
    by_cases trivia : kind = .comment ∨ kind = .blank
    · rw [if_pos trivia] at hash ⊢
      rw [if_pos trivia]
      refine ih fun k first number_sign => ?_
      obtain ⟨directive, start⟩ := hash k first number_sign
      refine ⟨directive, ?_⟩
      rcases trivia with rfl | rfl <;> simp [startsLine, start]
    · rw [if_neg trivia, if_neg trivia]
      -- Behind a token of the line no directive starts, wherever the token stands.
      have rest : startsLine lineStart' kind lexeme = startsLine lineStart kind lexeme := by
        cases kind <;> simp_all [startsLine]
      show _ :: sig _ (pieces (startsLine lineStart' kind lexeme) _) = _
      rw [rest]

def opensLine (lineStart : Bool) (ps : List (TokenKind × Text)) : Bool :=
  ps.foldl (fun start p => startsLine start p.1 p.2) lineStart

def Ends (p : TokenKind × Text) : Prop :=
  p.1 = .blank ∨ p.1 = .comment ∨ p.2 = [';'] ∨ p.2 = ['\x7d']

theorem blockCommentLength_of_closed {s r : Text} {c : Char}
    (closed : blockCommentLength (s ++ c :: r) = s.length) (w : Text) :
    blockCommentLength (s ++ w) = s.length := by
  induction s with
  | nil => exact absurd closed (Nat.ne_of_gt (blockCommentLength_pos c r))
  | cons a s ih =>
    rw [List.cons_append, blockCommentLength_cons, List.length_cons] at closed ⊢
    cases s with
    | nil =>
      split at closed
      · cases closed
      · exact absurd (Nat.succ.inj closed) (Nat.ne_of_gt (blockCommentLength_pos c r))
    | cons b s =>
      split at closed
      · rw [if_pos ‹_›, closed]
      · rw [if_neg ‹_›, ih (Nat.succ.inj closed)]

theorem head_of_takeWhile {s r : Text} {c : Char}
    (run : ((s ++ c :: r).takeWhile (· ≠ '\n')).length = s.length) : c = '\n' := by
  induction s with
  | nil =>
    by_cases feed : c = '\n'
    · exact feed
    · simp [feed] at run
  | cons a s ih =>
    rw [List.cons_append, List.takeWhile_cons] at run
    split at run
    · exact ih (Nat.succ.inj run)
    · cases run

theorem head_of_directiveLength {s r : Text} {c : Char} {continued : Bool}
    (run : directiveLength continued (s ++ c :: r) = s.length) : c = '\n' := by
  induction s generalizing continued with
  | nil =>
    rw [List.nil_append, directiveLength] at run
    split at run
    · assumption
    · cases run
  | cons a s ih =>
    rw [List.cons_append, directiveLength] at run
    split at run
    · split at run
      · exact ih (Nat.succ.inj run)
      · cases run
    · exact ih (Nat.succ.inj run)

theorem classify_punct {c : Char} (mark : c = ';' ∨ c = '\x7d') (lineStart : Bool) (t : Text) :
    classify lineStart c t = (.punct, 0) := by
  rcases mark with rfl | rfl <;> simp [classify, isTokenBlank, isIdentStart]

theorem classify_of_ends {lineStart : Bool} {a c : Char} {s r : Text} {kind : TokenKind}
    (ends : Ends (kind, a :: s)) (not_blank : kind ≠ .blank) (solid : isTokenBlank c = false)
    (first : classify lineStart a (s ++ c :: r) = (kind, s.length)) (w : Text) :
    classify lineStart a (s ++ w) = (kind, s.length) := by
  rcases ends with blank | comment | mark
  · exact absurd blank not_blank
  · simp only at comment
    subst comment
    obtain ⟨rfl, ⟨-, run⟩ | ⟨block, run⟩⟩ := comment_of_classify first
    · rw [head_of_takeWhile run] at solid
      cases solid
    · cases s with
      | nil => cases run
      | cons b s =>
        obtain rfl : b = '*' := by simpa using block
        have closed : blockCommentLength (s ++ c :: r) = s.length := by simpa using run
        simp [classify, isTokenBlank, blockCommentLength_of_closed closed w]
  · obtain ⟨single, rfl⟩ : (a = ';' ∨ a = '\x7d') ∧ s = [] := by
      rw [or_and_right]
      simpa using mark
    rw [classify_punct single] at first ⊢
    exact first

theorem eq_lineFeed_of_directive {lineStart : Bool} {a c : Char} {s r : Text}
    (first : classify lineStart a (s ++ c :: r) = (.directive, s.length)) : c = '\n' :=
  head_of_directiveLength (hash_of_classify first).2.2

theorem isTokenBlank_of_classify {lineStart : Bool} {a : Char} {s rest : Text}
    (first : classify lineStart a (s ++ rest) = (.blank, s.length)) :
    ∀ c ∈ a :: s, isTokenBlank c = true := by
  obtain ⟨blank, run⟩ := blank_of_classify first
  have whole : s <+: (s ++ rest).takeWhile isTokenBlank := by
    refine List.prefix_of_prefix_length_le (List.prefix_append s rest) (List.takeWhile_prefix _) ?_
    exact Nat.le_of_eq run.symm
  intro c member
  rcases List.mem_cons.1 member with rfl | member
  · exact blank
  · exact List.all_eq_true.1 List.all_takeWhile c (whole.mem member)

theorem sig_cons_eq_append (n : Nat) (p : TokenKind × Text) (ps : List (TokenKind × Text)) :
    sig n (p :: ps) = sig n [p] ++ sig (n + Text.byteLen p.2) ps := by
  have := sig_append n [p] ps
  rwa [show flat [p] = p.2 from List.append_nil p.2] at this

theorem head?_flat_append {lineStart : Bool} {t : Text} {q : TokenKind × Text}
    {ps : List (TokenKind × Text)} (cut : pieces lineStart t = q :: ps)
    (qs : List (TokenKind × Text)) (w w' : Text) :
    (flat (q :: qs) ++ w).head? = (flat (q :: qs) ++ w').head? := by
  obtain ⟨d, x, lexeme, -⟩ := exists_cons_of_mem_pieces
    (show (q.1, q.2) ∈ pieces lineStart t from cut ▸ List.mem_cons_self)
  rw [show flat (q :: qs) = q.2 ++ flat qs from rfl, lexeme]
  rfl

/-- The pieces in front of a place where a token starts, and what follows if something else does. -/
theorem sig_pieces_append {lineStart : Bool} {qs rs : List (TokenKind × Text)} {c : Char} {r : Text}
    (cut : pieces lineStart (flat qs ++ c :: r) = qs ++ rs) (solid : isTokenBlank c = false)
    (last : ∀ p, qs.getLast? = some p → Ends p) (n : Nat) (w : Text) :
    sig n (pieces lineStart (flat qs ++ w)) =
      sig n qs ++ sig (n + Text.byteLen (flat qs)) (pieces (opensLine lineStart qs) w) := by
  induction qs generalizing lineStart n with
  | nil => rfl
  | cons p qs ih =>
    obtain ⟨kind, lexeme⟩ := p
    rw [flat_cons, List.append_assoc] at cut ⊢
    obtain ⟨a, s, rfl, first, later⟩ := classify_of_pieces (by simp) cut
    have goes_on (same : classify lineStart a (s ++ (flat qs ++ w)) = (kind, s.length))
        (last : ∀ p, qs.getLast? = some p → Ends p) :
        sig n (pieces lineStart (a :: s ++ (flat qs ++ w))) =
          sig n ((kind, a :: s) :: qs) ++ sig (n + Text.byteLen (a :: s ++ flat qs))
            (pieces (opensLine lineStart ((kind, a :: s) :: qs)) w) := by
      have rest := ih later last (n + Text.byteLen (a :: s))
      rw [List.cons_append, pieces_cons, same, List.take_left, List.drop_left, sig_cons_eq_append,
        sig_cons_eq_append n (kind, a :: s) qs, List.append_assoc, rest, Text.byteLen_append,
        Nat.add_assoc]
      rfl
    cases qs with
    | nil =>
      by_cases blank : kind = .blank
      · subst blank
        have blank := isTokenBlank_of_classify first
        rw [show flat [] = [] from rfl, List.nil_append, List.append_nil, sig_blank blank n lineStart w]
        rfl
      · exact goes_on (classify_of_ends (last _ rfl) blank solid first _) (by simp)
    | cons q qs =>
      refine goes_on (classify_of_head? (Or.inr ?_) first) fun p hp => last p hp
      exact head?_flat_append later qs _ _

theorem pieces_flat {lineStart : Bool} {qs rs : List (TokenKind × Text)} {c : Char} {r : Text}
    (cut : pieces lineStart (flat qs ++ c :: r) = qs ++ rs) : pieces lineStart (flat qs) = qs := by
  induction qs generalizing lineStart with
  | nil => simp [flat, pieces]
  | cons p qs ih =>
    obtain ⟨kind, lexeme⟩ := p
    rw [flat_cons, List.append_assoc] at cut
    obtain ⟨a, s, rfl, first, later⟩ := classify_of_pieces (by simp) cut
    have same : classify lineStart a (s ++ flat qs) = (kind, s.length) := by
      refine classify_of_head? ?_ first
      cases qs with
      | nil => exact Or.inl rfl
      | cons q qs =>
        have := head?_flat_append later qs [] (c :: r)
        rw [List.append_nil] at this
        exact Or.inr this
    rw [flat_cons, List.cons_append, pieces_cons, same, List.take_left, List.drop_left, ih later]

theorem ends_of_getLast? {n : Nat} {qs rs : List (TokenKind × Text)} {lineStart : Bool} {c : Char}
    {r : Text} (cut : pieces lineStart (flat qs ++ c :: r) = qs ++ rs) (solid : isTokenBlank c = false)
    (ends : ∀ k, (sig n qs).getLast? = some k →
      k.isDirective = true ∨ k.lexeme = [';'] ∨ k.lexeme = ['\x7d']) :
    ∀ p, qs.getLast? = some p → Ends p := by
  rintro ⟨kind, lexeme⟩ last
  obtain ⟨qs, rfl⟩ := List.getLast?_eq_some_iff.1 last
  by_cases trivia : kind = .comment ∨ kind = .blank
  · rcases trivia with comment | blank
    · exact Or.inr (Or.inl comment)
    · exact Or.inl blank
  · have token := ends ⟨kind, lexeme, n + Text.byteLen (flat qs)⟩ (by
      rw [sig_append, sig_cons, if_neg trivia]
      simp [sig, place])
    rcases token with directive | mark
    · have whole := flatten_pieces lineStart (flat (qs ++ [(kind, lexeme)]) ++ c :: r)
      rw [cut, show ((qs ++ [(kind, lexeme)] ++ rs).map Prod.snd).flatten =
        flat (qs ++ [(kind, lexeme)]) ++ flat rs from flat_append _ _] at whole
      have rest : flat rs = c :: r := List.append_cancel_left whole
      rw [List.append_assoc, List.singleton_append] at cut
      obtain ⟨other, suffix⟩ := exists_pieces_suffix cut
      rw [flat_cons, rest] at suffix
      obtain ⟨a, s, -, first, -⟩ := classify_of_pieces (by simp) suffix
      rw [show kind = .directive from of_decide_eq_true directive] at first
      rw [eq_lineFeed_of_directive first] at solid
      cases solid
    · exact Or.inr (Or.inr mark)

/-- The tokens of a text without a stretch that goes from the start of a token to the end of one, the
blanks behind it included. -/
theorem significant_cut {u d b w : Text} {front middle later : List Token} {first last : Token}
    (tokens : significant (u ++ (d ++ (b ++ w))) = front ++ (first :: middle ++ later))
    (closes : (first :: middle).getLast? = some last) (start : first.start = Text.byteLen u)
    (stop : last.stop = Text.byteLen u + Text.byteLen d) (blank : ∀ c ∈ b, isTokenBlank c = true)
    (ends : ∀ k, front.getLast? = some k →
      k.isDirective = true ∨ k.lexeme = [';'] ∨ k.lexeme = ['\x7d'])
    (hash : ∀ k, later.head? = some k → k.lexeme.head? = some '#' →
      k.isDirective = true ∧ opensLine true (pieces true u) = true) :
    significant (u ++ w) = front ++
        later.map (move (Text.byteLen u + Text.byteLen d + Text.byteLen b) (Text.byteLen u)) ∧
      ∀ k ∈ later, Text.byteLen u + Text.byteLen d + Text.byteLen b ≤ k.start := by
  obtain ⟨qs, rs, cut, sig_front, start', -⟩ := exists_of_sig_eq tokens
  obtain ⟨inner, split⟩ := List.getLast?_eq_some_iff.1 closes
  have regroup : front ++ (first :: middle ++ later) = (front ++ inner) ++ last :: later := by
    rw [split]
    simp
  obtain ⟨qs', rs', cut', -, stop', sig_later⟩ := exists_of_sig_eq (tokens.trans regroup)
  -- The stretch is cut out between `qs` and `rs'`.
  obtain ⟨front_text, -⟩ : flat qs = u ∧ flat ((first.kind, first.lexeme) :: rs) = d ++ (b ++ w) := by
    apply Text.append_inj_of_byteLen
    · rw [← flat_append, ← cut]
      exact flatten_pieces _ _
    · omega
  obtain ⟨-, later_text⟩ : flat qs' ++ last.lexeme = u ++ d ∧ flat rs' = b ++ w := by
    apply Text.append_inj_of_byteLen
    · rw [List.append_assoc, ← flat_cons last.kind, ← flat_append, ← cut', List.append_assoc]
      exact flatten_pieces _ _
    · rw [Text.byteLen_append, Text.byteLen_append, ← stop, Token.stop]
      omega
  obtain ⟨other, rest⟩ := exists_pieces_suffix (cut'.trans (List.append_cons _ _ _))
  rw [later_text] at rest
  have member : first ∈ significant (u ++ (d ++ (b ++ w))) := by
    rw [tokens]
    simp
  obtain ⟨c, x, lexeme, solid⟩ := exists_cons_of_mem_significant member
  have cut_front : pieces true (flat qs ++ c :: (x ++ flat rs)) =
      qs ++ (first.kind, first.lexeme) :: rs := by
    rw [← List.cons_append, ← lexeme, ← flat_cons first.kind, ← flat_append, ← cut]
    exact congrArg (pieces true) (flatten_pieces _ _)
  have behind := sig_pieces_append cut_front solid
    (ends_of_getLast? cut_front solid (sig_front ▸ ends)) 0 w
  have here : sig (last.stop + Text.byteLen b) (pieces (other || b.contains '\n') w) = later := by
    rw [← sig_blank blank, rest, sig_later]
  have opens : opensLine true qs = opensLine true (pieces true u) := by
    rw [← front_text, pieces_flat cut_front]
  have same : sig (last.stop + Text.byteLen b) (pieces (opensLine true qs) w) = later := by
    rw [← here]
    exact sig_of_lineStart (by rwa [here, opens])
  constructor
  · rw [← front_text]
    show sig 0 (pieces true (flat qs ++ w)) = _
    rw [behind, sig_front, sig_eq_map_move (last.stop + Text.byteLen b), same, stop, front_text,
      Nat.zero_add]
  · intro k member
    rw [← here, stop] at member
    exact start_le_of_mem_sig member

end ShaderPass.Token
