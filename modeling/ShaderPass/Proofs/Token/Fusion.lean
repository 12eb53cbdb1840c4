import ShaderPass.Proofs.LiveCode.Stability
import ShaderPass.Proofs.Token.Stripping

/-! What stripping comments does to the tokens. A comment that goes without a trace lets the tokens on its
sides touch, and they may grow together; a line feed that stays of it may let a number sign start a line.
All other tokens are read again as they were. -/
namespace ShaderPass.Token

open Text
open LiveCode (wording)

def isMeant (p : TokenKind × Text) : Bool :=
  p.1 ≠ .comment && p.1 ≠ .blank

def fuses (p : TokenKind × Text) (c : Char) : Bool :=
  match p.1 with
  | .identifier => isIdentChar c
  | .number => isIdentChar c || c = '.' ||
      (p.2.getLast? = some 'e' || p.2.getLast? = some 'E') && (c = '+' || c = '-')
  | .punct => p.2 = ['.'] && c.isDigit
  | _ => false

/-- Whether comments can go: no token grows by what comes to follow it, and no number sign comes to start
a line. A line feed that a comment leaves in front is `raised`. -/
def removable (raised : Bool) : List (TokenKind × Text) → Bool
  | [] => true
  | p :: ps =>
    if p.1 = .comment then removable (raised || p.2.contains '\n') ps
    else if p.1 = .blank then removable raised ps
    else !(raised && p = (.punct, ['#'])) && !(ps.flatMap kept).head?.any (fuses p) && removable false ps

section Meant

theorem wording_sig (n : Nat) (ps : List (TokenKind × Text)) : wording (sig n ps) = ps.filter isMeant := by
  induction ps generalizing n with
  | nil => rfl
  | cons p ps ih =>
    obtain ⟨kind, lexeme⟩ := p
    rw [sig_cons, List.filter_cons]
    by_cases trivia : kind = .comment ∨ kind = .blank
    · rw [if_pos trivia, if_neg (by simpa [isMeant, imp_iff_not_or] using trivia), ih]
    · rw [if_neg trivia, if_pos (by simpa [isMeant] using trivia), ← ih (n + byteLen lexeme)]
      rfl

theorem wording_significant (t : Text) :
    wording (significant t) = (pieces true t).filter isMeant :=
  wording_sig 0 _

theorem filter_append_blank {b : Text} (blank : ∀ c ∈ b, isTokenBlank c = true) (lineStart : Bool)
    (w : Text) : (pieces lineStart (b ++ w)).filter isMeant =
      (pieces (lineStart || b.contains '\n') w).filter isMeant := by
  rw [← wording_sig 0, sig_blank blank, wording_sig]

theorem startsLine_of_isMeant {kind : TokenKind} {lexeme : Text} (meant : isMeant (kind, lexeme) = true)
    (lineStart : Bool) : startsLine lineStart kind lexeme = false := by
  cases kind <;> first | rfl | cases meant

end Meant

section Number

def markAfter (mark : Bool) (s : Text) : Bool :=
  s.foldl (fun _ c => c = 'e' || c = 'E') mark

theorem numberLength_append {s rest : Text} {mark : Bool}
    (inside : s.length ≤ numberLength mark (s ++ rest)) (other : Text) :
    numberLength mark (s ++ other) = s.length + numberLength (markAfter mark s) other := by
  induction s generalizing mark with
  | nil => simp [markAfter]
  | cons c s ih =>
    rw [List.cons_append, numberLength, List.length_cons] at inside ⊢
    split at inside
    · rw [if_pos ‹_›, ih (by omega)]
      simp only [markAfter, List.foldl_cons]
      omega
    · omega

theorem markAfter_false {c : Char} (no_mark : c ≠ 'e' ∧ c ≠ 'E') (s : Text) : markAfter false s =
    ((c :: s).getLast? = some 'e' || (c :: s).getLast? = some 'E' : Bool) := by
  rcases List.eq_nil_or_concat s with rfl | ⟨s, d, rfl⟩
  · simp [markAfter, no_mark]
  · simp [markAfter, List.getLast?_cons]

theorem numberLength_eq_zero_iff {mark : Bool} {t : Text} : numberLength mark t = 0 ↔
    t.head?.any (fun d => isIdentChar d || d = '.' || mark && (d = '+' || d = '-')) = false := by
  cases t with
  | nil => simp [numberLength]
  | cons d t =>
    rw [numberLength, List.head?_cons, Option.any_some]
    split
    · rename_i goes_on
      rw [goes_on]
      exact iff_of_false (Nat.succ_ne_zero _) (by decide)
    · rename_i ends
      exact iff_of_true rfl (Bool.not_eq_true _ ▸ ends)

theorem numberLength_again {c : Char} {s rest other : Text} (no_mark : c ≠ 'e' ∧ c ≠ 'E')
    (whole : numberLength false (s ++ rest) = s.length) : numberLength false (s ++ other) = s.length ↔
      other.head?.any (fuses (.number, c :: s)) = false := by
  rw [numberLength_append (Nat.le_of_eq whole.symm), Nat.add_eq_left, numberLength_eq_zero_iff,
    markAfter_false no_mark]
  rfl

theorem opensNumber_again {c : Char} {t : Text}
    (start : c.isDigit = true ∨ c = '.' ∧ t.head?.any Char.isDigit = true) (other : Text) :
    c.isDigit = true ∨
      c = '.' ∧ (t.take (numberLength false t) ++ other).head?.any Char.isDigit = true := by
  refine start.imp_right fun point => ⟨point.1, ?_⟩
  cases t with
  | nil => cases point.2
  | cons d t =>
    have digit : d.isDigit = true := point.2
    rw [numberLength, if_pos (by simp [isIdentChar, Char.isAlphanum, digit])]
    exact digit

theorem numberLength_take (t : Text) :
    numberLength false (t.take (numberLength false t) ++ t.drop (numberLength false t)) =
      (t.take (numberLength false t)).length := by
  rw [List.take_append_drop, List.length_take, Nat.min_eq_left (numberLength_le false t)]

end Number

section Again

variable {lineStart lineStart' raised : Bool} {c : Char} {t : Text} {kind : TokenKind} {n : Nat}

theorem classify_of_starts (first : Starts lineStart c t kind n) (other : kind ≠ .comment) :
    classify lineStart c t = (kind, n) := by
  unfold classify
  cases first with
  | blank blank => rw [if_pos blank]
  | comment => exact absurd rfl other
  | directive hash start =>
    subst hash start
    exact classify_hash true t
  | identifier start =>
    have no_slash : c ≠ '/' := ne_of_isIdentStart start rfl
    have no_hash : c ≠ '#' := ne_of_isIdentStart start rfl
    simp [isTokenBlank_of_isIdentStart start, no_slash, no_hash, start]
  | number solid start =>
    have no_slash : c ≠ '/' := ne_of_opensNumber start rfl (by decide)
    have no_hash : c ≠ '#' := ne_of_opensNumber start rfl (by decide)
    have no_name : isIdentStart c = false := by
      cases name : isIdentStart c with
      | false => rfl
      | true =>
        rcases start with digit | ⟨rfl, -⟩
        · rw [isDigit_of_isIdentStart name] at digit
          cases digit
        · cases name
    simp [solid, no_slash, no_hash, no_name, start]
  | punct solid closed hash no_name no_digit no_point =>
    have no_directive : ¬(c = '#' ∧ lineStart = true) := by
      rintro ⟨here, start⟩
      rw [hash here] at start
      cases start
    have no_number : ¬(c = '.' ∧ t.head?.any Char.isDigit = true) := by
      rintro ⟨here, digit⟩
      rw [no_point here] at digit
      cases digit
    have no_comment : ¬(c = '/' ∧ t.head? = some '/') ∧ ¬(c = '/' ∧ t.head? = some '*') := by
      constructor <;> rintro ⟨here, behind⟩ <;> simp [opensComment, here, behind] at closed
    simp [solid, no_comment, no_directive, no_name, no_digit, no_number]

theorem Starts.again {rest : Text} (first : Starts lineStart c t kind n)
    (meant : isMeant (kind, c :: t.take n) = true) (start : lineStart = true → lineStart' = true)
    (hash : kind = .punct → c = '#' → lineStart' = false)
    (left : rest = (pieces false (t.drop n)).flatMap kept)
    (apart : rest.head?.any (fuses (kind, c :: t.take n)) = false) :
    Starts lineStart' c (t.take n ++ rest) kind (t.take n).length := by
  cases first with
  | blank => cases meant
  | comment => cases meant
  | directive here opens =>
    rw [left, ← directiveLength_flatMap_kept t]
    exact .directive here (start opens)
  | identifier name =>
    rw [take_length_takeWhile] at apart ⊢
    have ends : rest.takeWhile isIdentChar = [] := by
      cases rest with
      | nil => rfl
      | cons d rest => exact List.takeWhile_cons_of_neg (Bool.eq_false_iff.1 apart)
    have same : (t.takeWhile isIdentChar ++ rest).takeWhile isIdentChar = t.takeWhile isIdentChar := by
      rw [List.takeWhile_append_of_pos (List.all_eq_true.1 List.all_takeWhile), ends, List.append_nil]
    have again : Starts lineStart' c (t.takeWhile isIdentChar ++ rest) .identifier _ := .identifier name
    rwa [same] at again
  | number solid opens =>
    have no_mark : c ≠ 'e' ∧ c ≠ 'E' :=
      ⟨ne_of_opensNumber opens rfl (by decide), ne_of_opensNumber opens rfl (by decide)⟩
    rw [← (numberLength_again no_mark (numberLength_take t)).2 apart]
    exact .number solid (opensNumber_again opens rest)
  | punct solid closed _ no_name no_digit no_point =>
    rw [List.take_zero] at apart ⊢
    rw [List.drop_zero] at left
    refine .punct solid ?_ (hash rfl) no_name no_digit ?_
    · rw [left]
      exact opensComment_flatMap_kept closed
    · rintro rfl
      exact apart

theorem Starts.grown {rest : Text} (first : Starts lineStart c t kind n)
    (fused : rest.head?.any (fuses (kind, c :: t.take n)) = true) (lineStart' : Bool) :
    ∃ p ps, pieces lineStart' (c :: (t.take n ++ rest)) = p :: ps ∧ isMeant p = true ∧
      p ≠ (kind, c :: t.take n) := by
  obtain ⟨d, rest, rfl⟩ : ∃ d rest', rest = d :: rest' := by
    cases rest with
    | nil => cases fused
    | cons d rest => exact ⟨d, rest, rfl⟩
  rw [pieces_cons]
  refine ⟨_, _, rfl, ?_⟩
  cases first with
  | blank => cases fused
  | comment => cases fused
  | directive => cases fused
  | identifier name =>
    have more : isIdentChar d = true := fused
    rw [classify_of_starts (.identifier name) nofun, take_length_takeWhile, take_length_takeWhile,
      List.takeWhile_append_of_pos (List.all_eq_true.1 List.all_takeWhile), List.takeWhile_cons_of_pos more]
    refine ⟨rfl, fun same => ?_⟩
    have tails := (List.cons.inj (Prod.mk.inj same).2).2
    cases List.append_right_eq_self.1 tails
  | number solid opens =>
    have no_mark : c ≠ 'e' ∧ c ≠ 'E' :=
      ⟨ne_of_opensNumber opens rfl (by decide), ne_of_opensNumber opens rfl (by decide)⟩
    rw [classify_of_starts (.number solid (opensNumber_again opens _)) nofun]
    refine ⟨rfl, fun same => ?_⟩
    have tails := congrArg List.length (List.cons.inj (Prod.mk.inj same).2).2
    rw [List.length_take, Nat.min_eq_left (numberLength_le false _)] at tails
    rw [(numberLength_again no_mark (numberLength_take t)).1 tails] at fused
    cases fused
  | punct solid =>
    obtain ⟨point, digit⟩ : [c] = ['.'] ∧ d.isDigit = true := by
      simpa [fuses] using fused
    have opens : c.isDigit = true ∨ c = '.' ∧ (d :: rest).head?.any Char.isDigit = true :=
      Or.inr ⟨(List.cons.inj point).1, digit⟩
    rw [List.take_zero, List.nil_append, classify_of_starts (.number solid opens) nofun]
    exact ⟨rfl, nofun⟩

/-- The first token is read again, and the others behind it, unless it grows or comes to start a line. -/
theorem filter_again_iff {rest : Text} (first : Starts lineStart c t kind n)
    (meant : isMeant (kind, c :: t.take n) = true)
    (left : rest = (pieces false (t.drop n)).flatMap kept) (later : List (TokenKind × Text)) :
    (pieces (lineStart || raised) (c :: (t.take n ++ rest))).filter isMeant =
        (kind, c :: t.take n) :: later ↔
      (!(raised && (kind, c :: t.take n) = (.punct, ['#'])) &&
        !rest.head?.any (fuses (kind, c :: t.take n))) = true ∧
          (pieces false rest).filter isMeant = later := by
  cases fused : rest.head?.any (fuses (kind, c :: t.take n)) with
  | true =>
    obtain ⟨p, ps, cut, meant', other⟩ := first.grown fused (lineStart || raised)
    rw [cut, List.filter_cons_of_pos meant']
    refine iff_of_false (fun same => other (List.cons.inj same).1) ?_
    rw [Bool.not_true, Bool.and_false]
    exact fun both => nomatch both.1
  | false =>
    by_cases hash : raised = true ∧ (kind, c :: t.take n) = (.punct, ['#'])
    · obtain ⟨rfl, number_sign⟩ := hash
      obtain ⟨rfl, single⟩ := Prod.mk.inj number_sign
      obtain ⟨rfl, -⟩ := List.cons.inj single
      rw [pieces_cons, Bool.or_true, classify_hash, if_pos rfl]
      refine iff_of_false (fun same => nomatch (List.cons.inj same).1) ?_
      rw [single]
      exact fun both => nomatch both.1
    have level : kind = .punct → c = '#' → (lineStart || raised) = false := by
      rintro rfl rfl
      cases first with
      | punct _ _ inside =>
        rw [inside rfl, Bool.false_or]
        exact Bool.eq_false_iff.2 fun here => hash ⟨here, rfl⟩
    have again := first.again meant (fun start => by rw [start, Bool.true_or]) level left fused
    have other : kind ≠ .comment := by
      rintro rfl
      cases meant
    rw [pieces_cons, classify_of_starts again other, List.take_left, List.drop_left,
      startsLine_of_isMeant meant, List.filter_cons_of_pos meant, List.cons.injEq]
    refine and_congr_left' (iff_of_true rfl ?_)
    rw [Bool.not_false, Bool.and_true, Bool.not_eq_true', Bool.eq_false_iff, ne_eq, Bool.and_eq_true,
      decide_eq_true_eq]
    exact hash

end Again

section Removable

theorem filter_flatMap_kept (lineStart raised : Bool) (t : Text) :
    (pieces (lineStart || raised) ((pieces lineStart t).flatMap kept)).filter isMeant =
        (pieces lineStart t).filter isMeant ↔
      removable raised (pieces lineStart t) = true := by
  fun_induction pieces lineStart t generalizing raised with
  | case1 => simp [pieces, removable]
  | case2 lineStart c t kind n first lexeme =>
    rename_i ih
    rw [List.flatMap_cons, removable]
    by_cases comment : kind = .comment
    · subst comment
      rw [if_pos rfl, filter_append_blank isTokenBlank_of_mem_kept,
        List.filter_cons_of_neg Bool.false_ne_true, kept, if_pos rfl, ← ih (raised || lexeme.contains '\n')]
      have feeds : (lexeme.filter (· = '\n')).contains '\n' = lexeme.contains '\n' := by
        rw [Bool.eq_iff_iff]
        simp
      rw [feeds, startsLine, Bool.or_assoc]
    by_cases blank : kind = .blank
    · subst blank
      have run : ∀ d ∈ lexeme, isTokenBlank d = true := by
        cases starts_of_classify first with
        | blank hc => exact fun d => isTokenBlank_of_mem_blank hc
      rw [if_neg comment, if_pos rfl, kept, if_neg comment, filter_append_blank run,
        List.filter_cons_of_neg Bool.false_ne_true, ← ih raised, startsLine, Bool.or_right_comm]
    have meant : isMeant (kind, lexeme) = true := by simp [isMeant, comment, blank]
    rw [startsLine_of_isMeant meant] at ih ⊢
    rw [if_neg comment, if_neg blank, List.filter_cons_of_pos meant, kept, if_neg comment,
      Bool.and_eq_true, ← ih false]
    exact filter_again_iff (starts_of_classify first) meant rfl _

/-- Stripping comments keeps the tokens of a text, in kind and wording, if and only if none of them grows
together with what a comment kept from it and no number sign comes to start a line. -/
theorem significant_stripComments_iff (t : Text) :
    wording (significant (stripComments t)) = wording (significant t) ↔
      removable false (pieces true t) = true := by
  rw [wording_significant, wording_significant, stripComments_eq]
  exact filter_flatMap_kept true false t

/-- Comments among blanks can go. -/
example : removable false (pieces true "a /* b */ c // d\n#define X /**/\n".toList) = true := by
  decide +kernel

/-- A comment without a line feed separates nothing once it is gone, and a line feed of one lets a number
sign start a directive. -/
theorem not_significant_stripComments :
    wording (significant (stripComments "a/**/b".toList)) ≠ wording (significant "a/**/b".toList) ∧
      wording (significant (stripComments "int a; /*\n*/ #define X".toList)) ≠
        wording (significant "int a; /*\n*/ #define X".toList) := by
  decide +kernel

end Removable

end ShaderPass.Token
