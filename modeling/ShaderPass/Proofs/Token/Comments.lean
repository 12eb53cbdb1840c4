import Mathlib.Data.List.Induction
import ShaderPass.Proofs.Text.Lines
import ShaderPass.Proofs.Text.Trimming
import ShaderPass.Proofs.Token.Cutting

/-! Comments behind directives. A directive takes its whole line, so stripping leaves a comment at the
end of the line where it is and changes nothing around it. -/
namespace ShaderPass

open Text

def Text.lastLine (t : Text) : Text :=
  (t.reverse.takeWhile (· ≠ '\n')).reverse

def Text.remark (c : Text) : Text :=
  ' ' :: '/' :: '/' :: ' ' :: c

namespace Text

theorem getLast?_trimEndWhile {p : α → Bool} {t : List α} {c : α}
    (last : (trimEndWhile p t).getLast? = some c) : p c = false := by
  obtain ⟨s, cut⟩ := List.getLast?_eq_some_iff.1 last
  cases trimmed : p c with
  | false => rfl
  | true =>
    have again := trimEndWhile_trimEndWhile p t
    rw [cut, trimEndWhile_append_of_pos (by simpa using trimmed)] at again
    obtain ⟨b, rest, -⟩ := exists_trimEndWhile p s
    rw [again] at rest
    have := congrArg List.length rest
    simp at this

theorem lastLine_append_of_mem {t : Text} (feed : '\n' ∈ t) (s : Text) :
    lastLine (s ++ t) = lastLine t := by
  have stops : ∃ c ∈ t.reverse, ¬(c ≠ '\n') := ⟨'\n', List.mem_reverse.2 feed, by simp⟩
  have short : (t.reverse.takeWhile (· ≠ '\n')).length ≠ t.reverse.length := by
    intro whole
    obtain ⟨c, member, stop⟩ := stops
    have := (List.takeWhile_prefix (· ≠ '\n') (l := t.reverse)).eq_of_length whole
    rw [← this] at member
    exact stop (by simpa using List.all_eq_true.1 List.all_takeWhile c member)
  rw [lastLine, List.reverse_append, List.takeWhile_append, if_neg short, lastLine]

theorem lastLine_append_of_notMem {t : Text} (free : '\n' ∉ t) (s : Text) :
    lastLine (s ++ t) = lastLine s ++ t := by
  have all : ∀ c ∈ t.reverse, (decide (c ≠ '\n')) = true := by
    intro c member
    rw [decide_eq_true_eq]
    rintro rfl
    exact free (List.mem_reverse.1 member)
  rw [lastLine, List.reverse_append, List.takeWhile_append_of_pos all, List.reverse_append,
    List.reverse_reverse, lastLine]

theorem notMem_lastLine (t : Text) : '\n' ∉ lastLine t := by
  intro feed
  have := List.all_eq_true.1 List.all_takeWhile _ (List.mem_reverse.1 feed)
  simp at this

theorem mem_of_mem_lastLine {t : Text} {c : Char} (member : c ∈ lastLine t) : c ∈ t :=
  List.mem_reverse.1 ((List.takeWhile_prefix _).mem (List.mem_reverse.1 member))

theorem exists_feedLines (s : Text) {w : Text} (ends : w = [] ∨ ∃ v, w = '\n' :: v) :
    ∃ before after, ∀ x, '\n' ∉ x →
      feedLines (s ++ (x ++ w)) = before ++ (lastLine s ++ x) :: after := by
  obtain ⟨u, cut, first⟩ := exists_eq_append_lastLine s
  rw [← lastLine] at cut
  have behind : ∃ after, ∀ x, '\n' ∉ x →
      splitOn '\n' (lastLine s ++ (x ++ w)) = (lastLine s ++ x) :: after := by
    rcases ends with rfl | ⟨v, rfl⟩
    · refine ⟨[], fun x free => ?_⟩
      rw [List.append_nil]
      exact splitOn_eq_singleton fun feed =>
        (List.mem_append.1 feed).elim (notMem_lastLine s) free
    · refine ⟨splitOn '\n' v, fun x free => ?_⟩
      rw [← List.append_assoc]
      exact splitOn_append_cons (fun feed =>
        (List.mem_append.1 feed).elim (notMem_lastLine s) free) v
  obtain ⟨after, behind⟩ := behind
  rcases first with rfl | ⟨v, rfl⟩
  · refine ⟨[], after, fun x free => ?_⟩
    rw [List.nil_append] at cut
    rw [feedLines, List.nil_append]
    conv => lhs; rw [cut]
    exact behind x free
  · refine ⟨splitOn '\n' v, after, fun x free => ?_⟩
    rw [← behind x free, ← splitOn_append, feedLines]
    conv => lhs; rw [cut]
    simp

end Text

namespace Token

def continues (continued : Bool) (s : Text) : Bool :=
  s.foldl (fun continued c => c = '\\' || c = '\r' && continued) continued

theorem continues_append (continued : Bool) (s t : Text) :
    continues continued (s ++ t) = continues (continues continued s) t :=
  List.foldl_append

theorem continues_returns {returns : Text} (only : ∀ c ∈ returns, c = '\r') (continued : Bool) :
    continues continued returns = continued := by
  induction returns with
  | nil => rfl
  | cons c returns ih =>
    obtain rfl := only c List.mem_cons_self
    exact ih fun d member => only d (List.mem_cons_of_mem _ member)

theorem continues_concat {s : Text} {c : Char} (no_backslash : c ≠ '\\') (no_return : c ≠ '\r')
    (continued : Bool) : continues continued (s ++ [c]) = false := by
  rw [continues_append]
  simp [continues, no_backslash, no_return]

theorem continues_remark {c : Text}
    (closed : (trimEndWhile (· = '\r') c).getLast? ≠ some '\\') (continued : Bool) :
    continues continued (remark c) = false := by
  obtain ⟨returns, cut, only⟩ := exists_trimEndWhile (· = '\r') c
  rw [remark, cut, ← List.cons_append, ← List.cons_append, ← List.cons_append, ← List.cons_append,
    continues_append, continues_returns fun d member => of_decide_eq_true (only d member)]
  rcases List.eq_nil_or_concat (trimEndWhile (· = '\r') c) with nil | ⟨s, d, last⟩
  · rw [nil]
    exact continues_concat (s := [' ', '/', '/']) (by decide) (by decide) continued
  · have final : (trimEndWhile (· = '\r') c).getLast? = some d := by
      rw [last, List.concat_eq_append, List.getLast?_concat]
    have stays : d ≠ '\r' := by
      have := getLast?_trimEndWhile final
      exact of_decide_eq_false this
    rw [last, List.concat_eq_append] at closed ⊢
    exact continues_concat (s := ' ' :: '/' :: '/' :: ' ' :: s) (by simpa using closed) stays continued

theorem directiveLength_append {s r : Text} {continued : Bool}
    (inside : s.length ≤ directiveLength continued (s ++ r)) :
    directiveLength continued (s ++ r) = s.length + directiveLength (continues continued s) r := by
  induction s generalizing continued with
  | nil => simp [continues]
  | cons c s ih =>
    rw [List.cons_append, directiveLength, List.length_cons] at inside ⊢
    split at inside
    · rename_i feed
      subst feed
      split at inside
      · rw [if_pos rfl, if_pos ‹_›, ih (by omega)]
        simp only [continues, List.foldl_cons]
        simp
        omega
      · omega
    · rw [if_neg ‹_›, ih (by omega)]
      simp only [continues, List.foldl_cons]
      omega

theorem length_le_directiveLength_append {s r : Text} {continued : Bool}
    (inside : s.length ≤ directiveLength continued (s ++ r)) (r' : Text) :
    s.length ≤ directiveLength continued (s ++ r') := by
  induction s generalizing continued with
  | nil => exact Nat.zero_le _
  | cons c s ih =>
    rw [List.cons_append, directiveLength, List.length_cons] at inside ⊢
    split at inside
    · split at inside
      · rw [if_pos ‹_›, if_pos ‹_›]
        exact Nat.succ_le_succ (ih (by omega))
      · omega
    · rw [if_neg ‹_›]
      exact Nat.succ_le_succ (ih (by omega))

theorem length_le_directiveLength {s : Text} (one_line : '\n' ∉ s) (r : Text) (continued : Bool) :
    s.length ≤ directiveLength continued (s ++ r) := by
  induction s generalizing continued with
  | nil => exact Nat.zero_le _
  | cons c s ih =>
    rw [List.mem_cons, not_or] at one_line
    have := ih one_line.2 (c = '\\' || c = '\r' && continued)
    rw [List.cons_append, directiveLength, if_neg (Ne.symm one_line.1), List.length_cons]
    omega

theorem directiveLength_remark {body returns r c : Text} (only : ∀ d ∈ returns, d = '\r')
    (ends : r = [] ∨ ∃ v, r = '\n' :: v) (one_line : '\n' ∉ c)
    (closed : (trimEndWhile (· = '\r') c).getLast? ≠ some '\\')
    (whole : directiveLength false (body ++ (returns ++ r)) = (body ++ returns).length) :
    directiveLength false (body ++ (remark c ++ (returns ++ r))) =
      (body ++ (remark c ++ returns)).length := by
  have no_feed : '\n' ∉ remark c := by simp [remark, one_line]
  have returns_free : '\n' ∉ returns := fun feed => absurd (only _ feed) (by decide)
  rw [List.length_append] at whole
  have inside : body.length ≤ directiveLength false (body ++ (returns ++ r)) := by omega
  have front := length_le_directiveLength_append inside (remark c ++ (returns ++ r))
  rw [directiveLength_append front, directiveLength_append (length_le_directiveLength no_feed _ _),
    continues_remark closed, directiveLength_append (length_le_directiveLength returns_free _ _),
    continues_returns only]
  have stop : directiveLength false r = 0 := by
    rcases ends with rfl | ⟨v, rfl⟩ <;> rfl
  rw [stop]
  simp only [List.length_append]
  omega

def kept (p : TokenKind × Text) : Text :=
  if p.1 = .comment then p.2.filter (· = '\n') else p.2

theorem stripComments_eq (t : Text) : stripComments t = (pieces true t).flatMap kept := by
  have placed (n : Nat) (ps : List (TokenKind × Text)) :
      ((place n ps).flatMap fun token =>
        if token.kind = .comment then token.lexeme.filter (· = '\n') else token.lexeme) =
      ps.flatMap kept := by
    induction ps generalizing n with
    | nil => rfl
    | cons p ps ih =>
      rw [place, List.flatMap_cons, List.flatMap_cons, ih]
      rfl
  exact placed 0 _

theorem pieces_flat_append {lineStart : Bool} {qs rs : List (TokenKind × Text)} {c : Char} {r : Text}
    (cut : pieces lineStart (flat qs ++ c :: r) = qs ++ rs) (r' : Text) :
    pieces lineStart (flat qs ++ c :: r') = qs ++ pieces (opensLine lineStart qs) (c :: r') := by
  induction qs generalizing lineStart with
  | nil => rfl
  | cons p qs ih =>
    obtain ⟨kind, lexeme⟩ := p
    rw [flat_cons, List.append_assoc] at cut
    obtain ⟨a, s, rfl, first, later⟩ := classify_of_pieces (by simp) cut
    have same : classify lineStart a (s ++ (flat qs ++ c :: r')) = (kind, s.length) := by
      refine classify_of_head? (Or.inr ?_) first
      cases qs with
      | nil => rfl
      | cons q qs => exact head?_flat_append later qs _ _
    rw [flat_cons, List.append_assoc, List.cons_append, pieces_cons, same, List.take_left,
      List.drop_left, ih later]
    rfl

theorem isTokenBlank_of_mem_pieces {lineStart : Bool} {t : Text} {lexeme : Text}
    (member : (.blank, lexeme) ∈ pieces lineStart t) : ∀ c ∈ lexeme, isTokenBlank c = true := by
  fun_induction pieces lineStart t with
  | case1 => cases member
  | case2 lineStart c t kind more classified lexeme' ih =>
    rcases List.mem_cons.1 member with here | later
    · obtain ⟨rfl, rfl⟩ := Prod.mk.inj here
      cases first : isTokenBlank c with
      | false => exact absurd classified (classify_ne_blank first)
      | true =>
        rw [classify, if_pos first] at classified
        obtain ⟨-, rfl⟩ := Prod.mk.inj classified
        intro d among
        rcases List.mem_cons.1 among with rfl | among
        · exact first
        · rw [take_length_takeWhile] at among
          exact List.all_eq_true.1 List.all_takeWhile d among
    · exact ih later

theorem isTokenBlank_of_opensLine {lineStart : Bool} {t : Text} {qs rs : List (TokenKind × Text)}
    (cut : pieces lineStart t = qs ++ rs) (opens : opensLine lineStart qs = true) :
    ∀ c ∈ lastLine (qs.flatMap kept), isTokenBlank c = true := by
  induction qs using List.reverseRecOn generalizing rs with
  | nil => simp [lastLine]
  | append_singleton qs p ih =>
    obtain ⟨kind, lexeme⟩ := p
    rw [List.append_assoc, List.singleton_append] at cut
    have member : (kind, lexeme) ∈ pieces lineStart t := by rw [cut]; simp
    have start : startsLine (opensLine lineStart qs) kind lexeme = true := by
      rw [← opens, opensLine, opensLine, List.foldl_append]
      rfl
    -- the last piece leaves blanks, and they start a line unless the pieces before it do
    have blank : (∀ c ∈ kept (kind, lexeme), isTokenBlank c = true) ∧
        ('\n' ∈ kept (kind, lexeme) ∨ opensLine lineStart qs = true) := by
      cases kind with
      | blank =>
        rw [startsLine, Bool.or_eq_true, List.contains_iff_mem] at start
        exact ⟨isTokenBlank_of_mem_pieces member, start.symm⟩
      | comment =>
        refine ⟨fun c among => ?_, Or.inr start⟩
        obtain rfl : c = '\n' := of_decide_eq_true (List.mem_filter.1 among).2
        rfl
      | identifier | number | punct | directive => cases start
    rw [List.flatMap_append, List.flatMap_singleton]
    by_cases feed : '\n' ∈ kept (kind, lexeme)
    · rw [lastLine_append_of_mem feed]
      exact fun c among => blank.1 c (mem_of_mem_lastLine among)
    · rw [lastLine_append_of_notMem feed]
      intro c among
      rcases List.mem_append.1 among with before | here
      · exact ih cut (blank.2.resolve_left feed) c before
      · exact blank.1 c here

theorem directiveLength_le (continued : Bool) (t : Text) : directiveLength continued t ≤ t.length := by
  induction t generalizing continued with
  | nil => exact Nat.le_refl _
  | cons c t ih =>
    rw [directiveLength, List.length_cons]
    split
    · split
      · exact Nat.succ_le_succ (ih _)
      · exact Nat.zero_le _
    · exact Nat.succ_le_succ (ih _)

theorem directive_of_pieces {t : Text} {qs rs : List (TokenKind × Text)} {lexeme : Text}
    (cut : pieces true t = qs ++ (.directive, lexeme) :: rs) :
    t = flat qs ++ (lexeme ++ flat rs) ∧ opensLine true qs = true ∧ rs = pieces false (flat rs) ∧
      (flat rs = [] ∨ ∃ v, flat rs = '\n' :: v) ∧
      ∃ s, lexeme = '#' :: s ∧ directiveLength false (s ++ flat rs) = s.length := by
  have text : t = flat qs ++ (lexeme ++ flat rs) := by
    rw [← flat_cons .directive, ← flat_append, ← cut]
    exact (flatten_pieces _ _).symm
  have member : (.directive, lexeme) ∈ pieces true t := by rw [cut]; simp
  obtain ⟨a, s, rfl, -⟩ := exists_cons_of_mem_pieces member
  have suffix := pieces_flat_append (by rw [← List.cons_append, ← text, cut]) (s ++ flat rs)
  rw [← List.cons_append, ← text, cut] at suffix
  have suffix := List.append_cancel_left suffix
  rcases first : classify (opensLine true qs) a (s ++ flat rs) with ⟨kind, n⟩
  rw [List.cons_append, pieces_cons, first] at suffix
  obtain ⟨piece, later⟩ := List.cons.inj suffix
  obtain ⟨rfl, lexeme⟩ := Prod.mk.inj piece
  obtain ⟨rfl, opens, length⟩ := hash_of_classify first
  have taken : s = (s ++ flat rs).take n := (List.cons.inj lexeme).2
  have whole : n = s.length := by
    have len := congrArg List.length taken
    have le := directiveLength_le false (s ++ flat rs)
    rw [List.length_take, List.length_append] at len
    rw [length, List.length_append] at le
    cases behind : flat rs with
    | nil => simp only [behind, List.length_nil] at len le; omega
    | cons c v => simp only [behind, List.length_cons] at len le; omega
  subst whole
  rw [List.drop_left] at later
  refine ⟨text, opens, later, ?_, s, rfl, length⟩
  cases behind : flat rs with
  | nil => exact Or.inl rfl
  | cons c v =>
    rw [behind] at length
    exact Or.inr ⟨v, by rw [head_of_directiveLength length]⟩

/-- A directive of the text made of these parts, and a remark for the end of its line. Carriage returns
that end the line stay behind the remark. -/
structure Remarked (a body returns r c : Text) : Prop where
  directive : ∃ k ∈ significant (a ++ (body ++ (returns ++ r))), k.isDirective = true ∧
    k.start = byteLen a ∧ k.lexeme = body ++ returns
  only_returns : ∀ d ∈ returns, d = '\r'
  one_line : '\n' ∉ c
  closed : (trimEndWhile (· = '\r') c).getLast? ≠ some '\\'

theorem Remarked.exists_stripped {a body returns r c : Text} (h : Remarked a body returns r c) :
    ∃ front rest, stripComments (a ++ (body ++ (returns ++ r))) = front ++ (body ++ (returns ++ rest)) ∧
      stripComments (a ++ (body ++ (remark c ++ (returns ++ r)))) =
        front ++ (body ++ (remark c ++ (returns ++ rest))) ∧
      (rest = [] ∨ ∃ v, rest = '\n' :: v) ∧ ∀ d ∈ lastLine front, isTokenBlank d = true := by
  obtain ⟨k, member, directive, start, lexeme⟩ := h.directive
  obtain ⟨front, later, tokens⟩ := List.append_of_mem member
  obtain ⟨qs, rs, cut, -, place, -⟩ := exists_of_sig_eq tokens
  rw [show k.kind = .directive from of_decide_eq_true directive, lexeme] at cut
  obtain ⟨text, opens, behind, ends, s, hash, length⟩ := directive_of_pieces cut
  obtain ⟨rfl, parts⟩ := append_inj_of_byteLen text (by omega)
  rw [List.append_assoc] at parts
  obtain rfl : r = flat rs := List.append_cancel_left (List.append_cancel_left parts)
  obtain ⟨body, rfl⟩ : ∃ rest, body = '#' :: rest := by
    cases body with
    | nil =>
      have : '#' ∈ returns := by rw [List.nil_append] at hash; simp [hash]
      exact absurd (h.only_returns _ this) (by decide)
    | cons d rest => exact ⟨rest, by rw [(List.cons.inj hash).1]⟩
  obtain rfl : s = body ++ returns := (List.cons.inj hash).2.symm
  have remarked : pieces true (flat qs ++ ('#' :: body ++ (remark c ++ (returns ++ flat rs)))) =
      qs ++ (.directive, '#' :: body ++ (remark c ++ returns)) :: rs := by
    rw [List.append_assoc] at length
    have longer := directiveLength_remark h.only_returns ends h.one_line h.closed length
    have front := pieces_flat_append (r := body ++ (returns ++ flat rs)) cut
      (body ++ (remark c ++ (returns ++ flat rs)))
    have parts : body ++ (remark c ++ (returns ++ flat rs)) =
        (body ++ (remark c ++ returns)) ++ flat rs := by simp
    rw [List.cons_append, front, opens, pieces_cons, classify_hash, if_pos rfl, longer, parts,
      List.take_left, List.drop_left]
    show _ ++ _ :: pieces false (flat rs) = _
    rw [← behind]
    rfl
  refine ⟨qs.flatMap kept, rs.flatMap kept, ?_, ?_, ?_, isTokenBlank_of_opensLine cut opens⟩
  · rw [stripComments_eq, cut, List.flatMap_append, List.flatMap_cons, kept, if_neg nofun,
      List.append_assoc]
  · rw [stripComments_eq, remarked, List.flatMap_append, List.flatMap_cons, kept,
      if_neg nofun, List.append_assoc, List.append_assoc]
  · rcases ends with nil | ⟨v, feed⟩
    · rw [behind, nil]
      exact Or.inl (by simp [pieces])
    · have blank : classify false '\n' v = (.blank, (v.takeWhile isTokenBlank).length) := rfl
      rw [behind, feed, pieces_cons, blank]
      exact Or.inr ⟨_, rfl⟩

end Token
end ShaderPass
