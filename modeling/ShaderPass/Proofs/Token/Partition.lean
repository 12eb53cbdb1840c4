import ShaderPass.Proofs.Token.Boundary
import ShaderPass.Proofs.Token.Comments

/-! The tokens of a text cut it at character boundaries without losing anything. Identifiers are whole
words, and directives are the logical lines that start with a number sign. -/
namespace ShaderPass.Token

open Text

inductive Tiles : Nat → List Token → Nat → Prop where
  | nil (n : Nat) : Tiles n [] n
  | cons {k : Token} {ts : List Token} {m : Nat} :
      k.lexeme ≠ [] → Tiles k.stop ts m → Tiles k.start (k :: ts) m

/-- Whether the tokens in front leave a place at the start of a line: there are only blanks and comments
behind the last line feed that stands in a blank, or from the start of the text on. -/
def OpensLine (front : List Token) : Prop :=
  ∃ before line, front = before ++ line ∧ (∀ k ∈ line, k.isTrivia = true) ∧
    ∀ k ∈ before.getLast?, k.kind = .blank ∧ '\n' ∈ k.lexeme

def Escapes (s : Text) : Prop :=
  (trimEndWhile (· = '\r') s).getLast? = some '\\'

/-- What is taken up to the first line feed that no backslash escapes, or up to the end. -/
structure TakesLine (lexeme rest : Text) : Prop where
  inside : ∀ s u, lexeme = s ++ '\n' :: u → Escapes s
  ends : rest = [] ∨ ∃ u, rest = '\n' :: u ∧ ¬ Escapes lexeme

/-- Tokens that cut a text. A directive is what starts with a number sign at the start of a line. -/
structure Partition (t : Text) (ts : List Token) : Prop where
  tiles : Tiles 0 ts (byteLen t)
  lossless : ts.flatMap Token.lexeme = t
  boundary : ∀ k ∈ ts, IsBoundary t k.start ∧ IsBoundary t k.stop ∧ slice k.start k.stop t = k.lexeme
  word : ∀ k ∈ ts, k.kind = .identifier →
    StandsAt t k.lexeme k.start ∧ k.start ∈ wordOffsets t k.lexeme
  directive_iff : ∀ front k later, ts = front ++ k :: later →
    (k.kind = .directive ↔ k.lexeme.head? = some '#' ∧ OpensLine front)
  line : ∀ k ∈ ts, k.kind = .directive → TakesLine k.lexeme (dropBytes k.stop t)

section Tiling

theorem tiles_place {ps : List (TokenKind × Text)} (filled : ∀ p ∈ ps, p.2 ≠ []) (n : Nat) :
    Tiles n (place n ps) (n + byteLen (flat ps)) := by
  induction ps generalizing n with
  | nil => exact .nil n
  | cons p ps ih =>
    have later := ih (fun q hq => filled q (List.mem_cons_of_mem _ hq)) (n + byteLen p.2)
    rw [flat_cons, byteLen_append, ← Nat.add_assoc]
    exact .cons (k := ⟨p.1, p.2, n⟩) (filled p List.mem_cons_self) later

theorem flatMap_lexeme_place (n : Nat) (ps : List (TokenKind × Text)) :
    (place n ps).flatMap Token.lexeme = flat ps := by
  induction ps generalizing n with
  | nil => rfl
  | cons p ps ih => rw [place, List.flatMap_cons, ih, flat_cons]

theorem exists_of_place_eq {n : Nat} {ps : List (TokenKind × Text)} {front later : List Token} {k : Token}
    (placed : place n ps = front ++ k :: later) :
    ∃ qs rs, ps = qs ++ (k.kind, k.lexeme) :: rs ∧ place n qs = front ∧
      k.start = n + byteLen (flat qs) := by
  induction ps generalizing n front with
  | nil => simp [place] at placed
  | cons p ps ih =>
    rw [place] at placed
    cases front with
    | nil =>
      obtain ⟨rfl, -⟩ := List.cons.inj placed
      exact ⟨[], ps, rfl, rfl, rfl⟩
    | cons first front =>
      obtain ⟨rfl, rest⟩ := List.cons.inj placed
      obtain ⟨qs, rs, rfl, front_eq, start⟩ := ih rest
      refine ⟨p :: qs, rs, rfl, by rw [place, front_eq], ?_⟩
      rw [start, flat_cons, byteLen_append, Nat.add_assoc]

end Tiling

section Directive

theorem opensLine_concat_iff {front : List Token} {k : Token} : OpensLine (front ++ [k]) ↔
    k.isTrivia = true ∧ (OpensLine front ∨ k.kind = .blank ∧ '\n' ∈ k.lexeme) := by
  constructor
  · rintro ⟨before, line, cut, trivia, last⟩
    rcases List.eq_nil_or_concat line with rfl | ⟨line, k', rfl⟩
    · rw [List.append_nil] at cut
      have feed := last k (by rw [← cut, List.getLast?_concat]; rfl)
      exact ⟨by simp [isTrivia, feed.1], Or.inr feed⟩
    · rw [List.concat_eq_append, ← List.append_assoc] at cut
      obtain ⟨rfl, same⟩ := List.append_inj' cut rfl
      obtain rfl := List.singleton_inj.1 same
      rw [List.concat_eq_append] at trivia
      refine ⟨trivia k (by simp), Or.inl ⟨before, line, rfl, fun j hj => ?_, last⟩⟩
      exact trivia j (List.mem_append_left _ hj)
  · rintro ⟨trivia, ⟨before, line, rfl, all, last⟩ | feed⟩
    · refine ⟨before, line ++ [k], List.append_assoc .., fun j hj => ?_, last⟩
      rcases List.mem_append.1 hj with hj | hj
      · exact all j hj
      · rw [List.mem_singleton.1 hj, trivia]
    · refine ⟨front ++ [k], [], (List.append_nil _).symm, List.forall_mem_nil _, fun j hj => ?_⟩
      rw [List.getLast?_concat, Option.mem_def, Option.some.injEq] at hj
      exact hj ▸ feed

theorem opensLine_place_iff (n : Nat) (qs : List (TokenKind × Text)) :
    OpensLine (place n qs) ↔ opensLine true qs = true := by
  induction qs using List.reverseRecOn with
  | nil => exact iff_of_true ⟨[], [], rfl, nofun, nofun⟩ rfl
  | append_singleton qs p ih =>
    have flag : opensLine true (qs ++ [p]) = startsLine (opensLine true qs) p.1 p.2 := by
      rw [opensLine, opensLine, List.foldl_append]
      rfl
    rw [place_append, place, place, opensLine_concat_iff, ih, flag]
    obtain ⟨kind, lexeme⟩ := p
    cases kind <;> simp [isTrivia, startsLine]

theorem directive_iff_of_pieces {t : Text} {qs rs : List (TokenKind × Text)} {p : TokenKind × Text}
    (cut : pieces true t = qs ++ p :: rs) :
    p.1 = .directive ↔ p.2.head? = some '#' ∧ opensLine true qs = true := by
  obtain ⟨c, rest, rfl, -⟩ := exists_classify_of_pieces cut
  constructor
  · intro directive
    obtain ⟨rfl, opens, -⟩ := hash_of_classify (Prod.ext directive rfl)
    exact ⟨rfl, opens⟩
  · rintro ⟨hash, opens⟩
    obtain rfl := Option.some.inj hash
    show (classify (opensLine true qs) '#' rest).1 = .directive
    rw [opens, classify_hash]
    rfl

theorem continues_iff {s : Text} : continues false s = true ↔ Escapes s := by
  induction s using List.reverseRecOn with
  | nil => exact iff_of_false nofun nofun
  | append_singleton s c ih =>
    rw [continues_append]
    by_cases carriage : c = '\r'
    · subst carriage
      rw [continues_returns (by simp), ih, Escapes, Escapes, trimEndWhile_append_of_pos (by simp)]
    · rw [Escapes, trimEndWhile_append_cons (by simp [carriage])]
      simp [continues, carriage, trimEndWhile]

theorem takesLine_of_directiveLength {s rest : Text}
    (ends : rest = [] ∨ ∃ v, rest = '\n' :: v) (length : directiveLength false (s ++ rest) = s.length) :
    TakesLine ('#' :: s) rest := by
  -- The number sign is neither a backslash nor a carriage return.
  have number_sign (r : Text) : Escapes ('#' :: r) ↔ continues false r = true := continues_iff.symm
  constructor
  · intro x u cut
    cases x with
    | nil => cases (List.cons.inj cut).1
    | cons d x =>
      rw [List.cons_append] at cut
      obtain ⟨rfl, rfl⟩ := List.cons.inj cut
      rw [number_sign]
      rw [List.append_assoc, List.length_append, List.length_cons] at length
      rw [directiveLength_append (by omega), List.cons_append, directiveLength, if_pos rfl] at length
      split at length
      · assumption
      · omega
  · rcases ends with done | ⟨v, feed⟩
    · exact Or.inl done
    refine Or.inr ⟨v, feed, fun escaped => ?_⟩
    rw [number_sign] at escaped
    rw [directiveLength_append (Nat.le_of_eq length.symm), escaped, feed, directiveLength, if_pos rfl,
      if_pos rfl] at length
    omega

end Directive

/-- Scanning cuts a text into its tokens. -/
theorem scan_partition (t : Text) : Partition t (scan t) := by
  have whole : flat (pieces true t) = t := flatten_pieces true t
  have filled : ∀ p ∈ pieces true t, p.2 ≠ [] := by
    rintro ⟨kind, lexeme⟩ member
    obtain ⟨c, s, rfl, -⟩ := exists_cons_of_mem_pieces member
    exact List.cons_ne_nil c s
  constructor
  · have tiles := tiles_place filled 0
    rwa [Nat.zero_add, whole] at tiles
  · rw [scan, flatMap_lexeme_place, whole]
  · intro k member
    have stands := (standsIn_of_mem_scan member).1
    refine ⟨stands.isBoundary_start, stands.isBoundary_stop, ?_⟩
    obtain ⟨a, b, rfl, start⟩ := stands
    rw [stop, ← start, slice_append]
  · intro k member identifier
    obtain ⟨front, later, tokens⟩ := List.append_of_mem member
    obtain ⟨qs, rs, cut, -, start⟩ := exists_of_place_eq tokens
    rw [identifier] at cut
    obtain ⟨isName, before, behind⟩ := isName_of_pieces cut
    have stands : StandsAt t k.lexeme k.start := by
      refine ⟨flat qs, flat rs, ?_, by rw [start, Nat.zero_add], before, behind⟩
      rw [← flat_cons .identifier, ← flat_append, ← cut, whole]
    exact ⟨stands, mem_wordOffsets isName.isWord stands⟩
  · intro front k later tokens
    obtain ⟨qs, rs, cut, rfl, -⟩ := exists_of_place_eq tokens
    rw [opensLine_place_iff]
    exact directive_iff_of_pieces cut
  · intro k member directive
    obtain ⟨front, later, tokens⟩ := List.append_of_mem member
    obtain ⟨qs, rs, cut, -, start⟩ := exists_of_place_eq tokens
    rw [directive] at cut
    obtain ⟨text, -, -, ends, s, lexeme, length⟩ := directive_of_pieces cut
    have stop_eq : k.stop = byteLen (flat qs ++ k.lexeme) := by
      rw [stop, start, Nat.zero_add, byteLen_append]
    rw [stop_eq, text, ← List.append_assoc, dropBytes_byteLen_append, lexeme]
    exact takesLine_of_directiveLength ends length

end ShaderPass.Token
