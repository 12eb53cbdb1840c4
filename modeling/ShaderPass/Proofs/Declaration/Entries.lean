import ShaderPass.Proofs.Declaration.Rewriting

/-! What a declaration that was read is made of: its layout has entries that read back, its slots are
those of its layout, and its brackets and its list stand inside its range. -/
namespace ShaderPass

open Token ShaderPass.Bracket

namespace Bracket

theorem closing_notMem_of_nested {b : Bracket} (hb : b ∈ all) {stack : List Bracket} {t : Text}
    (closed : nested stack t = true) (outside : b ∉ stack) (no_opening : b.opening ∉ t) :
    b.closing ∉ t := by
  induction t generalizing stack with
  | nil => exact List.not_mem_nil
  | cons c t ih =>
    obtain ⟨other, no_later⟩ := not_or.1 (List.mem_cons.not.1 no_opening)
    refine List.mem_cons.not.2 (not_or.2 ?_)
    rcases isPlain_or c with plain | ⟨b', hb', rfl⟩ | ⟨b', hb', rfl⟩
    · rw [nested_cons_of_isPlain plain] at closed
      refine ⟨?_, ih closed outside no_later⟩
      rintro rfl
      have := List.all_eq_true.1 plain b hb
      simp at this
    · rw [nested_cons_opening hb'] at closed
      obtain ⟨same, -, apart, -⟩ := distinct b hb b' hb'
      refine ⟨Ne.symm apart, ih closed ?_ no_later⟩
      rw [List.mem_cons, not_or]
      refine ⟨?_, outside⟩
      rintro rfl
      exact other rfl
    · obtain ⟨outer, rfl, rest⟩ := (nested_cons_closing hb' _ _).1 closed
      obtain ⟨first, further⟩ := not_or.1 (List.mem_cons.not.1 outside)
      obtain ⟨-, same, -, -⟩ := distinct b hb b' hb'
      exact ⟨fun closing => first (same.1 closing.symm).symm, ih rest further no_later⟩

end Bracket

namespace Token

theorem exists_mem_place {ps : List (TokenKind × Text)} {p : TokenKind × Text} (member : p ∈ ps)
    (n : Nat) : ∃ token ∈ place n ps, token.kind = p.1 := by
  induction ps generalizing n with
  | nil => cases member
  | cons q ps ih =>
    obtain ⟨kind, lexeme⟩ := q
    rcases List.mem_cons.1 member with rfl | member
    · exact ⟨_, List.mem_cons_self, rfl⟩
    · obtain ⟨token, found, same⟩ := ih member (n + Text.byteLen lexeme)
      exact ⟨token, List.mem_cons_of_mem _ found, same⟩

theorem exists_fills {t : Text} (no_comment : ∀ k ∈ scan t, k.kind ≠ .comment)
    {front body later : List Token} {y close : Token}
    (tokens : significant t = front ++ y :: (body ++ close :: later))
    (no_directive : ∀ k ∈ body, k.isDirective = false) (opens : y.kind = .punct)
    (closes : close.lexeme = [')']) :
    ∃ ps, Fills (Text.slice y.stop close.start t) ps ∧ sig y.stop ps = body ∧
      calm false (Text.slice y.stop close.start t) = true := by
  obtain ⟨qs, rest, cut, -, start, sig_rest⟩ := exists_of_sig_eq tokens
  obtain ⟨ps, rs, rfl, sig_ps, start', -⟩ := exists_of_sig_eq sig_rest
  have whole : t = (flat qs ++ y.lexeme) ++ (flat ps ++ (close.lexeme ++ flat rs)) := by
    have := flatten_pieces true t
    rw [cut] at this
    rw [← this]
    show flat _ = _
    simp only [flat_append, flat_cons, List.append_assoc]
  have inner : Text.slice y.stop close.start t = flat ps := by
    have stop : Text.byteLen (flat qs ++ y.lexeme) = y.stop := by
      rw [Text.byteLen_append, Token.stop, start, Nat.zero_add]
    rw [start', ← stop]
    nth_rewrite 1 [whole]
    exact Text.slice_append _ _ _
  have member : ∀ p ∈ ps, p ∈ pieces true t := fun p hp => by
    rw [cut]
    simp [hp]
  have kinds : ∀ p ∈ ps, p.1 ≠ .comment ∧ p.1 ≠ .directive := by
    intro p hp
    constructor
    · obtain ⟨k, found, same⟩ := exists_mem_place (member p hp) 0
      exact same ▸ no_comment k found
    · intro directive
      obtain ⟨k, found, same⟩ := exists_mem_place hp y.stop
      rw [directive] at same
      have : k ∈ body := by
        rw [← sig_ps]
        exact List.mem_filter.2 ⟨found, by simp [isTrivia, same]⟩
      have := no_directive k this
      simp [isDirective, same] at this
  obtain ⟨other, pieces_eq, line⟩ := pieces_rest cut
  rw [line opens, flat_append, flat_cons, closes, List.singleton_append] at pieces_eq
  rw [inner]
  exact ⟨ps, ⟨rfl, kinds, true, t, member⟩, sig_ps, calm_of_pieces pieces_eq kinds⟩

end Token

namespace Declaration

open Layout Statement FunctionDef Compile

section Placement

variable {t : Text} {d : Declaration} {front own before later : List Token} {k : Token}

theorem Placement.isEntry (place : Placement t d front own before k later)
    (no_comment : ∀ k ∈ Token.scan t, k.kind ≠ .comment) (group : Group before) :
    ∀ entry ∈ d.layout, IsEntry entry := by
  rcases place.counts with ⟨-, empty, -⟩ | ⟨inner, range, -, list⟩
  · rw [place.bare empty]
    exact fun _ member => absurd member List.not_mem_nil
  rw [place.layout inner range list]
  obtain ⟨x, y, body, close, rfl, named, opens, found, rfl, -⟩ := list
  have closes := isPunct_of_closeOffset? opens found
  have regroup : significant t =
      (front ++ own ++ [x]) ++ y :: (body ++ close :: k :: later) := by
    rw [place.tokens]
    simp
  have close_mem : close ∈ significant t := by simp [regroup]
  have flat : ∀ v ∈ body, v.isDirective = false ∧ v.isPunct ';' = false ∧ v.isPunct '\x7b' = false :=
    fun v hv => group.flat v (by simp [hv])
  obtain ⟨ps, fills, rfl, quiet⟩ := exists_fills no_comment regroup (fun v hv => (flat v hv).1)
    (by rw [isPunct, Bool.and_eq_true] at opens; exact of_decide_eq_true opens.1)
    (lexeme_of_isPunct close_mem closes)
  have inside : nested [] (marks (sig y.stop ps)) = true := by
    have closed := place.closed.2
    obtain ⟨c, rest, lexeme, letter⟩ := letter_of_layout named
    rw [nested_marks_of_letter lexeme letter, marks_cons_of_some (isPunct_iff.1 opens)] at closed
    have opened : nested ([] ++ paren :: []) (marks (sig y.stop ps ++ [close])) = true := closed
    have inner := nested_take_of_closeAfter (by decide) [] opened
      (closeAfter_of_closeOffset? opens found)
    rwa [List.take_left] at inner
  rw [fills.nested_marks] at inside
  have absent {c : Char} (mark : isMark c = true) (none : ∀ v ∈ sig y.stop ps, v.isPunct c = false) :
      c ∉ Text.slice y.stop close.start t := by
    rw [fills.mem_iff mark y.stop]
    rintro ⟨v, hv, punct⟩
    rw [none v hv] at punct
    cases punct
  have no_semicolon := absent (c := ';') rfl fun v hv => (flat v hv).2.1
  have no_block := absent (c := '\x7b') rfl fun v hv => (flat v hv).2.2
  have no_close : '\x7d' ∉ Text.slice y.stop close.start t :=
    closing_notMem_of_nested (b := brace) (by decide) inside List.not_mem_nil no_block
  refine fun entry => isEntry_of_mem_parse inside ⟨quiet, fun c hc => ?_⟩
  have other {c' : Char} (none : c' ∉ Text.slice y.stop close.start t) : c ≠ c' := by
    rintro rfl
    exact none hc
  simp [isBare, other no_semicolon, other no_block, other no_close]

theorem Placement.start_le (place : Placement t d front own before k later) {range : Nat × Nat}
    (at_range : d.layoutRange = some range) : d.start ≤ range.1 ∧ range.1 ≤ range.2 := by
  obtain ⟨first, head, -, start⟩ := place.head
  have ordered := place.ordered
  rw [List.append_assoc] at ordered
  have own_ordered := ordered.sublist (List.sublist_append_right front _)
  rcases place.counts with ⟨-, -, none⟩ | ⟨inner, _, at_range', x, y, body, close, rfl, -, -, -, -, rfl⟩
  · rw [none] at at_range
    cases at_range
  · rw [at_range', Option.some.injEq] at at_range
    subst at_range
    have list_ordered := own_ordered.sublist (List.sublist_append_right own _)
    constructor
    · rw [start]
      exact own_ordered.start_le_of_head? head (by simp)
    · have := list_ordered.start_le_of_head? rfl (show close ∈ _ by simp)
      have := list_ordered.2 close (by simp)
      show x.start ≤ close.stop
      omega

end Placement

section Range

variable {t : Text} {stage : Stage} {P : Statement → Prop} {ds : List Declaration}
  {d : Declaration}

theorem stop_le_of_mem_window {s : Statement} (ordered : Ordered s.tokens)
    (standing : ∀ v ∈ s.tokens, v.StandsIn t) {v : Token} (member : v ∈ s.window) :
    v.stop ≤ (s.tokens[s.size]?.map Token.stop).getD (Text.byteLen t) := by
  cases at_end : s.tokens[s.size]? with
  | none => exact (standing v (List.mem_of_mem_take member)).isBoundary_stop.le_byteLen
  | some last =>
    obtain ⟨lt, rfl⟩ := List.getElem?_eq_some_iff.1 at_end
    have pairs := ordered.1
    rw [← List.take_append_drop s.size s.tokens, List.pairwise_append] at pairs
    have := pairs.2.2 v member s.tokens[s.size] (by rw [List.drop_eq_getElem_cons lt]; exact List.mem_cons_self)
    have := ordered.2 _ (List.getElem_mem lt)
    show v.stop ≤ s.tokens[s.size].stop
    omega

theorem Run.settled (run : Run t stage (find t) P [] [] (significant t) ds) (member : d ∈ ds) :
    Relaid d.layout d d ∧ ∀ range, d.layoutRange = some range → range.2 ≤ d.stop := by
  obtain ⟨front, first, us, d₀, stack, tags, cut, -, -, -, parsed, rfl⟩ :=
    run.exists_statement (ordered_significant t) (endsIn_find t) (List.nil_append _).symm
      (fun _ _ _ _ _ last => by cases last) member
  obtain ⟨q, rest, storage, found, read, -, rfl⟩ := exists_of_parse? rfl parsed
  refine ⟨⟨rfl, rfl, rfl⟩, fun range at_range => ?_⟩
  rcases range_of_read read with same | ⟨x, -, y, member, same⟩
  · have : q.layoutRange = some range := at_range
    rw [this] at same
    cases same
  · have at_range : q.layoutRange = some range := at_range
    rw [same, Option.some.injEq] at at_range
    subst at_range
    have ordered := ordered_significant t
    rw [cut] at ordered
    refine stop_le_of_mem_window (ordered.sublist (List.sublist_append_right _ _)) (fun v hv => ?_) member
    have : v ∈ significant t := by
      rw [cut]
      exact List.mem_append_right _ hv
    exact standsIn_of_mem_significant this

theorem nested_marks_concat_end {e : Token} (ends : (e.isDirective || e.isPunct ';') = true)
    (ts : List Token) (stack : List Bracket) :
    nested stack (marks (ts ++ [e])) = nested stack (marks ts) := by
  have mute : ∀ stack, nested stack (marks [e]) = nested stack [] := by
    intro stack
    cases mark : e.mark? with
    | none => rw [marks_cons_of_none mark]; rfl
    | some c =>
      rw [marks_cons_of_some mark]
      rcases Bool.or_eq_true_iff.1 ends with directive | semicolon
      · rw [mark?, of_decide_eq_true directive, if_neg (by decide)] at mark
        cases mark
      · rw [isPunct_iff.1 semicolon, Option.some.injEq] at mark
        subst mark
        exact nested_cons_of_isPlain (by decide) stack _
  rw [marks_append, nested_append_congr mute, List.append_nil]

/-- The tokens in the range of a declaration are those of its statement, with the one that ends it. -/
theorem within_of_statement {s : Statement} {pre : List Token} {v : Token}
    (cut : significant t = pre ++ s.tokens) (head : s.tokens.head? = some v) :
    within (v.start, (s.tokens[s.size]?.map Token.stop).getD (Text.byteLen t)) (significant t) =
      s.window ++ s.tokens[s.size]?.toList := by
  have ordered := ordered_significant t
  have standing : ∀ x ∈ s.tokens, x.StandsIn t := fun x hx =>
    standsIn_of_mem_significant (cut ▸ List.mem_append_right _ hx)
  rw [cut] at ordered
  have own_ordered := ordered.sublist (List.sublist_append_right pre _)
  have split : s.tokens = (s.window ++ s.tokens[s.size]?.toList) ++ s.tokens.drop (s.size + 1) := by
    rw [window, ← List.take_add_one, List.take_append_drop]
  have middle : significant t =
      pre ++ ((s.window ++ s.tokens[s.size]?.toList) ++ s.tokens.drop (s.size + 1)) := by
    rw [← split, cut]
  rw [middle]
  refine within_append (fun x hx => ?_) (fun x hx => ⟨?_, ?_⟩) fun x hx => ?_
  · have := (List.pairwise_append.1 ordered.1).2.2 x hx v (List.mem_of_mem_head? head)
    have := ordered.2 x (List.mem_append_left _ hx)
    show x.start < v.start
    omega
  · exact own_ordered.start_le_of_head? head (split ▸ List.mem_append_left _ hx)
  · have filled := own_ordered.2 x (split ▸ List.mem_append_left _ hx)
    refine Nat.lt_of_lt_of_le filled ?_
    rcases List.mem_append.1 hx with hx | hx
    · exact stop_le_of_mem_window own_ordered standing hx
    · rw [Option.mem_toList.1 hx]
      exact Nat.le_refl _
  · have lt : s.size < s.tokens.length := by
      have := List.length_pos_of_mem hx
      rw [List.length_drop] at this
      omega
    have behind := own_ordered.1.sublist (List.drop_sublist s.size s.tokens)
    rw [List.drop_eq_getElem_cons lt] at behind
    rw [List.getElem?_eq_getElem lt]
    exact (List.pairwise_cons.1 behind).1 x hx

theorem Run.closed {functions : List FunctionDef} {stack : Condition.Stack}
    {tags : List (String × String)} {pre ts : List Token} (cut : significant t = pre ++ ts)
    (run : Run t stage functions P stack tags ts ds)
    (balanced : ∀ d ∈ ds, nested [] (marks (within (d.start, d.stop) (significant t))) = true) :
    Run t stage functions Closed stack tags ts ds := by
  induction run generalizing pre with
  | done => exact .done _ _
  | @pass _ _ _ _ v ts ts' _ step later ih =>
    obtain ⟨skipped, rfl⟩ := step.suffix
    have cut' : significant t = (pre ++ v :: skipped) ++ ts' := by
      rw [cut]
      simp
    exact .pass step (ih cut' balanced)
  | @declaration stack tags v ts d ds outside identifier found _ later ih =>
    obtain ⟨skipped, split⟩ := afterStatement_suffix (statementLength ts) ts
    have cut' : significant t = (pre ++ v :: skipped) ++ afterStatement (statementLength ts) ts := by
      rw [cut, List.append_assoc, List.cons_append, split]
    refine .declaration outside identifier found ⟨[], ?_⟩
      (ih cut' fun e he => balanced e (List.mem_cons_of_mem _ he))
    have nested_range : nested [] (marks (within (d.start, d.stop) (significant t))) = true :=
      balanced (d.under stack tags) List.mem_cons_self
    obtain ⟨start, stop⟩ := start_of_parse? (t := v) rfl found
    have range := within_of_statement (s := statementAt v ts) cut rfl
    rw [start, stop, range] at nested_range
    cases at_end : (statementAt v ts).tokens[(statementAt v ts).size]? with
    | none => rwa [at_end, Option.toList_none, List.append_nil] at nested_range
    | some e =>
      rw [at_end, Option.toList_some, nested_marks_concat_end] at nested_range
      · exact nested_range
      · exact ends_of_statementLength (List.getElem?_cons_succ.symm.trans at_end)

end Range

end Declaration

end ShaderPass
