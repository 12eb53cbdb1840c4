import ShaderPass.Declaration.Decoration
import ShaderPass.Proofs.Declaration.LayoutText
import ShaderPass.Proofs.Declaration.Placement

/-! Writing a new layout list for one declaration: the text that comes out has the same declarations,
that one with the new layout. -/
namespace ShaderPass

open Token ShaderPass.Bracket

namespace Token

section ListTokens

variable {inner : Text} {ps : List (TokenKind × Text)} (fills : Fills inner ps)
include fills

theorem Fills.filter_marks {p : Char → Bool} (only : ∀ c, p c = true → isMark c = true) (n : Nat) :
    (marks (sig n ps)).filter p = inner.filter p := by
  obtain ⟨lineStart, t, cut⟩ := fills.cut
  rw [filter_marks_sig only cut fills.kinds, fills.text]

theorem Fills.nested_marks (n : Nat) (stack : List Bracket) :
    nested stack (marks (sig n ps)) = nested stack inner := by
  rw [← Text.nested_filter, fills.filter_marks (p := Text.isStructural), Text.nested_filter]
  intro c structural
  cases mark : isMark c with
  | true => rfl
  | false =>
    have := Layout.isStructural_eq_false (fun c => !isMark c) rfl (by rw [mark]; rfl)
    rw [structural] at this
    cases this

theorem Fills.mem_iff {c : Char} (mark : isMark c = true) (n : Nat) :
    c ∈ inner ↔ ∃ t ∈ sig n ps, t.isPunct c = true := by
  have only : ∀ d, decide (d = c) = true → isMark d = true := fun d same => by
    rw [of_decide_eq_true same, mark]
  have same := fills.filter_marks only n
  constructor
  · intro member
    have : c ∈ inner.filter (· = c) := List.mem_filter.2 ⟨member, decide_eq_true rfl⟩
    rw [← same] at this
    obtain ⟨t, ht, found⟩ := List.mem_filterMap.1 (List.mem_filter.1 this).1
    exact ⟨t, ht, isPunct_iff.2 found⟩
  · rintro ⟨t, ht, punct⟩
    have : c ∈ (marks (sig n ps)).filter (· = c) :=
      List.mem_filter.2 ⟨List.mem_filterMap.2 ⟨t, ht, isPunct_iff.1 punct⟩, decide_eq_true rfl⟩
    rw [same] at this
    exact (List.mem_filter.1 this).1

theorem nested_listTokens (closed : nested [] inner = true) (a : Nat) :
    nested [] (marks (listTokens a ps)) = true := by
  have inside := (fills.nested_marks (a + 7) []).trans closed
  have enter : marks (listTokens a ps) = '(' :: (marks (sig (a + 7) ps) ++ [')']) := by
    rw [listTokens, marks_cons_of_none rfl, marks_cons_of_some (by rfl : _ = some '('), marks_append]
    rfl
  rw [enter]
  show nested [paren] (marks (sig (a + 7) ps) ++ [')']) = true
  rw [← List.nil_append [paren], nested_append [] inside]
  rfl

theorem group_listTokens (closed : nested [] inner = true)
    (bare : ∀ c ∈ inner, Layout.isBare c = true) (a : Nat) : Group (listTokens a ps) := by
  refine ⟨fun b hb => level_of_nested hb (nested_listTokens fills closed a), fun t ht => ?_⟩
  have absent {c : Char} (mark : isMark c = true) (not_bare : Layout.isBare c = false) {t : Token}
      (member : t ∈ sig (a + 7) ps) : t.isPunct c = false := by
    rw [Bool.eq_false_iff]
    intro punct
    have := bare c ((fills.mem_iff mark (a + 7)).2 ⟨t, member, punct⟩)
    rw [not_bare] at this
    cases this
  rw [listTokens] at ht
  simp only [List.mem_cons, List.mem_append, List.not_mem_nil, or_false] at ht
  rcases ht with rfl | rfl | ht | rfl
  · exact ⟨rfl, rfl, rfl⟩
  · exact ⟨rfl, rfl, rfl⟩
  · refine ⟨?_, absent rfl rfl ht, absent rfl rfl ht⟩
    have := (fills.kinds _ (mem_of_mem_sig ht)).2
    simpa [isDirective] using this
  · exact ⟨rfl, rfl, rfl⟩

theorem isList_listTokens (closed : nested [] inner = true) (u v : Text) :
    Declaration.IsList (u ++ (listed inner ++ v)) (listTokens (Text.byteLen u) ps) inner
      (Text.byteLen u, Text.byteLen u + Text.byteLen (listed inner)) := by
  have inside := (fills.nested_marks (Text.byteLen u + 7) []).trans closed
  have search : closeAfter paren 1 (sig (Text.byteLen u + 7) ps ++
      [⟨.punct, [')'], Text.byteLen u + 7 + Text.byteLen (flat ps)⟩]) =
        some (sig (Text.byteLen u + 7) ps).length := by
    rw [(level_of_nested (by decide) inside).closeAfter_append (Nat.le_refl 1)]
    exact congrArg some (Nat.zero_add _)
  refine ⟨_, _, _, _, rfl, rfl, rfl, ?_, ?_, ?_⟩
  · rw [closeOffset?_cons (b := paren) (by decide) rfl, if_pos (by rfl), search]
    rfl
  · have regroup : u ++ (listed inner ++ v) = (u ++ (layoutWord ++ ['('])) ++ (inner ++ (')' :: v)) := by
      simp [listed]
    have before : Text.byteLen (u ++ (layoutWord ++ ['('])) = Text.byteLen u + 7 := by
      rw [Text.byteLen_append]
      rfl
    have slice := Text.slice_append (u ++ (layoutWord ++ ['('])) inner (')' :: v)
    rw [fills.text, regroup]
    rw [before] at slice
    exact slice.symm
  · have close : Text.byteLen u + Text.byteLen (listed inner) =
        Text.byteLen u + 7 + Text.byteLen inner + 1 := by
      rw [byteLen_listed]
      omega
    rw [fills.text, close]
    rfl

end ListTokens

end Token

namespace Declaration

open Layout Statement FunctionDef

theorem render_eq_listed {layout : Layout} (some_entry : layout ≠ []) :
    layout.render = listed (listText layout) :=
  render_eq some_entry

theorem closeAfter_of_closeOffset? {y : Token} {ts : List Token} {n : Nat}
    (opens : y.isPunct '(' = true) (found : closeOffset? (y :: ts) = some (n + 1)) :
    closeAfter paren 1 ts = some n := by
  rw [closeOffset?_cons (b := paren) (by decide) opens] at found
  split at found
  · obtain ⟨n', search, size⟩ := Option.map_eq_some_iff.1 found
    rwa [Nat.succ.inj size] at search
  · cases found

theorem isPunct_of_closeOffset? {y close : Token} {body : List Token} (opens : y.isPunct '(' = true)
    (found : closeOffset? (y :: (body ++ [close])) = some (body.length + 1)) :
    close.isPunct ')' = true := by
  obtain ⟨t, at_end, closes⟩ := exists_of_closeAfter (closeAfter_of_closeOffset? opens found)
  rw [List.getElem?_append_right (Nat.le_refl _), Nat.sub_self] at at_end
  obtain rfl := Option.some.inj at_end
  exact closes

section Rewrite

variable {t : Text} {d : Declaration} {front own before later : List Token} {k : Token}
  {layout : Layout}

/-- The new list of a declaration in the text: `m` has been exchanged for `m'`, and the tokens
`before` for `after`. -/
structure Rewrite (t : Text) (d : Declaration) (layout : Layout) (front own before : List Token)
    (k : Token) (later : List Token) (u m m' w : Text) (after : List Token) : Prop where
  text : t = u ++ (m ++ w)
  edit : Decoration.edit t d layout = ⟨Text.byteLen u, Text.byteLen u + Text.byteLen m, m'⟩
  grows : 0 < Text.byteLen m'
  tokens : significant (u ++ (m' ++ w)) = front ++ (own ++ (after ++ (k :: later).map
    (move (Text.byteLen u + Text.byteLen m) (Text.byteLen u + Text.byteLen m'))))
  exchange : Exchange (Text.byteLen u) (Text.byteLen u + Text.byteLen m)
    (Text.byteLen u + Text.byteLen m') before after k later
  list : ∃ range, IsList (u ++ (m' ++ w)) after (listText layout) range
  closed : nested [] (marks after) = true

theorem getLast?_listTokens {a : Nat} {ps : List (TokenKind × Text)} {last : Token}
    (at_last : (listTokens a ps).getLast? = some last) : last.isIdentifier = false := by
  rw [listTokens, ← List.cons_append, ← List.cons_append, List.getLast?_concat] at at_last
  obtain rfl := Option.some.inj at_last
  rfl

theorem Placement.exists_rewrite_inserted (place : Placement t d front [] [] k later)
    (none : d.layoutRange = none) (some_entry : layout ≠ [])
    (entries : ∀ entry ∈ layout, IsEntry entry) :
    ∃ u m m' w after, Rewrite t d layout front [] [] k later u m m' w after := by
  have nested_inner := nested_listText entries
  obtain ⟨calm_inner, bare_inner⟩ := isQuiet_listText entries
  obtain ⟨u, w, ps, rfl, len, fills, tokens⟩ :=
    significant_inserted place.tokens place.identifier calm_inner
  have shape : u ++ (listed (listText layout) ++ ' ' :: w) =
      u ++ ((listed (listText layout) ++ [' ']) ++ w) := by
    rw [List.append_assoc, List.singleton_append]
  have more : Text.byteLen (listed (listText layout) ++ [' ']) =
      Text.byteLen (listed (listText layout)) + 1 := Text.byteLen_append _ _
  have list := isList_listTokens fills nested_inner u (' ' :: w)
  rw [shape, len] at list
  have ordered := place.ordered
  have behind := (List.pairwise_append.1 ordered.1).2.1
  have filled := ordered.2 k (by simp)
  refine ⟨u, [], listed (listText layout) ++ [' '], w, listTokens k.start ps, rfl, ?_, by omega, ?_, ?_,
    ⟨_, list⟩, nested_listTokens fills nested_inner _⟩
  · obtain ⟨first, head, -, start⟩ := place.head
    obtain rfl := Option.some.inj head
    rw [Decoration.edit, none, render_eq_listed some_entry]
    simp only [start, len, Text.byteLen_nil, Nat.add_zero]
  · rw [← shape, tokens, more, len]
    rfl
  · refine ⟨group_nil, group_listTokens fills nested_inner bare_inner _, place.identifier, ?_,
      ⟨_, rfl, len.symm⟩, nofun, fun _ => getLast?_listTokens, Nat.le_of_eq len, by omega, ?_⟩
    · rintro _ ⟨⟩
      exact len.symm
    · intro x hx
      have := (List.pairwise_cons.1 behind).1 x hx
      exact ⟨by rw [Text.byteLen_nil]; omega, by omega⟩

theorem Placement.exists_rewrite_relisted (place : Placement t d front own before k later)
    {inner : Text} {range : Nat × Nat} (at_range : d.layoutRange = some range)
    (list : IsList t before inner range) (group : Group before) (some_entry : layout ≠ [])
    (entries : ∀ entry ∈ layout, IsEntry entry) :
    ∃ u m m' w after, Rewrite t d layout front own before k later u m m' w after := by
  have nested_inner := nested_listText entries
  obtain ⟨calm_inner, bare_inner⟩ := isQuiet_listText entries
  obtain ⟨x, y, body, close, rfl, named, opens, found, -, rfl⟩ := list
  have closes := isPunct_of_closeOffset? opens found
  have punct : close.kind = .punct := by
    rw [isPunct, Bool.and_eq_true] at closes
    exact of_decide_eq_true closes.1
  have regroup : significant t = (front ++ own) ++ x :: ((y :: body) ++ close :: k :: later) := by
    rw [place.tokens]
    simp
  have word : x.isIdentifier = true := by
    have member : x ∈ significant t := by simp [regroup]
    exact isIdentifier_of_letter member (Or.inr (letter_of_layout named))
  have ordered := ordered_significant t
  rw [regroup] at ordered
  obtain ⟨u, m, w, ps, rfl, start, stop, fills, tokens⟩ :=
    significant_relisted regroup word punct calm_inner
  have new := isList_listTokens fills nested_inner u w
  rw [start] at new
  have size : Text.byteLen (listed (listText layout)) = Text.byteLen (listText layout) + 8 :=
    byteLen_listed _
  have behind : ∀ t ∈ k :: later, close.stop ≤ t.start := by
    have := (List.pairwise_append.1 ordered.1).2.1
    rw [← List.cons_append] at this
    exact (List.pairwise_cons.1 (List.pairwise_append.1 this).2.1).1
  have ahead : x.start < close.stop := by
    have := ordered.2 x (by simp)
    have := ordered.2 close (by simp)
    have := (List.pairwise_cons.1 (List.pairwise_append.1 ordered.1).2.1).1 close (by simp)
    omega
  refine ⟨u, m, listed (listText layout), w, listTokens x.start ps, rfl, ?_, by omega, ?_, ?_,
    ⟨_, new⟩, nested_listTokens fills nested_inner _⟩
  · rw [Decoration.edit, at_range, render_eq_listed some_entry, stop, start]
    simp [listed, layoutWord]
  · rw [tokens, stop, start, List.append_assoc]
  · refine ⟨group, group_listTokens fills nested_inner bare_inner _, place.identifier, ?_,
      ⟨_, rfl, start.symm⟩, ?_, fun _ => getLast?_listTokens, ?_, ?_, ?_⟩
    · rintro _ ⟨⟩
      exact start.symm
    · intro last at_last
      rw [← List.cons_append, ← List.cons_append, List.getLast?_concat] at at_last
      obtain rfl := Option.some.inj at_last
      simp [isIdentifier, punct]
    · rw [stop]
      exact behind k List.mem_cons_self
    · have := behind k List.mem_cons_self
      have : k.start ≤ k.stop := Nat.le_add_right _ _
      omega
    · intro v hv
      have := behind v (List.mem_cons_of_mem _ hv)
      exact ⟨by omega, by omega⟩

theorem Placement.exists_rewrite (place : Placement t d front own before k later)
    (group : Group before) (some_entry : layout ≠ []) (entries : ∀ entry ∈ layout, IsEntry entry) :
    ∃ u m m' w after, Rewrite t d layout front own before k later u m m' w after := by
  rcases place.counts with ⟨rfl, rfl, none⟩ | ⟨inner, range, at_range, list⟩
  · exact place.exists_rewrite_inserted none some_entry entries
  · exact place.exists_rewrite_relisted at_range list group some_entry entries

end Rewrite

theorem Run.apart {t : Text} {stage : Stage} {P : Statement → Prop} {ds : List Declaration}
    (run : Run t stage (find t) P [] [] (significant t) ds) :
    ds.Pairwise (fun d e => d.stop ≤ e.start) ∧ ∀ d ∈ ds, d.start < d.stop :=
  run.ascending (ordered_significant t) fun _ => standsIn_of_mem_significant

theorem append_cons_inj_of_start {ds₁ ds₂ es₁ es₂ : List Declaration} {d e : Declaration}
    (ascending : (ds₁ ++ d :: ds₂).Pairwise fun d e => d.start < e.start)
    (same : ds₁ ++ d :: ds₂ = es₁ ++ e :: es₂) (start : d.start = e.start) :
    ds₁ = es₁ ∧ d = e ∧ ds₂ = es₂ := by
  have ascending' := same ▸ ascending
  rcases List.append_eq_append_iff.1 same with ⟨more, rfl, rest⟩ | ⟨more, rfl, rest⟩
  · cases more with
    | nil =>
      obtain ⟨rfl, rfl⟩ := List.cons.inj rest
      exact ⟨(List.append_nil _).symm, rfl, rfl⟩
    | cons d' more =>
      obtain ⟨rfl, -⟩ := List.cons.inj rest
      have := (List.pairwise_append.1 ascending').2.2 d (by simp) e List.mem_cons_self
      omega
  · cases more with
    | nil =>
      obtain ⟨rfl, rfl⟩ := List.cons.inj rest
      exact ⟨List.append_nil _, rfl, rfl⟩
    | cons e' more =>
      obtain ⟨rfl, -⟩ := List.cons.inj rest
      have := (List.pairwise_append.1 ascending).2.2 e (by simp) d List.mem_cons_self
      omega

theorem within_append_of_nil {range : Nat × Nat} {us : List Token} (empty : within range us = [])
    (ts : List Token) : within range (ts ++ us) = within range ts := by
  rw [within] at empty
  rw [within, List.filter_append, empty, List.append_nil, within]

section Run

variable {t : Text} {d : Declaration} {front own before later after : List Token} {k : Token}
  {layout : Layout} {u m m' w : Text} (place : Placement t d front own before k later)
  (rewrite : Rewrite t d layout front own before k later u m m' w after)

include place rewrite

omit place in
theorem Rewrite.start_of_head? {next : Token} (head : (before ++ k :: later).head? = some next) :
    next.start = Text.byteLen u := by
  refine rewrite.exchange.old_first next ?_
  cases before with
  | nil => exact head
  | cons x xs => exact head

theorem Rewrite.inFront : ∀ v ∈ front ++ own, InFront t (Text.byteLen u) v := by
  intro v hv
  have member : v ∈ significant t := by
    rw [place.tokens, ← List.append_assoc]
    exact List.mem_append_left _ hv
  refine ⟨standsIn_of_mem_significant member, ?_⟩
  obtain ⟨next, rest, follow⟩ := List.exists_cons_of_ne_nil (l := before ++ k :: later) (by simp)
  have head : (before ++ k :: later).head? = some next := by rw [follow, List.head?_cons]
  rw [← rewrite.start_of_head? head]
  exact (List.pairwise_append.1 place.ordered.1).2.2 v hv next (List.mem_of_mem_head? head)

theorem Rewrite.within_eq {range : Nat × Nat} (ahead : range.2 ≤ Text.byteLen u) :
    within range (significant (u ++ (m' ++ w))) = within range (significant t) := by
  have none {rest : List Token} {next : Token} (ordered : Ordered rest) (head : rest.head? = some next)
      (start : next.start = Text.byteLen u) : within range rest = [] := by
    refine List.filter_eq_nil_iff.2 fun v hv => ?_
    have := ordered.start_le_of_head? head hv
    simp only [Bool.and_eq_true, decide_eq_true_eq]
    omega
  have old_ordered := place.ordered.sublist (List.sublist_append_right (front ++ own) _)
  have new_tokens := rewrite.tokens
  have new_ordered := ordered_significant (u ++ (m' ++ w))
  rw [new_tokens, ← List.append_assoc] at new_ordered
  obtain ⟨next, rest, follow⟩ := List.exists_cons_of_ne_nil (l := before ++ k :: later) (by simp)
  have head : (before ++ k :: later).head? = some next := by rw [follow, List.head?_cons]
  obtain ⟨first, at_first, start⟩ := rewrite.exchange.new_first
  have old := none old_ordered head (rewrite.start_of_head? head)
  have new := none (new_ordered.sublist (List.sublist_append_right _ _))
    (by rw [List.head?_append, at_first, Option.some_or]) start
  rw [new_tokens, place.tokens, ← List.append_assoc, within_append_of_nil new,
    ← within_append_of_nil old, List.append_assoc]

theorem Rewrite.moved_find : List.Forall₂ (FunctionDef.Moved (Text.byteLen u)
    (Text.byteLen u + Text.byteLen m) (Text.byteLen u + Text.byteLen m')) (find t)
      (find (u ++ (m' ++ w))) := by
  have ahead : Ahead (Text.byteLen u) before ([].reverse ++ (front ++ own)) := by
    refine ⟨fun v hv => (rewrite.inFront place v hv).2, fun empty last at_last => ?_⟩
    rcases place.counts with ⟨rfl, -, -⟩ | ⟨inner, range, -, list⟩
    · rw [List.append_nil] at at_last
      exact place.fresh last at_last
    · rw [empty] at list
      exact absurd list.length_pos (Nat.lt_irrefl 0)
  have moved := rewrite.exchange.moved_scan ahead
  rw [List.append_assoc, List.append_assoc, ← place.tokens, ← rewrite.tokens] at moved
  rw [find, find]
  refine List.forall₂_map_left_iff.2 (List.forall₂_map_right_iff.2 (moved.imp fun f g same => ?_))
  exact ⟨same.start_out, same.stop_out, same.start, same.stop⟩

theorem Rewrite.exists_site : ∃ first, d.start = first.start ∧
    Site t (Text.byteLen u) (Text.byteLen u + Text.byteLen m) (Text.byteLen u + Text.byteLen m') first
      (own ++ (before ++ k :: later)) (own ++ (after ++ (k :: later).map
        (move (Text.byteLen u + Text.byteLen m) (Text.byteLen u + Text.byteLen m')))) := by
  obtain ⟨first, head, identifier, start⟩ := place.head
  have own_ahead : ∀ v ∈ own, InFront t (Text.byteLen u) v := fun v hv =>
    rewrite.inFront place v (List.mem_append_right _ hv)
  refine ⟨first, start, head, ?_, identifier, ?_, own, before, after, k, later, rewrite.exchange, rfl, rfl,
    own_ahead⟩
  · cases own with
    | cons x xs =>
      obtain rfl := Option.some.inj head
      exact ⟨x, rfl, rfl, identifier⟩
    | nil =>
      obtain ⟨x, at_x, start_x⟩ := rewrite.exchange.new_first
      obtain ⟨range, x', y, body, close, shape, named, -⟩ := rewrite.list
      rw [shape, List.head?_cons, Option.some.injEq] at at_x
      subst x'
      have member : x ∈ significant (u ++ (m' ++ w)) := by simp [rewrite.tokens, shape]
      refine ⟨x, by rw [shape]; rfl, start_x.trans (rewrite.start_of_head? head).symm, ?_⟩
      exact isIdentifier_of_letter member (Or.inr (letter_of_layout named))
  · cases own with
    | cons x xs =>
      obtain rfl := Option.some.inj head
      exact (own_ahead x List.mem_cons_self).start_le
    | nil => exact Nat.le_of_eq (rewrite.start_of_head? head)

theorem Rewrite.exists_run {stage : Stage} {ds₁ ds₂ : List Declaration}
    (run : Run t stage (find t) Closed [] [] (significant t) (ds₁ ++ d :: ds₂))
    (reads_back : Layout.parse (listText layout) = layout) :
    ∃ ds₁' d' ds₂', List.Forall₂ (Moved 0 0) ds₁ ds₁' ∧ Relaid layout d d' ∧
      List.Forall₂ (Moved (Text.byteLen u + Text.byteLen m) (Text.byteLen u + Text.byteLen m')) ds₂ ds₂' ∧
      Run (u ++ (m' ++ w)) stage (find (u ++ (m' ++ w))) Closed [] [] (significant (u ++ (m' ++ w)))
        (ds₁' ++ d' :: ds₂') := by
  obtain ⟨first, start, site⟩ := rewrite.exists_site place
  obtain ⟨range, list⟩ := rewrite.list
  have ordered := ordered_significant t
  have ascending : (ds₁ ++ d :: ds₂).Pairwise fun d e => d.start < e.start := by
    obtain ⟨apart, filled⟩ := run.apart
    exact apart.imp_of_mem fun {d e} hd _ le => Nat.lt_of_lt_of_le (filled d hd) le
  have agree := agree_append u m m' w
  rw [← rewrite.text] at agree
  have grows : Text.byteLen u < Text.byteLen u + Text.byteLen m' :=
    Nat.lt_add_of_pos_right rewrite.grows
  have moved := rewrite.moved_find place
  rw [place.tokens] at run ordered
  obtain ⟨stack, tags, es₁, es₂, es₁', cut, run_rest, ⟨e, member, start_e⟩, same, -, combine⟩ :=
    site.run_front agree grows moved ordered
      (fun v hv => rewrite.inFront place v (List.mem_append_left _ hv)) run
      ⟨d, List.mem_append_right _ List.mem_cons_self, start⟩
  -- What starts where the declaration starts is the declaration.
  obtain ⟨pre, post, rfl⟩ := List.append_of_mem member
  rw [← List.append_assoc] at cut
  obtain ⟨rfl, rfl, rfl⟩ := append_cons_inj_of_start ascending cut (start.trans start_e.symm)
  have behind : ∀ v ∈ k :: later, Text.byteLen u + Text.byteLen m ≤ v.start := by
    intro v hv
    rcases List.mem_cons.1 hv with rfl | hv
    · exact rewrite.exchange.start
    · exact (rewrite.exchange.behind v hv).1
  obtain ⟨d₀, d', es₂, ds₂', first_eq, start₀, relaid, related, run'⟩ := run_site agree grows moved
    rewrite.exchange list site (fun v hv => rewrite.inFront place v (List.mem_append_right _ hv))
    (ordered.sublist (List.sublist_append_right _ _)) behind
    (Nat.le_trans (Nat.le_add_right _ _) place.inside) place.closed.2 rewrite.closed run_rest
    ⟨d, member, start, place.counts⟩
  have ascending_rest := (List.pairwise_append.1 (List.append_assoc es₁ pre _ ▸ ascending)).2.1
  have first_eq : pre ++ d :: ds₂ = [] ++ d₀ :: es₂ := first_eq
  obtain ⟨rfl, rfl, rfl⟩ :=
    append_cons_inj_of_start ascending_rest first_eq (start.trans start₀.symm)
  rw [List.append_nil]
  refine ⟨es₁', d', ds₂', same, reads_back ▸ relaid, related, ?_⟩
  rw [rewrite.tokens]
  exact combine _ run'

end Run

end Declaration
end ShaderPass
