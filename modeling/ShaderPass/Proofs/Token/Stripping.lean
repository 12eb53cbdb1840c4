import ShaderPass.Proofs.Token.Boundary
import ShaderPass.Proofs.Token.Comments

/-! Stripping comments. What is left is cut up anew, and not as before: tokens around a comment may grow
together, and a directive that comes to start a line takes in the lines it continues on. No comment comes
of it, because a slash that stays keeps the character behind it. -/
namespace ShaderPass.Token

open Text

section Classify

theorem solid_of_mem_number {mark : Bool} {t : Text} {c : Char} (member : c ∈ t.take (numberLength mark t)) :
    isTokenBlank c = false ∧ c ≠ '/' := by
  rcases mem_take_numberLength member with ident | rfl | rfl | rfl
  · exact ⟨(solid_of_isIdentChar ident).1, (solid_of_isIdentChar ident).2.1⟩
  all_goals decide

theorem solid_of_mem_name {t : Text} {c : Char}
    (member : c ∈ t.take (t.takeWhile isIdentChar).length) : isTokenBlank c = false ∧ c ≠ '/' := by
  rw [take_length_takeWhile] at member
  have ident := List.all_eq_true.1 List.all_takeWhile c member
  exact ⟨(solid_of_isIdentChar ident).1, (solid_of_isIdentChar ident).2.1⟩

theorem isTokenBlank_of_mem_blank {t : Text} {c d : Char} (hc : isTokenBlank c = true)
    (member : d ∈ c :: t.take (t.takeWhile isTokenBlank).length) : isTokenBlank d = true := by
  rcases List.mem_cons.1 member with rfl | member
  · exact hc
  · rw [take_length_takeWhile] at member
    exact List.all_eq_true.1 List.all_takeWhile d member

end Classify

section Bare

/-- A text that holds no comment if directives are read where they are marked. Other number signs may
start one or not. -/
inductive Bare : Bool → Text → Prop where
  | nil {lineStart : Bool} : Bare lineStart []
  | blank {lineStart : Bool} {c : Char} {t : Text} : isTokenBlank c = true →
      Bare (lineStart || c = '\n') t → Bare lineStart (c :: t)
  | solid {lineStart : Bool} {c : Char} {t : Text} : isTokenBlank c = false →
      opensComment c t = false → Bare false t → Bare lineStart (c :: t)
  | directive {t : Text} : Bare false (t.drop (directiveLength false t)) → Bare true ('#' :: t)

variable {lineStart lineStart' : Bool} {c : Char} {s t : Text}

theorem Bare.mono (h : Bare lineStart t) (le : lineStart = true → lineStart' = true) :
    Bare lineStart' t := by
  induction h generalizing lineStart' with
  | nil => exact .nil
  | @blank lineStart c t hc _ ih =>
    refine .blank hc (ih ?_)
    rw [Bool.or_eq_true, Bool.or_eq_true]
    exact Or.imp_left le
  | solid hc opens rest => exact .solid hc opens rest
  | directive rest =>
    rw [le rfl]
    exact .directive rest

theorem Bare.append_blank (blank : ∀ c ∈ s, isTokenBlank c = true)
    (h : Bare (lineStart || s.contains '\n') t) : Bare lineStart (s ++ t) := by
  induction s generalizing lineStart with
  | nil => simpa using h
  | cons c s ih =>
    refine .blank (blank c List.mem_cons_self) (ih (fun d hd => blank d (List.mem_cons_of_mem c hd)) ?_)
    rw [Bool.or_assoc]
    simpa [eq_comm] using h

theorem Bare.of_append_blank (blank : ∀ c ∈ s, isTokenBlank c = true) (h : Bare lineStart (s ++ t)) :
    Bare (lineStart || s.contains '\n') t := by
  induction s generalizing lineStart with
  | nil => simpa using h
  | cons c s ih =>
    have hc := blank c List.mem_cons_self
    rw [List.cons_append] at h
    cases h with
    | blank _ rest =>
      have := ih (fun d hd => blank d (List.mem_cons_of_mem c hd)) rest
      rw [Bool.or_assoc] at this
      simpa [eq_comm] using this
    | solid other =>
      rw [hc] at other
      cases other
    | directive => cases hc

theorem Bare.of_append_solid (solid : ∀ c ∈ s, isTokenBlank c = false) (h : Bare false (s ++ t)) :
    Bare false t := by
  induction s with
  | nil => exact h
  | cons c s ih =>
    rw [List.cons_append] at h
    cases h with
    | blank hc =>
      rw [solid c List.mem_cons_self] at hc
      cases hc
    | solid _ _ rest => exact ih (fun d hd => solid d (List.mem_cons_of_mem c hd)) rest

/-- A directive that starts anywhere leaves a bare text. If it runs into a marked one, both end at the same
place. -/
theorem Bare.drop_directiveLength (h : Bare lineStart t) (continued : Bool) :
    Bare false (t.drop (directiveLength continued t)) := by
  induction h generalizing continued with
  | nil => exact .nil
  | @blank lineStart c t hc rest ih =>
    rw [directiveLength]
    split
    · rename_i feed
      subst feed
      split
      · exact ih false
      · refine .blank hc ?_
        simpa using rest
    · exact ih _
  | @solid lineStart c t hc _ _ ih =>
    have no_feed : c ≠ '\n' := by
      rintro rfl
      cases hc
    rw [directiveLength, if_neg no_feed]
    exact ih _
  | directive rest _ =>
    rw [directiveLength, if_neg (by decide)]
    exact rest

theorem Bare.of_starts {kind : TokenKind} {n : Nat} (h : Bare lineStart (c :: t))
    (first : Starts lineStart' c t kind n) (le : lineStart = true → lineStart' = true) :
    kind ≠ .comment ∧ ∃ next, Bare next (t.drop n) ∧
      (next = true → startsLine lineStart' kind (c :: t.take n) = true) := by
  -- A character that is no blank is read on its own, unless it starts a directive.
  have rest (hc : isTokenBlank c = false) (other : c = '#' → lineStart = false) : Bare false t := by
    cases h with
    | blank blank =>
      rw [hc] at blank
      cases blank
    | solid _ _ rest => exact rest
    | directive => cases other rfl
  have behind (more : ∀ d ∈ t.take n, isTokenBlank d = false) (rest : Bare false t) :
      Bare false (t.drop n) := by
    refine Bare.of_append_solid more ?_
    rwa [List.take_append_drop]
  have fresh {P : Prop} (starts : false = true) : P := absurd starts Bool.false_ne_true
  cases first with
  | blank hc =>
    have whole : c :: t.take (t.takeWhile isTokenBlank).length ++ t.drop (t.takeWhile isTokenBlank).length =
        c :: t := by rw [List.cons_append, List.take_append_drop]
    refine ⟨by decide, _, Bare.of_append_blank (fun d => isTokenBlank_of_mem_blank hc) (whole ▸ h), ?_⟩
    rw [startsLine, Bool.or_eq_true, Bool.or_eq_true]
    exact Or.imp_left le
  | comment _ opens =>
    cases h with
    | blank hc =>
      rw [opensComment, Bool.and_eq_true, decide_eq_true_eq] at opens
      rw [opens.1] at hc
      cases hc
    | solid _ closed =>
      rw [opens] at closed
      cases closed
    | directive => cases opens
  | directive hash =>
    subst hash
    refine ⟨by decide, false, ?_, fresh⟩
    cases h with
    | blank hc => cases hc
    | solid _ _ rest => exact rest.drop_directiveLength false
    | directive rest => exact rest
  | identifier start =>
    have no_hash : c ≠ '#' := ne_of_isIdentStart start rfl
    exact ⟨by decide, false, behind (fun d member => (solid_of_mem_name member).1)
      (rest (isTokenBlank_of_isIdentStart start) (absurd · no_hash)), fresh⟩
  | number solid start =>
    have no_hash : c ≠ '#' := ne_of_opensNumber start rfl (by decide)
    exact ⟨by decide, false, behind (fun d member => (solid_of_mem_number member).1)
      (rest solid (absurd · no_hash)), fresh⟩
  | punct solid _ hash =>
    refine ⟨by decide, false, rest solid fun here => ?_, fresh⟩
    cases start : lineStart with
    | false => rfl
    | true =>
      rw [hash here] at le
      cases le start

theorem Bare.ne_comment (h : Bare lineStart t) (le : lineStart = true → lineStart' = true) :
    ∀ p ∈ pieces lineStart' t, p.1 ≠ .comment := by
  fun_induction pieces lineStart' t generalizing lineStart with
  | case1 =>
    intro p member
    cases member
  | case2 lineStart' c t kind n first lexeme =>
    rename_i ih
    obtain ⟨other, next, rest, starts⟩ := h.of_starts (starts_of_classify first) le
    intro p member
    rcases List.mem_cons.1 member with rfl | later
    · exact other
    · exact ih rest starts p later

theorem Bare.append_solid (solid : ∀ c ∈ s, isTokenBlank c = false ∧ c ≠ '/') (h : Bare false t) :
    Bare false (s ++ t) := by
  induction s with
  | nil => exact h
  | cons c s ih =>
    obtain ⟨hc, no_slash⟩ := solid c List.mem_cons_self
    exact .solid hc (by simp [opensComment, no_slash])
      (ih fun d hd => solid d (List.mem_cons_of_mem c hd))

theorem Bare.append_directive (whole : directiveLength false (s ++ t) = s.length) (h : Bare false t) :
    Bare true ('#' :: (s ++ t)) := by
  refine .directive ?_
  rw [whole, List.drop_left]
  exact h

end Bare

section Strip

variable {lineStart : Bool} {t : Text}

theorem head?_flatMap_kept (closed : ∀ c rest, t = c :: rest → opensComment c rest = false)
    (lineStart : Bool) : ((pieces lineStart t).flatMap kept).head? = t.head? := by
  cases t with
  | nil => simp [pieces]
  | cons c t =>
    rcases first : classify lineStart c t with ⟨kind, n⟩
    have other : kind ≠ .comment := by
      rintro rfl
      cases starts_of_classify first with
      | comment _ opens =>
        rw [closed c t rfl] at opens
        cases opens
    rw [pieces_cons, first, List.flatMap_cons, kept, if_neg other]
    rfl

theorem opensComment_flatMap_kept {c : Char} (closed : opensComment c t = false) :
    opensComment c ((pieces false t).flatMap kept) = false := by
  by_cases slash : c = '/'
  · subst slash
    have next : ((pieces false t).flatMap kept).head? = t.head? := by
      refine head?_flatMap_kept (fun d rest cut => ?_) false
      rw [cut] at closed
      cases opens : opensComment d rest with
      | false => rfl
      | true =>
        rw [opensComment, Bool.and_eq_true, decide_eq_true_eq] at opens
        rw [opens.1] at closed
        cases closed
    rw [opensComment, next]
    exact closed
  · rw [opensComment, decide_eq_false slash, Bool.false_and]

theorem isTokenBlank_of_mem_kept {lexeme : Text} : ∀ c ∈ kept (.comment, lexeme), isTokenBlank c = true := by
  intro c member
  rw [kept, if_pos rfl] at member
  rw [of_decide_eq_true (List.mem_filter.1 member).2]
  rfl

theorem directiveLength_flatMap_kept (t : Text) :
    directiveLength false (t.take (directiveLength false t) ++
      (pieces false (t.drop (directiveLength false t))).flatMap kept) =
        (t.take (directiveLength false t)).length := by
  have length : (t.take (directiveLength false t)).length = directiveLength false t := by
    rw [List.length_take, Nat.min_eq_left (directiveLength_le false t)]
  have next : ((pieces false (t.drop (directiveLength false t))).flatMap kept).head? =
      (t.drop (directiveLength false t)).head? := by
    refine head?_flatMap_kept (fun c rest cut => ?_) false
    rcases head?_drop_directiveLength false t with feed | empty
    · rw [cut, List.head?_cons, Option.some.injEq] at feed
      rw [feed]
      rfl
    · rw [empty] at cut
      cases cut
  refine directiveLength_of_head? (Or.inr next) ?_
  rw [List.take_append_drop, length]

theorem bare_flatMap_kept (lineStart : Bool) (t : Text) :
    Bare lineStart ((pieces lineStart t).flatMap kept) := by
  fun_induction pieces lineStart t with
  | case1 => exact .nil
  | case2 lineStart c t kind n first lexeme =>
    rename_i ih
    have solid (hc : isTokenBlank c = false ∧ c ≠ '/')
        (more : ∀ d ∈ t.take n, isTokenBlank d = false ∧ d ≠ '/')
        (rest : Bare false ((pieces false (t.drop n)).flatMap kept)) :
        Bare lineStart (lexeme ++ (pieces false (t.drop n)).flatMap kept) :=
      .solid hc.1 (by simp [opensComment, hc.2]) (rest.append_solid more)
    rw [List.flatMap_cons]
    cases starts_of_classify first with
    | blank hc => exact Bare.append_blank (fun d => isTokenBlank_of_mem_blank hc) ih
    | comment =>
      refine Bare.append_blank isTokenBlank_of_mem_kept (ih.mono fun start => ?_)
      rw [startsLine] at start
      rw [start, Bool.true_or]
    | directive hash start =>
      subst hash start
      exact Bare.append_directive (directiveLength_flatMap_kept t) ih
    | identifier start =>
      have no_slash : c ≠ '/' := ne_of_isIdentStart start rfl
      exact solid ⟨isTokenBlank_of_isIdentStart start, no_slash⟩ (fun d => solid_of_mem_name) ih
    | number hc start =>
      have no_slash : c ≠ '/' := ne_of_opensNumber start rfl (by decide)
      exact solid ⟨hc, no_slash⟩ (fun d => solid_of_mem_number) ih
    | punct hc closed =>
      exact .solid hc (opensComment_flatMap_kept closed) ih

theorem flatMap_kept {ps : List (TokenKind × Text)} (none : ∀ p ∈ ps, p.1 ≠ .comment) :
    ps.flatMap kept = flat ps := by
  induction ps with
  | nil => rfl
  | cons p ps ih =>
    rw [List.flatMap_cons, kept, if_neg (none p List.mem_cons_self),
      ih fun q hq => none q (List.mem_cons_of_mem p hq)]
    rfl

theorem count_flatMap_kept (ps : List (TokenKind × Text)) :
    (ps.flatMap kept).count '\n' = (flat ps).count '\n' := by
  induction ps with
  | nil => rfl
  | cons p ps ih =>
    have here : (kept p).count '\n' = p.2.count '\n' := by
      unfold kept
      split
      · rw [List.count_filter (by decide)]
      · rfl
    rw [List.flatMap_cons, List.count_append, ih, here, ← List.count_append]
    rfl

/-- Stripping a text leaves no comment, keeps every line feed, and is done once and for all. -/
theorem stripComments_clean (t : Text) : (∀ k ∈ scan (stripComments t), k.kind ≠ .comment) ∧
    (stripComments t).count '\n' = t.count '\n' ∧ stripComments (stripComments t) = stripComments t := by
  have none : ∀ p ∈ pieces true (stripComments t), p.1 ≠ .comment := by
    rw [stripComments_eq]
    exact (bare_flatMap_kept true t).ne_comment id
  refine ⟨fun k member => ?_, ?_, ?_⟩
  · exact none _ (standsIn_of_mem_scan member).2
  · conv => rhs; rw [← flatten_pieces true t]
    rw [stripComments_eq]
    exact count_flatMap_kept _
  · rw [stripComments_eq (stripComments t), flatMap_kept none]
    exact flatten_pieces true _

end Strip

end ShaderPass.Token
