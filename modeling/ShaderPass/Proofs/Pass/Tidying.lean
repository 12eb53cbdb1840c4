import Mathlib.Data.List.Chain
import ShaderPass.Pass.Rendition
import ShaderPass.Proofs.Text.Lines
import ShaderPass.Proofs.Text.Trimming

/-! Tidying the blank lines of a text brings it into a normal form: the lines that are not blank stay as
they are, blanks at their ends aside, and single blank lines separate them where blank lines did. -/
namespace ShaderPass

namespace Text

theorem dropReturn_eq_self {line : Text} (no_return : line.getLast? ≠ some '\r') :
    dropReturn line = line :=
  if_neg no_return

theorem linesOf_concat_nil {pieces : List Text}
    (no_return : ∀ piece ∈ pieces, piece.getLast? ≠ some '\r') : linesOf (pieces ++ [[]]) = pieces := by
  induction pieces with
  | nil => rfl
  | cons piece pieces ih =>
    obtain ⟨next, rest, later⟩ : ∃ next rest, pieces ++ [[]] = next :: rest :=
      List.exists_cons_of_ne_nil (by simp)
    have first := dropReturn_eq_self (no_return piece List.mem_cons_self)
    rw [List.cons_append, later, linesOf, ← later, first,
      ih fun p hp => no_return p (List.mem_cons_of_mem _ hp)]
    simp

theorem lines_joinFeeds_concat {ls : List Text} (some_line : ls ≠ [])
    (no_feed : ∀ line ∈ ls, '\n' ∉ line) (no_return : ∀ line ∈ ls, line.getLast? ≠ some '\r') :
    lines (joinFeeds ls ++ ['\n']) = ls := by
  rw [lines, feedLines, splitOn_append, joinFeeds, splitOn_joinWith some_line no_feed]
  exact linesOf_concat_nil no_return

theorem sublist_dropReturn (line : Text) : (dropReturn line).Sublist line := by
  unfold dropReturn
  split
  · exact List.dropLast_sublist line
  · exact List.Sublist.refl line

theorem exists_of_mem_linesOf {pieces : List Text} {line : Text} (member : line ∈ linesOf pieces) :
    ∃ piece ∈ pieces, line.Sublist piece := by
  fun_induction linesOf pieces with
  | case1 => cases member
  | case2 last empty => cases member
  | case3 last _ => exact ⟨line, member, List.Sublist.refl line⟩
  | case4 piece pieces _ ih =>
    rcases List.mem_cons.1 member with rfl | member
    · exact ⟨piece, List.mem_cons_self, sublist_dropReturn piece⟩
    · obtain ⟨piece', found, part⟩ := ih member
      exact ⟨piece', List.mem_cons_of_mem _ found, part⟩

theorem feed_notMem_of_mem_lines {t line : Text} (member : line ∈ lines t) : '\n' ∉ line := by
  obtain ⟨piece, found, part⟩ := exists_of_mem_linesOf member
  exact fun feed => notMem_of_mem_splitOn found (part.mem feed)

theorem trimEndWhile_sublist (p : α → Bool) (l : List α) : (trimEndWhile p l).Sublist l := by
  obtain ⟨b, cut, -⟩ := exists_trimEndWhile p l
  nth_rewrite 2 [cut]
  exact List.sublist_append_left _ _

theorem isBlank_getLast_trimEnd {t : Text} {c : Char} (last : (trimEnd t).getLast? = some c) :
    isBlank c = false := by
  rw [Bool.eq_false_iff]
  intro blank
  obtain ⟨s, cut⟩ := List.getLast?_eq_some_iff.1 last
  have again := trimEnd_trimEnd t
  have shorter : trimEnd (s ++ [c]) = trimEnd s :=
    trimEndWhile_append_of_pos (fun d hd => List.mem_singleton.1 hd ▸ blank) s
  have le : (trimEnd s).length ≤ s.length := (trimEndWhile_sublist isBlank s).length_le
  rw [cut, shorter] at again
  rw [again, List.length_append, List.length_singleton] at le
  omega

end Text

namespace Rendition

open Text

def trimmedLines (t : Text) : List Text :=
  (lines t).map trimEnd

def filled (ls : List Text) : List Text :=
  ls.filter (· ≠ [])

structure IsTidy (ls : List Text) : Prop where
  trimmed : ∀ line ∈ ls, trimEnd line = line
  first : ls.head? ≠ some []
  last : ls.getLast? ≠ some []
  apart : ls.IsChain fun a b => a ≠ [] ∨ b ≠ []

section Collapse

variable {line : Text} {ls blanks : List Text}

theorem collapse_cons_of_ne_nil (some_text : line ≠ []) (blank : Bool) (ls : List Text) :
    collapse blank (line :: ls) = line :: collapse false ls := by
  rw [collapse, if_neg (by simpa using some_text)]

theorem collapse_cons_nil (blank : Bool) (ls : List Text) :
    collapse blank ([] :: ls) = (if blank then [] else [[]]) ++ collapse true ls := by
  cases blank <;> simp [collapse]

theorem filled_collapse (blank : Bool) (ls : List Text) : filled (collapse blank ls) = filled ls := by
  unfold filled
  induction ls generalizing blank with
  | nil => rfl
  | cons line ls ih =>
    by_cases empty : line = []
    · rw [empty, collapse_cons_nil, List.filter_append, ih]
      cases blank <;> rfl
    · rw [collapse_cons_of_ne_nil empty, List.filter_cons, List.filter_cons, ih]

theorem collapse_append_cons (some_text : line ≠ []) (blank : Bool) (front ls : List Text) :
    collapse blank (front ++ line :: ls) = collapse blank front ++ line :: collapse false ls := by
  induction front generalizing blank with
  | nil => exact collapse_cons_of_ne_nil some_text blank ls
  | cons other front ih =>
    rw [List.cons_append]
    by_cases empty : other = []
    · rw [empty, collapse_cons_nil, collapse_cons_nil, ih, List.append_assoc]
    · rw [collapse_cons_of_ne_nil empty, collapse_cons_of_ne_nil empty, ih, List.cons_append]

theorem collapse_true_append (empty : ∀ line ∈ blanks, line = []) (ls : List Text) :
    collapse true (blanks ++ ls) = collapse true ls := by
  induction blanks with
  | nil => rfl
  | cons line blanks ih =>
    rw [empty line List.mem_cons_self, List.cons_append, collapse_cons_nil, if_pos rfl, List.nil_append,
      ih fun l hl => empty l (List.mem_cons_of_mem _ hl)]

theorem collapse_blanks_cons (empty : ∀ line ∈ blanks, line = []) (some_text : line ≠ [])
    (ls : List Text) : collapse false (blanks ++ line :: ls) =
      (if blanks = [] then [] else [[]]) ++ line :: collapse false ls := by
  cases blanks with
  | nil => exact collapse_cons_of_ne_nil some_text false ls
  | cons first blanks =>
    rw [empty first List.mem_cons_self, List.cons_append, collapse_cons_nil,
      collapse_true_append (fun l hl => empty l (List.mem_cons_of_mem _ hl)),
      collapse_cons_of_ne_nil some_text]
    rfl

theorem head?_collapse_true (ls : List Text) : (collapse true ls).head? ≠ some [] := by
  induction ls with
  | nil => simp [collapse]
  | cons line ls ih =>
    by_cases empty : line = []
    · rw [empty, collapse_cons_nil]
      exact ih
    · rw [collapse_cons_of_ne_nil empty, List.head?_cons]
      exact fun same => empty (Option.some.inj same)

theorem isChain_collapse (blank : Bool) (ls : List Text) :
    (collapse blank ls).IsChain fun a b => a ≠ [] ∨ b ≠ [] := by
  induction ls generalizing blank with
  | nil => exact .nil
  | cons line ls ih =>
    by_cases empty : line = []
    · rw [empty, collapse_cons_nil]
      cases blank with
      | true => exact ih true
      | false =>
        refine List.isChain_cons.2 ⟨fun next head => Or.inr ?_, ih true⟩
        rintro rfl
        exact head?_collapse_true ls head
    · rw [collapse_cons_of_ne_nil empty]
      exact List.isChain_cons.2 ⟨fun _ _ => Or.inl empty, ih false⟩

theorem collapse_sublist (blank : Bool) (ls : List Text) : (collapse blank ls).Sublist ls := by
  induction ls generalizing blank with
  | nil => exact List.Sublist.refl _
  | cons line ls ih =>
    by_cases empty : line = []
    · rw [empty, collapse_cons_nil]
      cases blank with
      | true => exact (ih true).cons _
      | false => exact (ih true).cons_cons _
    · rw [collapse_cons_of_ne_nil empty]
      exact (ih false).cons_cons _

theorem collapse_eq_self {blank : Bool} (apart : ls.IsChain fun a b => a ≠ [] ∨ b ≠ [])
    (first : blank = true → ls.head? ≠ some []) : collapse blank ls = ls := by
  induction ls generalizing blank with
  | nil => rfl
  | cons line ls ih =>
    obtain ⟨next, later⟩ := List.isChain_cons.1 apart
    by_cases empty : line = []
    · subst empty
      obtain rfl : blank = false := by
        cases blank with
        | true => exact absurd rfl (first rfl)
        | false => rfl
      have text_next : ls.head? ≠ some [] := fun head => (next [] head).elim (· rfl) (· rfl)
      rw [collapse_cons_nil, ih later fun _ => text_next]
      rfl
    · have kept : collapse false ls = ls := ih later nofun
      rw [collapse_cons_of_ne_nil empty, kept]

end Collapse

theorem filled_trimEndWhile (ls : List Text) : filled (trimEndWhile List.isEmpty ls) = filled ls := by
  obtain ⟨blanks, cut, empty⟩ := exists_trimEndWhile List.isEmpty ls
  have nothing : filled blanks = [] :=
    List.filter_eq_nil_iff.2 fun line hl => by simpa using empty line hl
  nth_rewrite 2 [cut]
  rw [filled, filled, List.filter_append]
  exact (List.append_nil _).symm.trans (congrArg (_ ++ ·) nothing.symm)

theorem getLast?_trimEndWhile_isEmpty (ls : List Text) :
    (trimEndWhile List.isEmpty ls).getLast? ≠ some [] := by
  intro last
  obtain ⟨front, cut⟩ := List.getLast?_eq_some_iff.1 last
  have again := trimEndWhile_trimEndWhile List.isEmpty ls
  have shorter : trimEndWhile List.isEmpty (front ++ [[]]) = trimEndWhile List.isEmpty front :=
    trimEndWhile_append_of_pos (fun line hl => by rw [List.mem_singleton.1 hl]; rfl) front
  have le := (trimEndWhile_sublist List.isEmpty front).length_le
  rw [cut, shorter] at again
  rw [again, List.length_append, List.length_singleton] at le
  omega

def tidyLines (t : Text) : List Text :=
  trimEndWhile List.isEmpty (collapse true (trimmedLines t))

theorem tidy_eq (t : Text) : tidy t = joinFeeds (tidyLines t) ++ ['\n'] :=
  rfl

theorem tidyLines_sublist (t : Text) : (tidyLines t).Sublist (trimmedLines t) :=
  (trimEndWhile_sublist _ _).trans (collapse_sublist _ _)

theorem isTidy_tidyLines (t : Text) : IsTidy (tidyLines t) := by
  obtain ⟨blanks, cut, -⟩ := exists_trimEndWhile List.isEmpty (collapse true (trimmedLines t))
  have front : tidyLines t <+: collapse true (trimmedLines t) := ⟨blanks, cut.symm⟩
  refine ⟨fun line member => ?_, fun head => ?_, getLast?_trimEndWhile_isEmpty _,
    List.IsChain.prefix (isChain_collapse true _) front⟩
  · obtain ⟨whole, -, rfl⟩ := List.mem_map.1 ((tidyLines_sublist t).mem member)
    exact trimEnd_trimEnd whole
  · obtain ⟨rest, lines_eq⟩ := List.head?_eq_some_iff.1 head
    refine head?_collapse_true (trimmedLines t) ?_
    rw [cut, show trimEndWhile List.isEmpty (collapse true (trimmedLines t)) = [] :: rest from lines_eq]
    rfl

theorem IsTidy.lines_joinFeeds {ls : List Text} (tidied : IsTidy ls) (some_line : ls ≠ [])
    (no_feed : ∀ line ∈ ls, '\n' ∉ line) : lines (joinFeeds ls ++ ['\n']) = ls := by
  refine lines_joinFeeds_concat some_line no_feed fun line member last => ?_
  rw [← tidied.trimmed line member] at last
  have := isBlank_getLast_trimEnd last
  revert this
  decide

theorem lines_tidy {t : Text} (some_line : tidyLines t ≠ []) : lines (tidy t) = tidyLines t := by
  rw [tidy_eq]
  refine (isTidy_tidyLines t).lines_joinFeeds some_line fun line member feed => ?_
  obtain ⟨whole, found, rfl⟩ := List.mem_map.1 ((tidyLines_sublist t).mem member)
  exact feed_notMem_of_mem_lines found ((trimEndWhile_sublist isBlank whole).mem feed)

theorem tidy_eq_feed {t : Text} (no_line : tidyLines t = []) : tidy t = ['\n'] := by
  rw [tidy_eq, no_line]
  rfl

theorem IsTidy.tidy_eq_self {t : Text} (tidied : IsTidy (lines t))
    (whole : joinFeeds (lines t) ++ ['\n'] = t) : tidy t = t := by
  have trimmed : trimmedLines t = lines t := by
    rw [trimmedLines, List.map_congr_left tidied.trimmed, List.map_id']
  have same : tidyLines t = lines t := by
    rw [tidyLines, trimmed, collapse_eq_self tidied.apart fun _ => tidied.first]
    cases split : (lines t).getLast? with
    | none =>
      rw [List.getLast?_eq_none_iff.1 split]
      rfl
    | some line =>
      obtain ⟨front, lines_eq⟩ := List.getLast?_eq_some_iff.1 split
      have some_text : ¬ line.isEmpty = true := by
        rw [List.isEmpty_iff]
        rintro rfl
        exact tidied.last split
      rw [lines_eq, trimEndWhile_append_cons some_text]
      rfl
  rw [tidy_eq, same, whole]

/-- What becomes of a text that is tidied. A line counts as blank if it is empty once trimmed. -/
structure Tidied (t u : Text) : Prop where
  ends : ∃ v, u = v ++ ['\n']
  trimmed : ∀ line ∈ lines u, trimEnd line = line
  normal : u ≠ ['\n'] → IsTidy (lines u)
  kept : filled (lines u) = filled (trimmedLines t)
  /-- Two lines that are not blank stay next to each other, or one empty line stays between them. -/
  between : ∀ front x blanks y back, lines t = front ++ x :: (blanks ++ y :: back) →
    trimEnd x ≠ [] → trimEnd y ≠ [] → (∀ line ∈ blanks, trimEnd line = []) →
    ∃ front' back', lines u =
        front' ++ trimEnd x :: ((if blanks = [] then [] else [[]]) ++ trimEnd y :: back') ∧
      filled front' = filled (front.map trimEnd) ∧ filled back' = filled (back.map trimEnd)

theorem exists_tidyLines_between {t : Text} {front blanks back : List Text} {x y : Text}
    (split : lines t = front ++ x :: (blanks ++ y :: back)) (some_x : trimEnd x ≠ [])
    (some_y : trimEnd y ≠ []) (empty : ∀ line ∈ blanks, trimEnd line = []) :
    ∃ front' back', tidyLines t =
        front' ++ trimEnd x :: ((if blanks = [] then [] else [[]]) ++ trimEnd y :: back') ∧
      filled front' = filled (front.map trimEnd) ∧ filled back' = filled (back.map trimEnd) := by
  refine ⟨collapse true (front.map trimEnd),
    trimEndWhile List.isEmpty (collapse false (back.map trimEnd)), ?_, filled_collapse _ _,
    (filled_trimEndWhile _).trans (filled_collapse _ _)⟩
  have blanks_eq : ∀ line ∈ blanks.map trimEnd, line = [] := by
    intro line member
    obtain ⟨whole, found, rfl⟩ := List.mem_map.1 member
    exact empty whole found
  have trimmed : trimmedLines t =
      front.map trimEnd ++ trimEnd x :: (blanks.map trimEnd ++ trimEnd y :: back.map trimEnd) := by
    simp [trimmedLines, split]
  have visible : ¬ (trimEnd y).isEmpty = true := by simpa using some_y
  rw [tidyLines, trimmed, collapse_append_cons some_x, collapse_blanks_cons blanks_eq some_y,
    ← List.cons_append, ← List.append_assoc, trimEndWhile_append_cons visible]
  simp

/-- Tidying a text gives it its normal form, and tidying it again changes nothing. -/
theorem tidied_tidy (t : Text) : Tidied t (tidy t) ∧ tidy (tidy t) = tidy t := by
  by_cases no_line : tidyLines t = []
  · have feed := tidy_eq_feed no_line
    have nothing : filled (trimmedLines t) = [] := by
      rw [← filled_collapse true, ← filled_trimEndWhile]
      exact congrArg filled no_line
    refine ⟨⟨⟨[], feed⟩, ?_, fun other => absurd feed other, ?_, ?_⟩, ?_⟩
    · rw [feed]
      decide
    · rw [feed, nothing]
      rfl
    · intro front x blanks y back split some_x some_y empty
      obtain ⟨front', back', whole, -⟩ := exists_tidyLines_between split some_x some_y empty
      rw [no_line] at whole
      simp at whole
    · rw [feed]
      rfl
  · have same := lines_tidy no_line
    have tidied := isTidy_tidyLines t
    refine ⟨⟨⟨_, tidy_eq t⟩, ?_, fun _ => same ▸ tidied, ?_, ?_⟩, ?_⟩
    · rw [same]
      exact tidied.trimmed
    · rw [same]
      exact (filled_trimEndWhile _).trans (filled_collapse _ _)
    · rw [same]
      intro front x blanks y back
      exact exists_tidyLines_between
    · exact (same ▸ tidied : IsTidy (lines (tidy t))).tidy_eq_self (by rw [same, tidy_eq])

/-- Blank lines in front, a double one between, and a carriage return. -/
example : tidy " \n\na \r\nb\n\n \nc\n\n".toList = "a\nb\n\nc\n".toList := by decide

end Rendition
end ShaderPass
