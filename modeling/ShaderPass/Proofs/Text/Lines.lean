import ShaderPass.Text.Basic

/-! Pieces of a text between separators. Splitting and joining are inverse to each other as long as
no piece holds the separator and there is at least one piece. -/
namespace ShaderPass.Text

theorem splitOn_eq_singleton {sep : Char} {t : Text} (free : sep ∉ t) : splitOn sep t = [t] := by
  induction t with
  | nil => rfl
  | cons c t ih =>
    rw [List.mem_cons, not_or] at free
    rw [splitOn, if_neg (Ne.symm free.1), ih free.2]

theorem splitOn_append_cons {sep : Char} {s : Text} (free : sep ∉ s) (t : Text) :
    splitOn sep (s ++ sep :: t) = s :: splitOn sep t := by
  induction s with
  | nil => simp [splitOn]
  | cons c s ih =>
    rw [List.mem_cons, not_or] at free
    rw [List.cons_append, splitOn, if_neg (Ne.symm free.1), ih free.2]

theorem splitOn_append (sep : Char) (s t : Text) :
    splitOn sep (s ++ sep :: t) = splitOn sep s ++ splitOn sep t := by
  induction s with
  | nil => simp [splitOn]
  | cons c s ih =>
    rw [List.cons_append, splitOn, splitOn, ih]
    split
    · rfl
    · cases found : splitOn sep s with
      | nil => exact absurd found (splitOn_ne_nil sep s)
      | cons piece pieces => rfl

theorem mem_splitOn {sep : Char} {u piece w : Text} (free : sep ∉ piece)
    (before : u = [] ∨ ∃ v, u = v ++ [sep]) (after : w = [] ∨ ∃ v, w = sep :: v) :
    piece ∈ splitOn sep (u ++ (piece ++ w)) := by
  have first : piece ∈ splitOn sep (piece ++ w) := by
    rcases after with rfl | ⟨v, rfl⟩
    · rw [List.append_nil, splitOn_eq_singleton free]
      exact List.mem_singleton_self piece
    · rw [splitOn_append_cons free]
      exact List.mem_cons_self
  rcases before with rfl | ⟨v, rfl⟩
  · exact first
  · rw [List.append_assoc, List.singleton_append, splitOn_append]
    exact List.mem_append_right _ first

theorem exists_eq_append_lastLine (t : Text) :
    ∃ u, t = u ++ (t.reverse.takeWhile (· ≠ '\n')).reverse ∧ (u = [] ∨ ∃ v, u = v ++ ['\n']) := by
  refine ⟨(t.reverse.dropWhile (· ≠ '\n')).reverse, ?_, ?_⟩
  · rw [← List.reverse_append, List.takeWhile_append_dropWhile, List.reverse_reverse]
  · cases rest : t.reverse.dropWhile (· ≠ '\n') with
    | nil => exact Or.inl rfl
    | cons c v =>
      have feed := List.head?_dropWhile_not (· ≠ '\n') t.reverse
      simp only [rest, List.head?_cons, decide_eq_false_iff_not, Decidable.not_not] at feed
      exact Or.inr ⟨v.reverse, by rw [feed, List.reverse_cons]⟩

theorem mem_linesOf {pieces : List Text} {piece : Text} (member : piece ∈ pieces)
    (some_text : piece ≠ []) : piece ∈ linesOf pieces ∨ dropReturn piece ∈ linesOf pieces := by
  fun_induction linesOf pieces with
  | case1 => cases member
  | case2 last empty =>
    obtain rfl := List.mem_singleton.1 member
    exact absurd (List.isEmpty_iff.1 empty) some_text
  | case3 last _ => exact Or.inl member
  | case4 first pieces _ ih =>
    rcases List.mem_cons.1 member with rfl | later
    · exact Or.inr List.mem_cons_self
    · exact (ih later).imp (List.mem_cons_of_mem _) (List.mem_cons_of_mem _)

theorem splitOn_joinWith {sep : Char} {pieces : List Text} (some_piece : pieces ≠ [])
    (free : ∀ piece ∈ pieces, sep ∉ piece) : splitOn sep (joinWith [sep] pieces) = pieces := by
  induction pieces with
  | nil => exact absurd rfl some_piece
  | cons piece pieces ih =>
    have free_piece := free piece List.mem_cons_self
    cases pieces with
    | nil => exact splitOn_eq_singleton free_piece
    | cons next pieces =>
      rw [joinWith, List.append_assoc, List.singleton_append, splitOn_append_cons free_piece,
        ih (by simp) fun p hp => free p (List.mem_cons_of_mem _ hp)]
      simp

theorem notMem_of_mem_splitOn {sep : Char} {t piece : Text} (h : piece ∈ splitOn sep t) :
    sep ∉ piece := by
  induction t generalizing piece with
  | nil =>
    rw [splitOn, List.mem_singleton] at h
    simp [h]
  | cons c t ih =>
    rw [splitOn] at h
    split at h
    · rcases List.mem_cons.1 h with rfl | h
      · simp
      · exact ih h
    · rename_i differs
      cases found : splitOn sep t with
      | nil => exact absurd found (splitOn_ne_nil sep t)
      | cons first others =>
        rw [found] at h ih
        rcases List.mem_cons.1 h with rfl | h
        · rw [List.mem_cons, not_or]
          exact ⟨Ne.symm differs, ih List.mem_cons_self⟩
        · exact ih (List.mem_cons_of_mem _ h)

theorem feedLines_joinFeeds_of_sublist {t : Text} {lines : List Text} (some_line : lines ≠ [])
    (kept : lines.Sublist (feedLines t)) : feedLines (joinFeeds lines) = lines :=
  splitOn_joinWith some_line fun _ h => notMem_of_mem_splitOn (kept.mem h)

theorem joinWith_cons_cons (c : Char) (t u : Text) (ts : List Text) :
    joinWith [c] (t :: u :: ts) = t ++ c :: joinWith [c] (u :: ts) := by
  simp [joinWith]

theorem feedLines_joinFeeds {ts : List Text} (some_text : ts ≠ []) :
    feedLines (joinFeeds ts) = ts.flatMap feedLines := by
  induction ts with
  | nil => exact absurd rfl some_text
  | cons t ts ih =>
    cases ts with
    | nil => simp [joinFeeds, joinWith]
    | cons u ts =>
      rw [List.flatMap_cons, ← ih (List.cons_ne_nil _ _), joinFeeds, joinWith_cons_cons]
      exact splitOn_append '\n' t _

end ShaderPass.Text
