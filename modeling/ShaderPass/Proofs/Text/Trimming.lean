import ShaderPass.Proofs.Text.Offset
import ShaderPass.Text.Blank

/-! Trimming around a separator: blanks go from the outer sides first and from the sides of the
separator later, with the same result. -/
namespace ShaderPass.Text

theorem trimEndWhile_cons_of_nil {p : α → Bool} {t : List α} (nil : trimEndWhile p t = []) (c : α) :
    trimEndWhile p (c :: t) = if p c then [] else [c] := by
  rw [trimEndWhile, nil]

theorem trimEndWhile_cons_of_ne_nil {p : α → Bool} {t : List α} (h : trimEndWhile p t ≠ []) (c : α) :
    trimEndWhile p (c :: t) = c :: trimEndWhile p t := by
  rw [trimEndWhile]
  split
  · exact absurd ‹_› h
  · rfl

theorem trimEndWhile_cons_of_neg {p : α → Bool} {c : α} (h : ¬p c = true) (t : List α) :
    trimEndWhile p (c :: t) = c :: trimEndWhile p t := by
  by_cases nil : trimEndWhile p t = []
  · rw [trimEndWhile_cons_of_nil nil, if_neg h, nil]
  · exact trimEndWhile_cons_of_ne_nil nil c

theorem trimEndWhile_append_of_ne_nil {p : α → Bool} {t : List α} (h : trimEndWhile p t ≠ [])
    (s : List α) : trimEndWhile p (s ++ t) = s ++ trimEndWhile p t := by
  induction s with
  | nil => rfl
  | cons c s ih =>
    have kept : trimEndWhile p (s ++ t) ≠ [] := by
      rw [ih]
      exact List.append_ne_nil_of_right_ne_nil s h
    rw [List.cons_append, trimEndWhile_cons_of_ne_nil kept, ih, List.cons_append]

theorem trimEndWhile_append_cons {p : α → Bool} {c : α} (h : ¬p c = true) (s t : List α) :
    trimEndWhile p (s ++ c :: t) = s ++ c :: trimEndWhile p t := by
  rw [trimEndWhile_append_of_ne_nil, trimEndWhile_cons_of_neg h]
  rw [trimEndWhile_cons_of_neg h]
  exact List.cons_ne_nil _ _

theorem exists_trimEndWhile (p : α → Bool) (t : List α) :
    ∃ b, t = trimEndWhile p t ++ b ∧ ∀ c ∈ b, p c = true := by
  induction t with
  | nil => exact ⟨[], rfl, by simp⟩
  | cons c t ih =>
    obtain ⟨b, cut, blank⟩ := ih
    by_cases nil : trimEndWhile p t = []
    · rw [trimEndWhile_cons_of_nil nil]
      rw [nil, List.nil_append] at cut
      split
      · refine ⟨c :: t, rfl, ?_⟩
        intro d hd
        rcases List.mem_cons.1 hd with rfl | hd
        · assumption
        · exact blank d (cut ▸ hd)
      · exact ⟨t, rfl, fun d hd => blank d (cut ▸ hd)⟩
    · rw [trimEndWhile_cons_of_ne_nil nil]
      exact ⟨b, by rw [List.cons_append, ← cut], blank⟩

theorem trimEndWhile_eq_nil {p : α → Bool} {t : List α} (h : ∀ c ∈ t, p c = true) :
    trimEndWhile p t = [] := by
  induction t with
  | nil => rfl
  | cons c t ih =>
    rw [trimEndWhile_cons_of_nil (ih fun d hd => h d (List.mem_cons_of_mem _ hd)),
      if_pos (h c List.mem_cons_self)]

theorem trimEndWhile_append_of_pos {p : α → Bool} {t : List α} (h : ∀ c ∈ t, p c = true)
    (s : List α) : trimEndWhile p (s ++ t) = trimEndWhile p s := by
  induction s with
  | nil => exact trimEndWhile_eq_nil h
  | cons c s ih =>
    rw [List.cons_append]
    by_cases nil : trimEndWhile p s = []
    · rw [trimEndWhile_cons_of_nil nil, trimEndWhile_cons_of_nil (ih.trans nil)]
    · rw [trimEndWhile_cons_of_ne_nil nil, trimEndWhile_cons_of_ne_nil (by rwa [ih]), ih]

theorem trimEndWhile_eq_self {p : α → Bool} {t : List α} (h : ∀ c ∈ t, p c = false) :
    trimEndWhile p t = t := by
  induction t with
  | nil => rfl
  | cons c t ih =>
    rw [trimEndWhile_cons_of_neg (by simp [h c List.mem_cons_self]),
      ih fun d mem => h d (List.mem_cons_of_mem c mem)]

theorem blank_or_exists (t : Text) : (∀ c ∈ t, isBlank c = true) ∨
    ∃ b c s, t = b ++ c :: s ∧ (∀ d ∈ b, isBlank d = true) ∧ isBlank c = false := by
  induction t with
  | nil => exact Or.inl (by simp)
  | cons a t ih =>
    cases ha : isBlank a with
    | false => exact Or.inr ⟨[], a, t, rfl, by simp, ha⟩
    | true =>
      rcases ih with blank | ⟨b, c, s, rfl, blank, hc⟩
      · exact Or.inl (by simpa [ha] using blank)
      · exact Or.inr ⟨a :: b, c, s, rfl, by simpa [ha] using blank, hc⟩

theorem trimStart_append_cons {b : Text} {c : Char} (blank : ∀ d ∈ b, isBlank d = true)
    (hc : isBlank c = false) (s : Text) : trimStart (b ++ c :: s) = c :: s := by
  rw [trimStart, List.dropWhile_append_of_pos blank, List.dropWhile_cons_of_neg (by simp [hc])]

theorem trimStart_eq_nil {t : Text} (blank : ∀ c ∈ t, isBlank c = true) : trimStart t = [] := by
  have := @List.dropWhile_append_of_pos _ isBlank t [] blank
  rwa [List.append_nil] at this

theorem trimStart_trimStart (t : Text) : trimStart (trimStart t) = trimStart t := by
  rcases blank_or_exists t with blank | ⟨b, c, s, rfl, blank, hc⟩
  · rw [trimStart_eq_nil blank]
    rfl
  · rw [trimStart_append_cons blank hc]
    exact trimStart_append_cons (b := []) (by simp) hc s

theorem trimEndWhile_trimEndWhile (p : α → Bool) (t : List α) :
    trimEndWhile p (trimEndWhile p t) = trimEndWhile p t := by
  induction t with
  | nil => rfl
  | cons c t ih =>
    by_cases nil : trimEndWhile p t = []
    · rw [trimEndWhile_cons_of_nil nil]
      split
      · rfl
      · exact trimEndWhile_cons_of_neg ‹_› []
    · rw [trimEndWhile_cons_of_ne_nil nil, trimEndWhile_cons_of_ne_nil (by rwa [ih]), ih]

theorem trimEnd_trimEnd (t : Text) : trimEnd (trimEnd t) = trimEnd t :=
  trimEndWhile_trimEndWhile isBlank t

theorem trimStart_trimEnd (t : Text) : trimStart (trimEnd t) = trimEnd (trimStart t) := by
  rcases blank_or_exists t with blank | ⟨b, c, s, rfl, blank, hc⟩
  · rw [trimEnd, trimEndWhile_eq_nil blank, trimStart_eq_nil blank]
    rfl
  · have not_blank : ¬isBlank c = true := by simp [hc]
    rw [trimEnd, trimEndWhile_append_cons not_blank, trimStart_append_cons blank hc,
      trimStart_append_cons blank hc, trimEnd, trimEndWhile_cons_of_neg not_blank]

theorem trim_trimStart (t : Text) : trim (trimStart t) = trim t := by
  rw [trim, trimStart_trimStart, trim]

theorem trim_trimEnd (t : Text) : trim (trimEnd t) = trim t := by
  rw [trim, trimStart_trimEnd, trimEnd_trimEnd, trim]

theorem trim_trim (t : Text) : trim (trim t) = trim t := by
  rw [trim.eq_1 t, trim_trimEnd, trim_trimStart, trim]

theorem trim_append_cons {c : Char} (hc : isBlank c = false) (s t : Text) :
    trim (s ++ c :: t) = trimStart s ++ c :: trimEnd t := by
  have not_blank : ¬isBlank c = true := by simp [hc]
  have start : trimStart (s ++ c :: t) = trimStart s ++ c :: t := by
    rcases blank_or_exists s with blank | ⟨b, d, u, rfl, blank, hd⟩
    · rw [trimStart_append_cons blank hc, trimStart_eq_nil blank, List.nil_append]
    · rw [List.append_assoc, List.cons_append, trimStart_append_cons blank hd,
        trimStart_append_cons blank hd, List.cons_append]
  rw [trim, start, trimEnd, trimEndWhile_append_cons not_blank]
  rfl

theorem exists_trim (t : Text) :
    ∃ a b, t = a ++ (trim t ++ b) ∧ (∀ c ∈ a, isBlank c = true) ∧ ∀ c ∈ b, isBlank c = true := by
  obtain ⟨b, cut, blank⟩ := exists_trimEndWhile isBlank (trimStart t)
  refine ⟨t.takeWhile isBlank, b, ?_, fun c hc => List.all_eq_true.1 List.all_takeWhile c hc, blank⟩
  have start : t.takeWhile isBlank ++ trimStart t = t := List.takeWhile_append_dropWhile
  rw [trim, trimEnd, ← cut, start]

theorem filter_trim {p : Char → Bool} (other : ∀ c, isBlank c = true → p c = false) (t : Text) :
    (trim t).filter p = t.filter p := by
  obtain ⟨a, b, cut, blank_a, blank_b⟩ := exists_trim t
  have none_of {u : Text} (blank : ∀ c ∈ u, isBlank c = true) : u.filter p = [] :=
    List.filter_eq_nil_iff.2 fun c hc => by simp [other c (blank c hc)]
  rw [cut, List.filter_append, List.filter_append, none_of blank_a, none_of blank_b, ← cut,
    List.nil_append, List.append_nil]

theorem trim_eq_nil_iff {t : Text} : trim t = [] ↔ t.filter (fun c => !isBlank c) = [] := by
  constructor
  · intro empty
    rw [← filter_trim (fun c blank => by simp [blank]), empty, List.filter_nil]
  · intro none
    have blank : ∀ c ∈ t, isBlank c = true := by simpa using none
    rw [trim, trimStart_eq_nil blank]
    rfl

theorem trim_ne_nil {t : Text} {c : Char} (member : c ∈ t) (solid : isBlank c = false) : trim t ≠ [] := by
  rw [Ne, trim_eq_nil_iff]
  exact List.ne_nil_of_mem (List.mem_filter.2 ⟨member, by simp [solid]⟩)

theorem cut?_append_cons {c : Char} {s : Text} (first : c ∉ s) (t : Text) :
    cut? [c] (s ++ c :: t) = some (s, t) := by
  induction s with
  | nil => simp [cut?]
  | cons d s ih =>
    have apart : c ≠ d := fun h => first (h ▸ List.mem_cons_self)
    rw [List.cons_append, cut?, ih fun h => first (List.mem_cons_of_mem _ h)]
    simp [apart]

theorem cut?_eq_none {c : Char} {t : Text} (absent : c ∉ t) : cut? [c] t = none := by
  induction t with
  | nil => rfl
  | cons d t ih =>
    have apart : c ≠ d := fun h => absent (h ▸ List.mem_cons_self)
    rw [cut?, ih fun h => absent (List.mem_cons_of_mem _ h)]
    simp [apart]

theorem eq_of_cut? {c : Char} {t a b : Text} (h : cut? [c] t = some (a, b)) : t = a ++ c :: b ∧ c ∉ a := by
  by_cases member : c ∈ t
  · obtain ⟨s, u, rfl, first⟩ := List.eq_append_cons_of_mem member
    rw [cut?_append_cons first] at h
    obtain ⟨rfl, rfl⟩ := Prod.mk.inj (Option.some.inj h)
    exact ⟨rfl, first⟩
  · rw [cut?_eq_none member] at h
    cases h

theorem after?_eq_some_iff {s t r : Text} : after? s t = some r ↔ t = s ++ r := by
  unfold after?
  constructor
  · intro h
    split at h
    · rename_i starts
      obtain ⟨r, rfl⟩ := List.isPrefixOf_iff_prefix.1 starts
      rw [List.drop_left] at h
      rw [Option.some.inj h]
    · cases h
  · rintro rfl
    rw [if_pos (List.isPrefixOf_iff_prefix.2 (List.prefix_append s r)), List.drop_left]

theorem before?_eq_some_iff {s t r : Text} : before? s t = some r ↔ t = r ++ s := by
  have cut (r : Text) : (r ++ s).take ((r ++ s).length - s.length) = r := by
    rw [List.length_append, Nat.add_sub_cancel, List.take_left]
  unfold before?
  constructor
  · intro h
    split at h
    · rename_i ends
      obtain ⟨r, rfl⟩ := List.isSuffixOf_iff_suffix.1 ends
      rw [cut] at h
      rw [Option.some.inj h]
    · cases h
  · rintro rfl
    rw [if_pos (List.isSuffixOf_iff_suffix.2 (List.suffix_append r s)), cut]

end ShaderPass.Text
