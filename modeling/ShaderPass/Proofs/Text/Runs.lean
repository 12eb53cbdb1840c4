import ShaderPass.Text.Blank

/-! Runs of characters: the longest stretches of a text whose characters all satisfy a predicate. -/
namespace ShaderPass.Text

section Stop

variable {α : Type} {p : α → Bool} {c : α}

theorem takeWhile_append_cons (stop : p c = false) (s t : List α) :
    (s ++ c :: t).takeWhile p = s.takeWhile p := by
  induction s with
  | nil => simp [stop]
  | cons d s ih =>
    rw [List.cons_append, List.takeWhile_cons, List.takeWhile_cons, ih]

theorem dropWhile_append_cons (stop : p c = false) (s t : List α) :
    (s ++ c :: t).dropWhile p = s.dropWhile p ++ c :: t := by
  induction s with
  | nil => simp [stop]
  | cons d s ih =>
    rw [List.cons_append, List.dropWhile_cons, List.dropWhile_cons, ih]
    split <;> rfl

end Stop

variable {p : Char → Bool}

theorem drop_length_takeWhile (p : Char → Bool) (s : Text) :
    s.drop (s.takeWhile p).length = s.dropWhile p := by
  calc s.drop (s.takeWhile p).length
    _ = (s.takeWhile p ++ s.dropWhile p).drop (s.takeWhile p).length := by
      rw [List.takeWhile_append_dropWhile]
    _ = s.dropWhile p := List.drop_left

theorem runs_cons_of_neg {c : Char} (h : p c = false) (t : Text) : runs p (c :: t) = runs p t := by
  cases t with
  | nil => simp [runs, h]
  | cons d t => simp [runs, h]

theorem runs_append {w : Text} (some_char : w ≠ []) (inside : ∀ c ∈ w, p c = true) {t : Text}
    (ends : t.head?.any p = false) : runs p (w ++ t) = w :: runs p t := by
  induction w with
  | nil => exact absurd rfl some_char
  | cons c w ih =>
    have first := inside c List.mem_cons_self
    cases w with
    | nil =>
      cases t with
      | nil => simp [runs, first]
      | cons d t =>
        have stop : p d = false := ends
        simp [runs, first, stop]
    | cons d w =>
      have second := inside d (by simp)
      have rest := ih (List.cons_ne_nil d w) fun e he => inside e (List.mem_cons_of_mem c he)
      rw [List.cons_append] at rest
      rw [List.cons_append, List.cons_append, runs, if_pos first, rest, second]

theorem mem_runs {t w : Text} (member : w ∈ runs p t) : w ≠ [] ∧ ∀ c ∈ w, p c = true := by
  induction t generalizing w with
  | nil => cases member
  | cons c t ih =>
    cases first : p c with
    | false =>
      rw [runs_cons_of_neg first] at member
      exact ih member
    | true =>
      cases t with
      | nil =>
        simp only [runs, first, if_true, List.mem_singleton] at member
        simp [member, first]
      | cons d t =>
        rw [runs, if_pos first] at member
        split at member
        · rename_i run rest _ found
          rcases List.mem_cons.1 member with rfl | later
          · have := (ih (found ▸ List.mem_cons_self)).2
            exact ⟨List.cons_ne_nil _ _, by simpa [first] using this⟩
          · exact ih (found ▸ List.mem_cons_of_mem _ later)
        · rcases List.mem_cons.1 member with rfl | later
          · simp [first]
          · exact ih later

def IsField (t : Text) : Prop :=
  t ≠ [] ∧ ∀ c ∈ t, isBlank c = false

instance (t : Text) : Decidable (IsField t) :=
  decidable_of_iff (t ≠ [] ∧ (t.all fun c => !isBlank c) = true) (by simp [IsField])

theorem isBlank_of_all {t : Text} (h : (t.all fun c => !isBlank c) = true) :
    ∀ c ∈ t, isBlank c = false := by
  simpa using h

theorem isField_of_mem_fields {t w : Text} (member : w ∈ fields t) : IsField w := by
  obtain ⟨some_char, inside⟩ := mem_runs member
  exact ⟨some_char, fun c hc => by simpa using inside c hc⟩

theorem fields_append_space {w : Text} (h : IsField w) (t : Text) :
    fields (w ++ ' ' :: t) = w :: fields t := by
  have inside : ∀ c ∈ w, (!isBlank c) = true := fun c hc => by simpa using h.2 c hc
  rw [fields, runs_append h.1 inside rfl, runs_cons_of_neg rfl, fields]

theorem fields_of_isField {w : Text} (h : IsField w) : fields w = [w] := by
  have inside : ∀ c ∈ w, (!isBlank c) = true := fun c hc => by simpa using h.2 c hc
  have := runs_append h.1 inside (t := []) rfl
  rwa [List.append_nil] at this

theorem fields_joinWith {words : List Text} (h : ∀ w ∈ words, IsField w) :
    fields (joinWith [' '] words) = words := by
  induction words with
  | nil => rfl
  | cons w words ih =>
    have first := h w List.mem_cons_self
    cases words with
    | nil => exact fields_of_isField first
    | cons v words =>
      rw [joinWith, List.append_assoc, List.singleton_append, fields_append_space first,
        ih fun u hu => h u (List.mem_cons_of_mem w hu)]
      exact List.cons_ne_nil _ _

theorem feed_notMem_joinWith {words : List Text} (h : ∀ w ∈ words, IsField w) :
    '\n' ∉ joinWith [' '] words := by
  have free {w : Text} (field : IsField w) : '\n' ∉ w := by
    intro feed
    cases field.2 _ feed
  induction words with
  | nil => exact List.not_mem_nil
  | cons w words ih =>
    have first := h w List.mem_cons_self
    cases words with
    | nil => exact free first
    | cons v words =>
      have rest := ih fun u hu => h u (List.mem_cons_of_mem w hu)
      have apart : '\n' ≠ ' ' := by decide
      simp [joinWith, free first, apart, rest]

theorem IsField.append {v w : Text} (hv : IsField v) (hw : ∀ c ∈ w, isBlank c = false) :
    IsField (v ++ w) := by
  refine ⟨by simp [hv.1], fun c hc => ?_⟩
  rcases List.mem_append.1 hc with hc | hc
  · exact hv.2 c hc
  · exact hw c hc

end ShaderPass.Text
