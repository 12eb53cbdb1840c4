import ShaderPass.Proofs.Macro.Scope

/-! Whole words. The search finds every place where a word stands free, although it passes over occurrences
that overlap, and replacing a word is substituting for a single parameter. -/
namespace ShaderPass.Text

section Name

variable {name : Text} (isName : IsWord name)

include isName

theorem mem_wordOffsets_iff {t : Text} {n : Nat} : n ∈ wordOffsets t name ↔ StandsAt t name n :=
  ⟨standsAt_of_mem_wordOffsets isName, mem_wordOffsets isName⟩

theorem countWord_eq_count (t : Text) : countWord t name = (words t).count name := by
  have from_offset (offset : Nat) :
      (wordOffsetsFrom name none 0 offset t).length = (words t).count name := by
    induction t using word_induction generalizing offset with
    | nil => rw [wordOffsetsFrom_nil isName]; rfl
    | char c t plain ih => rw [wordOffsetsFrom_char isName plain, words_cons plain, ih]
    | word w t isWord free ih =>
      rw [wordOffsetsFrom_word isName isWord free, words_append_word isWord free, List.length_append, ih,
        List.count_cons, Nat.add_comm]
      by_cases same : w = name <;> simp [same]
  exact from_offset 0

theorem replaceWord_eq_substituteParams (t replacement : Text) :
    replaceWord t name replacement = Macro.substituteParams [name] [replacement] t := by
  have single : Macro.argument [name] [replacement] = fun w => if w = name then replacement else w := by
    funext w
    by_cases same : w = name
    · simp [Macro.argument, same]
    · simp [Macro.argument, same, Ne.symm same]
  rw [Macro.replaceWord_eq_mapWords isName, Macro.substituteParams_eq, single]

/-- Whole words are found, counted and replaced where they stand. -/
theorem wordOffsets_exact (t : Text) :
    (wordOffsets t name).Pairwise (· < ·) ∧ (∀ n, n ∈ wordOffsets t name ↔ StandsAt t name n) ∧
      countWord t name = (words t).count name ∧
      ∀ replacement, replaceWord t name replacement = Macro.substituteParams [name] [replacement] t :=
  ⟨(pairwise_wordOffsetsFrom name none 0 0 t).2, fun _ => mem_wordOffsets_iff isName,
    countWord_eq_count isName t, replaceWord_eq_substituteParams isName t⟩

end Name

theorem wordOffsets_exact_overlapping :
    IsWord ['a', 'a'] ∧ StandsAt ['é', ' ', 'a', 'a', ' ', 'a', 'a', 'a'] ['a', 'a'] 3 ∧
      ¬ StandsAt ['é', ' ', 'a', 'a', ' ', 'a', 'a', 'a'] ['a', 'a'] 6 ∧
      ¬ StandsAt ['é', ' ', 'a', 'a', ' ', 'a', 'a', 'a'] ['a', 'a'] 7 ∧
      (words ['é', ' ', 'a', 'a', ' ', 'a', 'a', 'a']).count ['a', 'a'] = 1 ∧
      Macro.substituteParams [['a', 'a']] [['b']] ['é', ' ', 'a', 'a', ' ', 'a', 'a', 'a'] =
        ['é', ' ', 'b', ' ', 'a', 'a', 'a'] := by
  have letters : ['a', 'a'].all isIdentChar = true := by decide
  have isName : IsWord ['a', 'a'] := ⟨List.cons_ne_nil _ _, List.all_eq_true.1 letters⟩
  obtain ⟨-, stands, count, replaced⟩ := wordOffsets_exact isName ['é', ' ', 'a', 'a', ' ', 'a', 'a', 'a']
  have offsets : wordOffsets ['é', ' ', 'a', 'a', ' ', 'a', 'a', 'a'] ['a', 'a'] = [3] := by decide
  refine ⟨isName, (stands 3).1 (by rw [offsets]; decide), fun at_six => ?_, fun at_seven => ?_, ?_, ?_⟩
  · have := (stands 6).2 at_six
    rw [offsets] at this
    cases List.mem_singleton.1 this
  · have := (stands 7).2 at_seven
    rw [offsets] at this
    cases List.mem_singleton.1 this
  · rw [← count, countWord, offsets]
    rfl
  · rw [← replaced, replaceWord_eq_spliceFrom, offsets]
    rfl

end ShaderPass.Text
