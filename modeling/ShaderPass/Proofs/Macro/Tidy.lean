import ShaderPass.Macro.Functional
import ShaderPass.Proofs.Declaration.LayoutText
import ShaderPass.Proofs.Text.Parens
import ShaderPass.Proofs.Text.Words

/-! Texts in which the names of macros are used for complete calls only. This survives what an expansion
does to a text: splitting a list into arguments, trimming, restoring line breaks, and putting arguments
in the place of parameters. -/
namespace ShaderPass.Macro

open ShaderPass.Text ShaderPass.Bracket

/-- A text that uses the names of macros for calls only: the name, blanks, and a list whose brackets nest
properly, with no identifier character behind it. The macros in `called` may be called, and within the
list of a call only those that are also `below` its macro. -/
inductive Tidy (names : Text → Prop) (below : Text → Text → Prop) : (Text → Prop) → Text → Prop where
  | nil {called} : Tidy names below called []
  | char {called c t} : isIdentChar c = false → Tidy names below called t →
      Tidy names below called (c :: t)
  | word {called w t} : IsWord w → ¬ names w → w ≠ "pragma".toList → isFree t.head? = true →
      Tidy names below called t → Tidy names below called (w ++ t)
  | call {called name blanks inner t} : IsWord name → called name →
      (∀ c ∈ blanks, isBlank c = true) → nested [] inner = true →
      Tidy names below (fun other => called other ∧ below name other) inner →
      isFree t.head? = true → Tidy names below called t →
      Tidy names below called (name ++ (blanks ++ '(' :: (inner ++ ')' :: t)))

section Brackets

theorem isIdentChar_of_isBlank {c : Char} (h : isBlank c = true) : isIdentChar c = false := by
  cases ident : isIdentChar c with
  | false => rfl
  | true => rw [Layout.isBlank_of_isIdentChar ident] at h; cases h

theorem isPlain_of_isIdentChar {c : Char} (h : isIdentChar c = true) : isPlain c = true := by
  rcases isPlain_or c with plain | ⟨b, hb, rfl⟩ | ⟨b, hb, rfl⟩
  · exact plain
  all_goals rcases mem_all_iff.1 hb with rfl | rfl | rfl <;> cases h

theorem isPlain_of_isBlank {c : Char} (h : isBlank c = true) : isPlain c = true := by
  rcases isPlain_or c with plain | ⟨b, hb, rfl⟩ | ⟨b, hb, rfl⟩
  · exact plain
  all_goals rcases mem_all_iff.1 hb with rfl | rfl | rfl <;> revert h <;> decide

theorem nested_append_of_plain {s : Text} (plain : ∀ c ∈ s, isPlain c = true) (stack : List Bracket)
    (t : Text) : nested stack (s ++ t) = nested stack t := by
  induction s with
  | nil => rfl
  | cons c s ih =>
    rw [List.cons_append, nested_cons_of_isPlain (plain c List.mem_cons_self),
      ih fun d hd => plain d (List.mem_cons_of_mem _ hd)]

theorem nested_parens {inner : Text} (h : nested [] inner = true) (stack : List Bracket) (t : Text) :
    nested stack ('(' :: (inner ++ ')' :: t)) = nested stack t := by
  have opening := nested_cons_opening (b := paren) (by decide) stack (inner ++ ')' :: t)
  refine opening.trans ((nested_append [] h _ _).trans ?_)
  rw [Bool.eq_iff_iff]
  refine (nested_cons_closing (b := paren) (by decide) _ _).trans ?_
  simp

theorem nested_cons_count {stack : List Bracket} {c : Char} {t : Text}
    (h : nested stack (c :: t) = true) : ∃ stack' : List Bracket,
      (stack'.count paren : Int) = stack.count paren + parenLevel [c] ∧ nested stack' t = true := by
  rcases isPlain_or c with plain | ⟨b, hb, rfl⟩ | ⟨b, hb, rfl⟩
  · rw [nested_cons_of_isPlain plain] at h
    have opens : c ≠ '(' := by rintro rfl; revert plain; decide
    have closes : c ≠ ')' := by rintro rfl; revert plain; decide
    exact ⟨stack, by simp [parenLevel, opens, closes], h⟩
  · rw [nested_cons_opening hb] at h
    refine ⟨b :: stack, ?_, h⟩
    rw [List.count_cons, Int.natCast_add]
    rcases mem_all_iff.1 hb with rfl | rfl | rfl <;> rfl
  · obtain ⟨outer, rfl, rest⟩ := (nested_cons_closing hb _ _).1 h
    refine ⟨outer, ?_, rest⟩
    rw [List.count_cons, Int.natCast_add, Int.add_assoc]
    rcases mem_all_iff.1 hb with rfl | rfl | rfl <;> exact (Int.add_zero _).symm

theorem parenLevel_of_nested {stack : List Bracket} {t : Text} (h : nested stack t = true) :
    stack.count paren + parenLevel t = 0 := by
  induction t generalizing stack with
  | nil =>
    obtain rfl := List.isEmpty_iff.1 h
    rfl
  | cons c t ih =>
    obtain ⟨stack', count, rest⟩ := nested_cons_count h
    rw [add_parenLevel_cons, ← count, ih rest]

theorem le_parenLevel_of_nested {stack : List Bracket} {a t : Text} (h : nested stack t = true)
    (front : a <+: t) : 0 ≤ stack.count paren + parenLevel a := by
  induction t generalizing stack a with
  | nil =>
    rw [List.prefix_nil.1 front]
    simp
  | cons c t ih =>
    cases a with
    | nil => simp
    | cons c' a =>
      obtain ⟨rfl, front'⟩ := List.cons_prefix_cons.1 front
      obtain ⟨stack', count, rest⟩ := nested_cons_count h
      rw [add_parenLevel_cons, ← count]
      exact ih rest front'

theorem closeParen?_list {inner : Text} (h : nested [] inner = true) (t : Text) :
    closeParen? 0 ('(' :: (inner ++ ')' :: t)) = some (inner.length + 1) := by
  have proper : Proper inner := fun a front => by simpa using le_parenLevel_of_nested h front
  have even : parenLevel inner = 0 := by simpa using parenLevel_of_nested h
  refine closeParen?_eq_some_iff.2 ⟨'(' :: inner, t, rfl, rfl, passes_opening_iff.2 proper, ?_⟩
  rw [parenLevel_opening, even]
  rfl

theorem oneArg_append (d : Int) (s t : Text) :
    oneArg d (s ++ t) = (oneArg d s && oneArg (d + level s) t) := by
  induction s generalizing d with
  | nil => simp [oneArg, level]
  | cons c s ih =>
    rw [List.cons_append, oneArg_cons, oneArg_cons, ih, Bool.and_assoc, level_cons, Int.add_assoc]

theorem oneArg_of_notMem {t : Text} (h : ',' ∉ t) (d : Int) : oneArg d t = true := by
  induction t generalizing d with
  | nil => rfl
  | cons c t ih =>
    rw [List.mem_cons, not_or] at h
    rw [oneArg_cons, ih h.2, Bool.and_true]
    simp [Ne.symm h.1]

theorem oneArg_of_nested {stack : List Bracket} {t : Text} (h : nested stack t = true) {d : Int}
    (positive : 0 < d) : oneArg (d + stack.length) t = true := by
  induction t generalizing stack with
  | nil => rfl
  | cons c t ih =>
    obtain ⟨stack', len, rest, -⟩ := nested_cons h
    have inside : ¬ d + (stack.length : Int) = 0 := by omega
    rw [oneArg_cons, Int.add_assoc, ← len, ih rest]
    simp [inside]

end Brackets

section Lists

theorem isFree_list {blanks : Text} (blank : ∀ c ∈ blanks, isBlank c = true) (t : Text) :
    isFree (blanks ++ '(' :: t).head? = true := by
  cases blanks with
  | nil => rfl
  | cons c blanks => exact isFree_cons (isIdentChar_of_isBlank (blank c List.mem_cons_self))

theorem words_of_blank {blanks : Text} (blank : ∀ c ∈ blanks, isBlank c = true) (t : Text) :
    words (blanks ++ t) = words t := by
  induction blanks with
  | nil => rfl
  | cons c blanks ih =>
    rw [List.cons_append, words_cons (isIdentChar_of_isBlank (blank c List.mem_cons_self)),
      ih fun d hd => blank d (List.mem_cons_of_mem _ hd)]

theorem words_call {name blanks : Text} (isName : IsWord name)
    (blank : ∀ c ∈ blanks, isBlank c = true) (inner t : Text) :
    words (name ++ (blanks ++ '(' :: (inner ++ ')' :: t))) = name :: (words inner ++ words t) := by
  rw [words_append_word isName (isFree_list blank _), words_of_blank blank, words_cons rfl,
    words_append_cons rfl]

theorem nested_call {name blanks inner : Text} (isName : IsWord name)
    (blank : ∀ c ∈ blanks, isBlank c = true) (h : nested [] inner = true) (stack : List Bracket)
    (t : Text) :
    nested stack (name ++ (blanks ++ '(' :: (inner ++ ')' :: t))) = nested stack t := by
  rw [nested_append_of_plain fun c hc => isPlain_of_isIdentChar (isName.2 c hc),
    nested_append_of_plain fun c hc => isPlain_of_isBlank (blank c hc), nested_parens h]

end Lists

variable {names : Text → Prop} {below : Text → Text → Prop} {P Q : Text → Prop} {s t w : Text}

section Basic

theorem Tidy.of_words (other : ∀ w ∈ words t, ¬ names w ∧ w ≠ "pragma".toList) :
    Tidy names below P t := by
  induction t using word_induction with
  | nil => exact .nil
  | char c t plain ih =>
    rw [words_cons plain] at other
    exact .char plain (ih other)
  | word w t isWord free ih =>
    rw [words_append_word isWord free] at other
    have first := other w List.mem_cons_self
    exact .word isWord first.1 first.2 free (ih fun v hv => other v (List.mem_cons_of_mem w hv))

theorem Tidy.mono (h : Tidy names below P t) (sub : ∀ n, P n → Q n) : Tidy names below Q t := by
  induction h generalizing Q with
  | nil => exact .nil
  | char plain _ ih => exact .char plain (ih sub)
  | word isWord other reserved free _ ih => exact .word isWord other reserved free (ih sub)
  | call isName called blank balanced _ free _ ih ih' =>
    exact .call isName (sub _ called) blank balanced (ih fun n h => ⟨sub n h.1, h.2⟩) free (ih' sub)

theorem Tidy.append (hs : Tidy names below P s) (ht : Tidy names below P t)
    (free : isFree t.head? = true) : Tidy names below P (s ++ t) := by
  induction hs with
  | nil => exact ht
  | char plain _ ih => exact .char plain (ih ht)
  | word isWord other reserved free' _ ih =>
    rw [List.append_assoc]
    exact .word isWord other reserved (head?_append_isFree free' free) (ih ht)
  | @call _ name blanks inner rest isName called blank balanced inside free' _ _ ih =>
    have regroup : name ++ (blanks ++ '(' :: (inner ++ ')' :: rest)) ++ t =
        name ++ (blanks ++ '(' :: (inner ++ ')' :: (rest ++ t))) := by simp
    rw [regroup]
    exact .call isName called blank balanced inside (head?_append_isFree free' free) (ih ht)

theorem Tidy.plain_append (hs : ∀ c ∈ s, isIdentChar c = false) (ht : Tidy names below P t) :
    Tidy names below P (s ++ t) := by
  induction s with
  | nil => exact ht
  | cons c s ih =>
    exact .char (hs c List.mem_cons_self) (ih fun d hd => hs d (List.mem_cons_of_mem _ hd))

theorem Tidy.of_cons {c : Char} (h : Tidy names below P (c :: t)) (plain : isIdentChar c = false) :
    Tidy names below P t := by
  have starts {w u : Text} (isWord : IsWord w) : w ++ u ≠ c :: t := by
    obtain ⟨d, w, rfl⟩ := List.exists_cons_of_ne_nil isWord.1
    rintro same
    rw [(List.cons.inj same).1.symm, isWord.2 d List.mem_cons_self] at plain
    cases plain
  generalize whole : c :: t = u at h
  cases h with
  | nil => cases whole
  | char _ rest =>
    obtain ⟨rfl, rfl⟩ := List.cons.inj whole
    exact rest
  | word isWord => exact absurd whole.symm (starts isWord)
  | call isName => exact absurd whole.symm (starts isName)

theorem Tidy.word_cases (h : Tidy names below P t) (member : w ∈ words t) :
    P w ∨ (¬ names w ∧ w ≠ "pragma".toList) := by
  induction h with
  | nil => cases member
  | char plain _ ih =>
    rw [words_cons plain] at member
    exact ih member
  | word isWord other reserved free _ ih =>
    rw [words_append_word isWord free] at member
    rcases List.mem_cons.1 member with rfl | member
    · exact Or.inr ⟨other, reserved⟩
    · exact ih member
  | call isName called blank _ _ free _ ih ih' =>
    rw [words_call isName blank] at member
    rcases List.mem_cons.1 member with rfl | member
    · exact Or.inl called
    rcases List.mem_append.1 member with member | member
    · exact (ih member).imp_left And.left
    · exact ih' member

theorem Tidy.occurring (h : Tidy names below P t) :
    Tidy names below (fun n => P n ∧ n ∈ words t) t := by
  induction h with
  | nil => exact .nil
  | char plain _ ih =>
    rw [words_cons plain]
    exact .char plain ih
  | word isWord other reserved free _ ih =>
    rw [words_append_word isWord free]
    exact .word isWord other reserved free (ih.mono fun n h => ⟨h.1, List.mem_cons_of_mem _ h.2⟩)
  | call isName called blank balanced _ free _ ih ih' =>
    rw [words_call isName blank]
    refine .call isName ⟨called, List.mem_cons_self⟩ blank balanced (ih.mono fun n h => ?_) free
      (ih'.mono fun n h => ⟨h.1, List.mem_cons_of_mem _ (List.mem_append_right _ h.2)⟩)
    exact ⟨⟨h.1.1, List.mem_cons_of_mem _ (List.mem_append_left _ h.2)⟩, h.1.2⟩

end Basic
section Trimming

theorem isFree_of_append (free : isFree (s ++ t).head? = true) : isFree s.head? = true := by
  cases s with
  | nil => rfl
  | cons c s => exact free

theorem Tidy.of_plain_append (plain : ∀ c ∈ s, isIdentChar c = false)
    (h : Tidy names below P (s ++ t)) : Tidy names below P t := by
  induction s with
  | nil => exact h
  | cons c s ih =>
    exact ih (fun d hd => plain d (List.mem_cons_of_mem _ hd)) (h.of_cons (plain c List.mem_cons_self))

theorem exists_of_append_blank {a b : Text} {c : Char} (last : isBlank c = false)
    (whole : a ++ [c] ++ t = s ++ b) (blank : ∀ d ∈ b, isBlank d = true) :
    ∃ m, s = a ++ [c] ++ m ∧ t = m ++ b := by
  rcases List.append_eq_append_iff.1 whole with ⟨m, cut, rest⟩ | ⟨m, cut, rest⟩
  · exact ⟨m, cut, rest⟩
  · rcases List.eq_nil_or_concat m with rfl | ⟨m, d, rfl⟩
    · exact ⟨[], by simp [cut], by simp [rest]⟩
    · rw [List.concat_eq_append, ← List.append_assoc] at cut
      obtain rfl : c = d := by simpa using List.append_inj_right' cut rfl
      rw [blank c (by simp [rest])] at last
      cases last

theorem Tidy.of_append_blank {u b : Text} (h : Tidy names below P u) (whole : u = s ++ b)
    (blank : ∀ c ∈ b, isBlank c = true) : Tidy names below P s := by
  induction h generalizing s with
  | nil =>
    rw [(List.append_eq_nil_iff.1 whole.symm).1]
    exact .nil
  | char plain _ ih =>
    cases s with
    | nil => exact .nil
    | cons d s =>
      obtain ⟨rfl, rest⟩ := List.cons.inj whole
      exact .char plain (ih rest)
  | @word _ w t isWord other reserved free _ ih =>
    obtain ⟨a, c, rfl⟩ := (List.eq_nil_or_concat w).resolve_left isWord.1
    rw [List.concat_eq_append] at *
    have last := Layout.isBlank_of_isIdentChar (isWord.2 c (by simp))
    obtain ⟨m, rfl, rfl⟩ := exists_of_append_blank last whole blank
    exact .word isWord other reserved (isFree_of_append free) (ih rfl)
  | @call _ name blanks inner t isName called spaces balanced inside free _ _ ih =>
    have regroup (t : Text) : name ++ (blanks ++ '(' :: (inner ++ ')' :: t)) =
        (name ++ (blanks ++ '(' :: inner)) ++ [')'] ++ t := by simp
    rw [regroup] at whole
    obtain ⟨m, rfl, rfl⟩ := exists_of_append_blank (by decide) whole blank
    rw [← regroup]
    exact .call isName called spaces balanced inside (isFree_of_append free) (ih rfl)

theorem Tidy.trim (h : Tidy names below P t) : Tidy names below P (trim t) := by
  obtain ⟨a, b, whole, leading, trailing⟩ := exists_trim t
  rw [whole] at h
  have rest := h.of_plain_append fun c hc => isIdentChar_of_isBlank (leading c hc)
  exact rest.of_append_blank rfl trailing

theorem exists_dropBreaks (t : Text) : ∃ s, t = s ++ dropBreaks t ∧ ∀ c ∈ s, c = '@' := by
  fun_induction dropBreaks t with
  | case1 t ih =>
    obtain ⟨s, whole, marks⟩ := ih
    refine ⟨'@' :: '@' :: s, by rw [List.cons_append, List.cons_append, ← whole], ?_⟩
    simpa using marks
  | case2 t => exact ⟨[], rfl, nofun⟩

theorem Tidy.dropBreaks (h : Tidy names below P t) : Tidy names below P (dropBreaks t) := by
  obtain ⟨s, whole, marks⟩ := exists_dropBreaks t
  rw [whole] at h
  exact h.of_plain_append fun c hc => by rw [marks c hc]; rfl

theorem nested_trim (t : Text) : nested [] (trim t) = nested [] t := by
  obtain ⟨a, b, whole, leading, trailing⟩ := exists_trim t
  have blank_end (stack : List Bracket) : nested stack b = nested stack [] := by
    have := nested_append_of_plain (fun c hc => isPlain_of_isBlank (trailing c hc)) stack []
    rwa [List.append_nil] at this
  have := nested_append_of_plain (fun c hc => isPlain_of_isBlank (leading c hc)) [] (trim t ++ b)
  rw [← whole, nested_append_congr blank_end, List.append_nil] at this
  exact this.symm

theorem nested_dropBreaks (t : Text) : nested [] (dropBreaks t) = nested [] t := by
  obtain ⟨s, whole, marks⟩ := exists_dropBreaks t
  have := nested_append_of_plain (fun c hc => by rw [marks c hc]; decide) [] (dropBreaks t)
  rw [← whole] at this
  exact this.symm

end Trimming

section Arguments

theorem topPieces_block {d : Int} {p : Text} {ps : List Text} (balanced : nested [] s = true)
    (one : oneArg d s = true) (pieces : topPieces d t = p :: ps) :
    topPieces d (s ++ t) = (s ++ p) :: ps := by
  refine topPieces_append one ?_
  rw [level_of_nested balanced]
  simpa using pieces

theorem comma_notMem_of_isWord (h : IsWord w) : ',' ∉ w := by
  intro member
  have := h.2 _ member
  revert this
  decide

theorem nested_of_isWord (h : IsWord w) : nested [] w = true := by
  have := nested_append_of_plain (fun c hc => isPlain_of_isIdentChar (h.2 c hc)) [] []
  rwa [List.append_nil] at this

theorem oneArg_call {name blanks inner : Text} (isName : IsWord name)
    (blank : ∀ c ∈ blanks, isBlank c = true) (h : nested [] inner = true) (depth : Nat) :
    oneArg depth (name ++ (blanks ++ '(' :: (inner ++ [')']))) = true := by
  have no_comma : ',' ∉ name ++ blanks := by
    rw [List.mem_append, not_or]
    refine ⟨comma_notMem_of_isWord isName, fun member => ?_⟩
    have := blank _ member
    revert this
    decide
  have outside : level (name ++ blanks) = 0 := by
    have nests : nested [] (name ++ blanks) = true := by
      rw [nested_append_of_plain fun c hc => isPlain_of_isIdentChar (isName.2 c hc), ←
        List.append_nil blanks, nested_append_of_plain fun c hc => isPlain_of_isBlank (blank c hc)]
      rfl
    exact level_of_nested nests
  have inside := oneArg_of_nested h (d := depth + 1) (by omega)
  rw [← List.append_assoc, oneArg_append, oneArg_of_notMem no_comma, outside, Int.add_zero,
    Bool.true_and, oneArg_cons, oneArg_append]
  simp only [List.length_nil, Nat.cast_zero, Int.add_zero] at inside
  simp [depthStep, inside, oneArg]

theorem isFree_of_start (front : s <+: t) (free : isFree t.head? = true) :
    isFree s.head? = true := by
  obtain ⟨m, rfl⟩ := front
  exact isFree_of_append free

theorem tidy_topPieces_block {stack : List Bracket} (block : nested [] s = true)
    (one : oneArg stack.length s = true) (rest : nested stack t = true)
    (put : ∀ p, p <+: t → Tidy names below P p → Tidy names below P (s ++ p))
    (pieces : ∀ piece ∈ topPieces stack.length t, Tidy names below P piece) :
    ∀ piece ∈ topPieces stack.length (s ++ t), Tidy names below P piece := by
  cases found : topPieces stack.length t with
  | nil => exact absurd found (topPieces_ne_nil _ _)
  | cons p ps =>
    rw [found] at pieces
    rw [topPieces_block block one found]
    intro piece member
    rcases List.mem_cons.1 member with rfl | member
    · exact put p (isArg_of_topPieces rest found).2.2.1 (pieces p List.mem_cons_self)
    · exact pieces piece (List.mem_cons_of_mem _ member)

theorem Tidy.topPieces (h : Tidy names below P t) {stack : List Bracket}
    (balanced : nested stack t = true) :
    ∀ piece ∈ Text.topPieces stack.length t, Tidy names below P piece := by
  induction h generalizing stack with
  | nil =>
    intro piece member
    rw [List.mem_singleton.1 member]
    exact .nil
  | @char _ c t plain _ ih =>
    obtain ⟨stack', len, rest, -⟩ := nested_cons balanced
    have pieces := ih rest
    rw [Text.topPieces]
    split
    · rename_i comma
      rw [Bool.and_eq_true, decide_eq_true_eq, decide_eq_true_eq] at comma
      have empty : (stack'.length : Int) = 0 := by
        rw [len, comma.1, comma.2]
        rfl
      rw [empty] at pieces
      intro piece member
      rcases List.mem_cons.1 member with rfl | member
      · exact .nil
      · exact pieces piece member
    · rw [← len]
      cases found : Text.topPieces stack'.length t with
      | nil => exact absurd found (topPieces_ne_nil _ _)
      | cons p ps =>
        rw [found] at pieces
        intro piece member
        rcases List.mem_cons.1 member with rfl | member
        · exact .char plain (pieces p List.mem_cons_self)
        · exact pieces piece (List.mem_cons_of_mem _ member)
  | @word _ w t isWord other reserved free _ ih =>
    have rest : nested stack t = true := by
      rwa [nested_append_of_plain fun c hc => isPlain_of_isIdentChar (isWord.2 c hc)] at balanced
    refine tidy_topPieces_block (nested_of_isWord isWord)
      (oneArg_of_notMem (comma_notMem_of_isWord isWord) _) rest (fun p front tidy => ?_) (ih rest)
    exact .word isWord other reserved (isFree_of_start front free) tidy
  | @call _ name blanks inner t isName called blank nests inside free _ _ ih =>
    have rest : nested stack t = true := by
      rwa [nested_call isName blank nests] at balanced
    have regroup (t : Text) : name ++ (blanks ++ '(' :: (inner ++ ')' :: t)) =
        name ++ (blanks ++ '(' :: (inner ++ [')'])) ++ t := by simp
    have block : nested [] (name ++ (blanks ++ '(' :: (inner ++ [')']))) = true :=
      nested_call isName blank nests [] []
    rw [regroup]
    refine tidy_topPieces_block block (oneArg_call isName blank nests _) rest (fun p front tidy => ?_)
      (ih rest)
    rw [← regroup]
    exact .call isName called blank nests inside (isFree_of_start front free) tidy

theorem mem_map_of_mem_splitArgs {arg : Text} (member : arg ∈ splitArgs t) :
    arg ∈ (topPieces 0 t).map trim := by
  unfold splitArgs at member
  split at member
  · cases member
  · exact member

theorem nested_of_mem_splitArgs {arg : Text} (balanced : nested [] t = true) (member : arg ∈ splitArgs t) :
    nested [] arg = true := by
  obtain ⟨piece, found, rfl⟩ := List.mem_map.1 (mem_map_of_mem_splitArgs member)
  rw [nested_trim]
  cases pieces : Text.topPieces 0 t with
  | nil => exact absurd pieces (topPieces_ne_nil _ _)
  | cons p ps =>
    obtain ⟨first, -, -, rest⟩ := isArg_of_topPieces balanced pieces
    rw [pieces] at found
    rcases List.mem_cons.1 found with rfl | found
    · exact first
    · exact (rest piece found).1.1

theorem Tidy.splitArgs (h : Tidy names below P t) (balanced : nested [] t = true) :
    ∀ arg ∈ splitArgs t, Tidy names below P arg := by
  intro arg member
  obtain ⟨piece, found, rfl⟩ := List.mem_map.1 (mem_map_of_mem_splitArgs member)
  exact (h.topPieces balanced piece found).trim

theorem mem_of_mem_topPieces {d : Int} {piece : Text} {c : Char} (found : piece ∈ topPieces d t)
    (member : c ∈ piece) : c ∈ t := by
  induction t generalizing d piece with
  | nil =>
    rw [List.mem_singleton.1 found] at member
    cases member
  | cons a t ih =>
    rw [topPieces] at found
    split at found
    · rcases List.mem_cons.1 found with rfl | found
      · cases member
      · exact List.mem_cons_of_mem _ (ih found member)
    · cases pieces : topPieces (d + depthStep a) t with
      | nil => exact absurd pieces (topPieces_ne_nil _ _)
      | cons p ps =>
        rw [pieces] at found
        rcases List.mem_cons.1 found with rfl | found
        · rcases List.mem_cons.1 member with rfl | member
          · exact List.mem_cons_self
          · exact List.mem_cons_of_mem _ (ih (pieces ▸ List.mem_cons_self) member)
        · exact List.mem_cons_of_mem _ (ih (pieces ▸ List.mem_cons_of_mem _ found) member)

theorem mem_of_mem_splitArgs {arg : Text} {c : Char} (found : arg ∈ splitArgs t) (member : c ∈ arg) :
    c ∈ t := by
  obtain ⟨piece, listed, rfl⟩ := List.mem_map.1 (mem_map_of_mem_splitArgs found)
  obtain ⟨a, b, whole, -, -⟩ := exists_trim piece
  refine mem_of_mem_topPieces listed ?_
  rw [whole]
  exact List.mem_append_right _ (List.mem_append_left _ member)

end Arguments
section Breaks

def putBreaks (feed : Text) : Text → Text
  | '@' :: '@' :: t => feed ++ putBreaks feed t
  | c :: t => c :: putBreaks feed t
  | [] => []

theorem replaceAll_breakMark (feed t : Text) : replaceAll breakMark feed 0 t = putBreaks feed t := by
  fun_induction putBreaks feed t with
  | case1 t ih =>
    rw [replaceAll, if_pos rfl, ← ih]
    rfl
  | case2 c t other ih =>
    have mismatch : ¬ breakMark.isPrefixOf (c :: t) = true := by
      rw [List.isPrefixOf_iff_prefix]
      rintro ⟨rest, same⟩
      obtain ⟨rfl, rfl⟩ := List.cons.inj same
      exact other rest rfl rfl
    rw [replaceAll, if_pos rfl, if_neg mismatch, ih]
  | case3 => rfl

variable {feed : Text}

theorem putBreaks_mark (t : Text) : putBreaks feed ('@' :: '@' :: t) = feed ++ putBreaks feed t :=
  rfl

theorem putBreaks_of_other {c : Char} (other : ∀ u, c = '@' → t = '@' :: u → False) :
    putBreaks feed (c :: t) = c :: putBreaks feed t := by
  rw [putBreaks]
  exact other

theorem putBreaks_cons {c : Char} (h : c ≠ '@') (t : Text) :
    putBreaks feed (c :: t) = c :: putBreaks feed t :=
  putBreaks_of_other fun _ mark _ => h mark

theorem putBreaks_append (h : '@' ∉ s) (t : Text) : putBreaks feed (s ++ t) = s ++ putBreaks feed t := by
  induction s with
  | nil => rfl
  | cons c s ih =>
    rw [List.mem_cons, not_or] at h
    rw [List.cons_append, putBreaks_cons (Ne.symm h.1), ih h.2, List.cons_append]

theorem putBreaks_append_cons {c : Char} (h : c ≠ '@') (s t : Text) :
    putBreaks feed (s ++ c :: t) = putBreaks feed s ++ c :: putBreaks feed t := by
  fun_induction putBreaks feed s with
  | case1 s ih => rw [List.cons_append, List.cons_append, putBreaks_mark, ih, List.append_assoc]
  | case2 d s other ih =>
    rw [List.cons_append, putBreaks_of_other, ih, List.cons_append]
    rintro u rfl same
    cases s with
    | nil => exact h (List.cons.inj same).1
    | cons e s => exact other s rfl (by rw [(List.cons.inj same).1])
  | case3 => exact putBreaks_cons h t

theorem nested_putBreaks (plain : ∀ c ∈ feed, isPlain c = true) (t : Text) (stack : List Bracket)
    (u : Text) : nested stack (putBreaks feed t ++ u) = nested stack (t ++ u) := by
  fun_induction putBreaks feed t generalizing stack with
  | case1 t ih =>
    rw [List.append_assoc, nested_append_of_plain plain, ih]
    have marks : ∀ c ∈ breakMark, isPlain c = true := List.all_eq_true.1 (by decide)
    exact (nested_append_of_plain marks stack (t ++ u)).symm
  | case2 c t other ih => simp only [List.cons_append, nested, ih]
  | case3 => rfl

theorem isFree_putBreaks (some_feed : feed ≠ []) (plain : ∀ c ∈ feed, isIdentChar c = false)
    (free : isFree t.head? = true) : isFree (putBreaks feed t).head? = true := by
  unfold putBreaks
  split
  · obtain ⟨c, rest, rfl⟩ := List.exists_cons_of_ne_nil some_feed
    exact isFree_cons (plain c List.mem_cons_self)
  · exact free
  · rfl

theorem Tidy.putBreaks (h : Tidy names below P t) (some_feed : feed ≠ [])
    (blank : ∀ c ∈ feed, isBlank c = true) : Tidy names below P (putBreaks feed t) := by
  have plain (c : Char) (hc : c ∈ feed) : isIdentChar c = false := isIdentChar_of_isBlank (blank c hc)
  -- A mark takes two characters, so a text is looked at together with its rest after one mark sign.
  suffices both : Tidy names below P (Macro.putBreaks feed t) ∧
      ∀ rest, t = '@' :: rest → Tidy names below P (Macro.putBreaks feed rest) from both.1
  have no_mark {w : Text} (isWord : IsWord w) : '@' ∉ w := fun member => by
    have := isWord.2 _ member
    revert this
    decide
  have starts {w u rest : Text} (isWord : IsWord w) : w ++ u ≠ '@' :: rest := by
    obtain ⟨c, w, rfl⟩ := List.exists_cons_of_ne_nil isWord.1
    intro same
    exact no_mark isWord ((List.cons.inj same).1 ▸ List.mem_cons_self)
  induction h with
  | nil => exact ⟨.nil, nofun⟩
  | @char _ c t other _ ih =>
    refine ⟨?_, fun rest same => (List.cons.inj same).2 ▸ ih.1⟩
    by_cases mark : c = '@'
    · subst mark
      by_cases second : ∃ rest, t = '@' :: rest
      · obtain ⟨rest, rfl⟩ := second
        rw [putBreaks_mark]
        exact (ih.2 rest rfl).plain_append plain
      · rw [putBreaks_of_other fun rest _ same => second ⟨rest, same⟩]
        exact .char other ih.1
    · rw [putBreaks_cons mark]
      exact .char other ih.1
  | word isWord other reserved free _ ih =>
    refine ⟨?_, fun rest same => absurd same (starts isWord)⟩
    rw [putBreaks_append (no_mark isWord)]
    exact .word isWord other reserved (isFree_putBreaks some_feed plain free) ih.1
  | @call _ name blanks inner t isName called spaces balanced _ free _ ih ih' =>
    refine ⟨?_, fun rest same => absurd same (starts isName)⟩
    have no_mark_blank : '@' ∉ blanks := fun member => by
      have := spaces _ member
      revert this
      decide
    rw [putBreaks_append (no_mark isName), putBreaks_append no_mark_blank,
      putBreaks_cons (by decide), putBreaks_append_cons (by decide)]
    refine .call isName called spaces ?_ ih.1 (isFree_putBreaks some_feed plain free) ih'.1
    have := nested_putBreaks (fun c hc => isPlain_of_isBlank (blank c hc)) inner [] []
    rwa [List.append_nil, List.append_nil, balanced] at this

end Breaks

section Substitution

theorem mapWords_nil (f : Text → Text) : mapWords f [] = [] := by
  rw [mapWords]

theorem mapWords_cons {c : Char} (plain : isIdentChar c = false) (f : Text → Text) (t : Text) :
    mapWords f (c :: t) = c :: mapWords f t := by
  rw [mapWords, if_neg (by simp [plain])]

theorem mapWords_word (isWord : IsWord w) (free : isFree t.head? = true) (f : Text → Text) :
    mapWords f (w ++ t) = f w ++ mapWords f t := by
  obtain ⟨c, w, rfl⟩ := List.exists_cons_of_ne_nil isWord.1
  have rest : ∀ d ∈ w, isIdentChar d = true := fun d hd => isWord.2 d (List.mem_cons_of_mem _ hd)
  have stop : t.takeWhile isIdentChar = [] ∧ t.dropWhile isIdentChar = t := by
    cases t with
    | nil => exact ⟨rfl, rfl⟩
    | cons d t =>
      have plain : isIdentChar d = false := by simpa [isFree] using free
      simp [plain]
  rw [List.cons_append, mapWords, if_pos (isWord.2 c List.mem_cons_self),
    List.takeWhile_append_of_pos rest, List.dropWhile_append_of_pos rest, stop.1, stop.2,
    List.append_nil]

theorem mapWords_of_plain {s : Text} (plain : ∀ c ∈ s, isIdentChar c = false) (f : Text → Text) (t : Text) :
    mapWords f (s ++ t) = s ++ mapWords f t := by
  induction s with
  | nil => rfl
  | cons c s ih =>
    rw [List.cons_append, mapWords_cons (plain c List.mem_cons_self),
      ih fun d hd => plain d (List.mem_cons_of_mem _ hd), List.cons_append]

theorem mapWords_of_blank {blanks : Text} (blank : ∀ c ∈ blanks, isBlank c = true) (f : Text → Text)
    (t : Text) : mapWords f (blanks ++ t) = blanks ++ mapWords f t :=
  mapWords_of_plain (fun c hc => isIdentChar_of_isBlank (blank c hc)) f t

theorem mapWords_append_cons {c : Char} (plain : isIdentChar c = false) (f : Text → Text) (s t : Text) :
    mapWords f (s ++ c :: t) = mapWords f s ++ c :: mapWords f t := by
  induction s using word_induction with
  | nil => rw [mapWords_nil]; exact mapWords_cons plain f t
  | char d s other ih => rw [List.cons_append, mapWords_cons other, mapWords_cons other, ih]; rfl
  | word w s isWord free ih =>
    rw [List.append_assoc, mapWords_word isWord (head?_append_isFree free (isFree_cons plain)),
      mapWords_word isWord free, ih, List.append_assoc]

variable {A B : Text → Prop}

theorem nested_mapWords {f : Text → Text} (balanced : ∀ w, IsWord w → nested [] (f w) = true) (t : Text)
    (stack : List Bracket) (u : Text) : nested stack (mapWords f t ++ u) = nested stack (t ++ u) := by
  induction t using word_induction generalizing stack with
  | nil => rw [mapWords_nil]
  | char c t plain ih =>
    rw [mapWords_cons plain]
    simp only [List.cons_append, nested, ih]
  | word w t isWord free ih =>
    rw [mapWords_word isWord free, List.append_assoc, List.append_assoc,
      nested_append_of_plain fun c hc => isPlain_of_isIdentChar (isWord.2 c hc), ← ih]
    exact nested_append [] (balanced w isWord) stack _

theorem Tidy.mapWords (h : Tidy names below B t) {f : Text → Text}
    (kept : ∀ n, B n → f n = n) (put : ∀ w, f w = w ∨ Tidy names below A (f w))
    (balanced : ∀ w, IsWord w → nested [] (f w) = true) (sub : ∀ n, B n → Q n)
    (arg : ∀ n, A n → Q n) (inside : ∀ outer n, B outer → A n → below outer n) :
    Tidy names below Q (mapWords f t) ∧
      (isFree t.head? = true → isFree (Macro.mapWords f t).head? = true) := by
  have starts {w u : Text} (isWord : IsWord w) : ¬ isFree (w ++ u).head? = true := by
    obtain ⟨c, w, rfl⟩ := List.exists_cons_of_ne_nil isWord.1
    simp [isFree, isWord.2 c List.mem_cons_self]
  induction h generalizing Q with
  | nil =>
    rw [mapWords_nil]
    exact ⟨.nil, id⟩
  | char plain _ ih =>
    rw [mapWords_cons plain]
    exact ⟨.char plain (ih kept sub arg inside).1, id⟩
  | @word _ w t isWord other reserved free _ ih =>
    obtain ⟨tidy, frees⟩ := ih kept sub arg inside
    rw [mapWords_word isWord free]
    refine ⟨?_, fun starts_free => absurd starts_free (starts isWord)⟩
    rcases put w with same | replaced
    · rw [same]
      exact .word isWord other reserved (frees free) tidy
    · exact (replaced.mono arg).append tidy (frees free)
  | @call _ name blanks inner t isName called spaces nests_inner _ free _ ih ih' =>
    obtain ⟨tidy, -⟩ := ih (Q := fun n => Q n ∧ below name n) (fun n h => kept n h.1)
      (fun n h => ⟨sub n h.1, h.2⟩) (fun n h => ⟨arg n h, inside name n called h⟩)
      fun outer n h => inside outer n h.1
    obtain ⟨tidy', frees⟩ := ih' kept sub arg inside
    have balanced_inner : nested [] (Macro.mapWords f inner) = true := by
      have := nested_mapWords balanced inner [] []
      rwa [List.append_nil, List.append_nil, nests_inner] at this
    rw [mapWords_word isName (isFree_list spaces _), kept name called, mapWords_of_blank spaces,
      mapWords_cons (by decide), mapWords_append_cons (by decide)]
    exact ⟨.call isName (sub name called) spaces balanced_inner tidy (frees free) tidy',
      fun starts_free => absurd starts_free (starts isName)⟩

end Substitution
end ShaderPass.Macro
