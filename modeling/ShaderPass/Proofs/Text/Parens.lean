import Mathlib.Algebra.Ring.Int.Defs
import ShaderPass.Text.Paren

/-! The close of a parenthesis: the first closing one with as many opened as closed in between. The
search finds it by counting from the parenthesis on. A search that starts to count later never ends
there. -/
namespace ShaderPass.Text

def parenLevel (t : Text) : Int :=
  t.count '(' - t.count ')'

@[simp] theorem parenLevel_nil : parenLevel [] = 0 :=
  rfl

@[simp] theorem parenLevel_append (s t : Text) : parenLevel (s ++ t) = parenLevel s + parenLevel t := by
  simp only [parenLevel, List.count_append]
  omega

@[simp] theorem parenLevel_opening (t : Text) : parenLevel ('(' :: t) = 1 + parenLevel t :=
  parenLevel_append ['('] t

@[simp] theorem parenLevel_closing (t : Text) : parenLevel (')' :: t) = -1 + parenLevel t :=
  parenLevel_append [')'] t

theorem add_parenLevel_cons (d : Int) (c : Char) (t : Text) :
    d + parenLevel (c :: t) = d + parenLevel [c] + parenLevel t := by
  rw [← List.singleton_append, parenLevel_append, Int.add_assoc]

/-- No closing parenthesis of the text brings the depth, which is `d` in front of the text, to zero. -/
def Passes (d : Int) (t : Text) : Prop :=
  ∀ a b, t = a ++ ')' :: b → d + parenLevel a ≠ 1

theorem passes_nil (d : Int) : Passes d [] := by
  intro a b cut
  simp at cut

theorem passes_cons_iff {d : Int} {c : Char} {t : Text} :
    Passes d (c :: t) ↔ ¬(c = ')' ∧ d = 1) ∧ Passes (d + parenLevel [c]) t := by
  constructor
  · intro h
    refine ⟨?_, fun a b cut => ?_⟩
    · rintro ⟨rfl, rfl⟩
      exact h [] t rfl rfl
    · have := h (c :: a) b (by rw [cut]; rfl)
      rwa [add_parenLevel_cons] at this
  · rintro ⟨first, later⟩ a b cut
    cases a with
    | nil =>
      obtain ⟨rfl, rfl⟩ := List.cons.inj cut
      exact fun last => first ⟨rfl, by simpa using last⟩
    | cons c' a =>
      obtain ⟨rfl, rfl⟩ := List.cons.inj cut
      rw [add_parenLevel_cons]
      exact later a b rfl

theorem closeParen?_cons (d : Int) (c : Char) (t : Text) : closeParen? d (c :: t) =
    if c = ')' ∧ d = 1 then some 0 else (closeParen? (d + parenLevel [c]) t).map (· + 1) := by
  rw [closeParen?]
  by_cases opens : c = '('
  · rw [if_pos opens, opens, if_neg fun h => absurd h.1 (by decide)]
    rfl
  · rw [if_neg opens]
    by_cases closes : c = ')'
    · by_cases last : d = 1
      · rw [if_pos closes, if_pos last, if_pos ⟨closes, last⟩]
      · rw [if_pos closes, if_neg last, if_neg fun h => last h.2, closes]
        rfl
    · have plain : parenLevel [c] = 0 := by
        simp [parenLevel, opens, closes]
      rw [if_neg closes, if_neg fun h => closes h.1, plain, Int.add_zero]

theorem closeParen?_eq_none_iff {d : Int} {t : Text} : closeParen? d t = none ↔ Passes d t := by
  induction t generalizing d with
  | nil => exact iff_of_true rfl (passes_nil d)
  | cons c t ih =>
    rw [closeParen?_cons, passes_cons_iff]
    split
    · rename_i last
      simp [last]
    · rename_i other
      rw [Option.map_eq_none_iff, ih]
      exact ⟨fun later => ⟨other, later⟩, fun h => h.2⟩

theorem closeParen?_eq_some_iff {d : Int} {t : Text} {n : Nat} : closeParen? d t = some n ↔
    ∃ inner rest, t = inner ++ ')' :: rest ∧ inner.length = n ∧ Passes d inner ∧
      d + parenLevel inner = 1 := by
  induction t generalizing d n with
  | nil => simp [closeParen?]
  | cons c t ih =>
    rw [closeParen?_cons]
    constructor
    · intro found
      split at found
      · rename_i last
        obtain ⟨rfl, rfl⟩ := last
        obtain rfl := Option.some.inj found
        exact ⟨[], t, rfl, rfl, passes_nil 1, rfl⟩
      · rename_i other
        obtain ⟨m, later, rfl⟩ := Option.map_eq_some_iff.1 found
        obtain ⟨inner, rest, rfl, rfl, passes, last⟩ := ih.1 later
        refine ⟨c :: inner, rest, rfl, rfl, passes_cons_iff.2 ⟨other, passes⟩, ?_⟩
        rw [add_parenLevel_cons]
        exact last
    · rintro ⟨inner, rest, cut, rfl, passes, last⟩
      cases inner with
      | nil =>
        obtain ⟨rfl, rfl⟩ := List.cons.inj cut
        rw [if_pos ⟨rfl, by simpa using last⟩]
        rfl
      | cons c' inner =>
        obtain ⟨rfl, rfl⟩ := List.cons.inj cut
        obtain ⟨other, passes⟩ := passes_cons_iff.1 passes
        rw [add_parenLevel_cons] at last
        rw [if_neg other, ih.2 ⟨inner, rest, rfl, rfl, passes, last⟩]
        rfl

def Proper (t : Text) : Prop :=
  ∀ a, a <+: t → 0 ≤ parenLevel a

theorem Passes.one_le {d : Int} {t : Text} (passes : Passes d t) (positive : 1 ≤ d) {a : Text}
    (front : a <+: t) : 1 ≤ d + parenLevel a := by
  induction t generalizing d a with
  | nil =>
    rw [List.prefix_nil.1 front]
    simpa using positive
  | cons c t ih =>
    obtain ⟨other, passes⟩ := passes_cons_iff.1 passes
    cases a with
    | nil => simpa using positive
    | cons c' a =>
      obtain ⟨rfl, front'⟩ := List.cons_prefix_cons.1 front
      rw [add_parenLevel_cons]
      refine ih passes ?_ front'
      by_cases closes : c' = ')'
      · have deeper : d ≠ 1 := fun last => other ⟨closes, last⟩
        have step : parenLevel [c'] = -1 := by rw [closes]; rfl
        omega
      · have step : 0 ≤ parenLevel [c'] := by simp [parenLevel, List.count_eq_zero.2, Ne.symm closes]
        omega

theorem passes_one_iff {t : Text} : Passes 1 t ↔ Proper t := by
  constructor
  · intro passes a front
    have := passes.one_le (Int.le_refl 1) front
    omega
  · rintro proper a b rfl last
    have := proper (a ++ [')']) (by simp)
    simp only [parenLevel_append, parenLevel_closing, parenLevel_nil] at this
    omega

/-- What a parenthesis in front of `behind` encloses, and what follows its close. Without a close it
encloses all of `behind`. -/
inductive Encloses (behind : Text) : Text → Text → Prop
  | closed {value rest} (cut : behind = value ++ ')' :: rest) (proper : Proper value)
    (even : parenLevel value = 0) : Encloses behind value rest
  | unclosed (proper : Proper behind) : Encloses behind behind []

/-- What is found to be enclosed when the first `k` characters, from the parenthesis on, do not count. -/
inductive EnclosesFrom (k : Nat) (behind : Text) : Text → Text → Prop
  | closed {value rest} (cut : behind = value ++ ')' :: rest) (passes : Passes 0 (('(' :: value).drop k))
    (last : parenLevel (('(' :: value).drop k) = 1) : EnclosesFrom k behind value rest
  | unclosed (passes : Passes 0 (('(' :: behind).drop k)) : EnclosesFrom k behind behind []

theorem passes_opening_iff {t : Text} : Passes 0 ('(' :: t) ↔ Proper t := by
  rw [passes_cons_iff, ← passes_one_iff]
  exact and_iff_right (by decide)

theorem enclosesFrom_zero_iff {behind value rest : Text} :
    EnclosesFrom 0 behind value rest ↔ Encloses behind value rest := by
  constructor
  · intro h
    cases h with
    | closed cut passes last =>
      rw [List.drop_zero, passes_opening_iff] at passes
      rw [List.drop_zero, parenLevel_opening] at last
      exact .closed cut passes (by omega)
    | unclosed passes => exact .unclosed (passes_opening_iff.1 passes)
  · intro h
    cases h with
    | closed cut proper even =>
      refine .closed cut (passes_opening_iff.2 proper) ?_
      rw [List.drop_zero, parenLevel_opening, even]
      rfl
    | unclosed proper => exact .unclosed (passes_opening_iff.2 proper)

theorem EnclosesFrom.encloses_iff {k : Nat} (late : 0 < k) {behind value rest : Text}
    (h : EnclosesFrom k behind value rest) :
    Encloses behind value rest ↔ Proper behind ∧ value = behind := by
  obtain ⟨j, rfl⟩ : ∃ j, k = j + 1 := ⟨k - 1, by omega⟩
  have shorter {s : Text} : value ≠ value ++ ')' :: s := by simp
  constructor
  · intro own
    cases own with
    | closed cut proper even =>
      cases h with
      | closed _ _ last =>
        -- The value is even, so what is counted of it would have to be opened in the part left out.
        have front := proper _ (List.take_prefix j value)
        rw [← List.take_append_drop j value, parenLevel_append] at even
        rw [List.drop_succ_cons] at last
        omega
      | unclosed => exact absurd cut shorter
    | unclosed proper => exact ⟨proper, rfl⟩
  · rintro ⟨proper, rfl⟩
    cases h with
    | closed cut => exact absurd cut shorter
    | unclosed => exact .unclosed proper

theorem closeParen?_drop_opening {k : Nat} {value : Text} (passes : Passes 0 (('(' :: value).drop k))
    (last : parenLevel (('(' :: value).drop k) = 1) (rest : Text) :
    k ≤ value.length ∧
      closeParen? 0 (('(' :: (value ++ ')' :: rest)).drop k) = some (value.length + 1 - k) := by
  have inside : k ≤ value.length := by
    by_contra outside
    rw [List.drop_eq_nil_of_le (by rw [List.length_cons]; omega)] at last
    cases last
  refine ⟨inside, closeParen?_eq_some_iff.2 ⟨('(' :: value).drop k, rest, ?_, ?_, passes, by omega⟩⟩
  · rw [← List.cons_append, List.drop_append_of_le_length (by rw [List.length_cons]; omega)]
  · rw [List.length_drop, List.length_cons]

theorem EnclosesFrom.length_le {k : Nat} {behind value rest : Text} (h : EnclosesFrom k behind value rest) :
    rest.length ≤ behind.length := by
  cases h with
  | closed cut => simp only [cut, List.length_append, List.length_cons]; omega
  | unclosed => exact Nat.zero_le _

theorem exists_of_drop_cons {k : Nat} {c : Char} {t inner rest : Text} (some_char : inner ≠ [])
    (cut : (c :: t).drop k = inner ++ rest) : ∃ s, t = s ++ rest ∧ (c :: s).drop k = inner := by
  cases k with
  | zero =>
    obtain ⟨d, s, rfl⟩ := List.exists_cons_of_ne_nil some_char
    obtain ⟨rfl, rfl⟩ := List.cons.inj cut
    exact ⟨s, rfl, rfl⟩
  | succ k =>
    rw [List.drop_succ_cons] at cut
    have inside : (t.take k).length = k := by
      have counted := congrArg List.length cut
      have := List.length_pos_iff.2 some_char
      rw [List.length_drop, List.length_append] at counted
      rw [List.length_take]
      omega
    refine ⟨t.take k ++ inner, ?_, ?_⟩
    · rw [List.append_assoc, ← cut, List.take_append_drop]
    · rw [List.drop_succ_cons, List.drop_left' inside]

theorem exists_enclosesFrom (k : Nat) (behind : Text) : ∃ value rest, EnclosesFrom k behind value rest := by
  cases search : closeParen? 0 (('(' :: behind).drop k) with
  | none => exact ⟨behind, [], .unclosed (closeParen?_eq_none_iff.1 search)⟩
  | some n =>
    obtain ⟨inner, rest, counted, -, passes, last⟩ := closeParen?_eq_some_iff.1 search
    have some_char : inner ≠ [] := by
      rintro rfl
      cases last
    obtain ⟨value, cut, rfl⟩ := exists_of_drop_cons some_char counted
    exact ⟨value, rest, .closed cut passes (by omega)⟩

end ShaderPass.Text
