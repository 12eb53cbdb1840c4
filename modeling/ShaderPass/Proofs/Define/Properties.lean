import ShaderPass.Define
import ShaderPass.Proofs.Macro.Tidy
import ShaderPass.Proofs.Text.Parens

/-! The properties that a define is declared with: which keys a text has, and where the value of a key
ends. With single-byte blanks in front of a parenthesis it ends at the close of the parenthesis. -/
namespace ShaderPass

namespace Text

def surplus (t : Text) : Nat :=
  byteLen t - t.length

theorem length_le_byteLen (t : Text) : t.length ≤ byteLen t := by
  induction t with
  | nil => exact Nat.le_refl 0
  | cons c t ih =>
    have := c.utf8Size_pos
    rw [List.length_cons, byteLen_cons]
    omega

theorem surplus_eq_zero_iff {t : Text} : surplus t = 0 ↔ ∀ c ∈ t, c.utf8Size = 1 := by
  unfold surplus
  induction t with
  | nil => simp
  | cons c t ih =>
    have := c.utf8Size_pos
    have := length_le_byteLen t
    rw [List.forall_mem_cons, ← ih, List.length_cons, byteLen_cons]
    omega

theorem exists_blanks {t : Text} (opens : (trimStart t).head? = some '(') :
    ∃ blanks behind, t = blanks ++ '(' :: behind ∧ ∀ c ∈ blanks, isBlank c = true := by
  obtain ⟨behind, rest⟩ := List.head?_eq_some_iff.1 opens
  refine ⟨t.takeWhile isBlank, behind, ?_, List.all_eq_true.1 List.all_takeWhile⟩
  rw [← rest]
  exact List.takeWhile_append_dropWhile.symm

theorem head?_trimStart_of_append {s t : Text} (bare : (trimStart (s ++ t)).head? ≠ some '(') :
    (trimStart s).head? ≠ some '(' := by
  rcases blank_or_exists s with blank | ⟨b, c, u, rfl, blank, solid⟩
  · rw [trimStart_eq_nil blank]
    nofun
  · rw [List.append_assoc, List.cons_append, trimStart_append_cons blank solid] at bare
    rwa [trimStart_append_cons blank solid]

end Text

namespace Define

open Text

def IsKey (key : Text) : Prop :=
  IsWord key ∧ key.head?.any isIdentStart = true

/-- A text as keys with their values. A key with a parenthesis behind it, blanks in between aside, has a
value; for each byte that the blanks take beyond one for each blank, the count of the parentheses leaves
out a character, from the parenthesis on. -/
inductive Reading : Text → List (String × Option Text) → Prop
  | done {gap} (no_key : ∀ c ∈ gap, isIdentStart c = false) : Reading gap []
  | flag {gap key t ps} (no_key : ∀ c ∈ gap, isIdentStart c = false) (isKey : IsKey key)
    (free : isFree t.head? = true) (bare : (trimStart t).head? ≠ some '(') (later : Reading t ps) :
    Reading (gap ++ (key ++ t)) ((String.ofList key, none) :: ps)
  | value {gap key blanks behind value rest ps} (no_key : ∀ c ∈ gap, isIdentStart c = false)
    (isKey : IsKey key) (blank : ∀ c ∈ blanks, isBlank c = true)
    (encloses : EnclosesFrom (surplus blanks) behind value rest) (later : Reading rest ps) :
    Reading (gap ++ (key ++ (blanks ++ '(' :: behind))) ((String.ofList key, some value) :: ps)

theorem properties_gap {gap : Text} (no_key : ∀ c ∈ gap, isIdentStart c = false) (t : Text) :
    properties (gap ++ t) = properties t := by
  induction gap with
  | nil => rfl
  | cons c gap ih =>
    rw [List.cons_append, properties, if_neg (by simp [no_key c List.mem_cons_self])]
    exact ih fun d hd => no_key d (List.mem_cons_of_mem _ hd)

section Key

variable {key : Text} (isKey : IsKey key)
include isKey

theorem properties_key {t : Text} (free : isFree t.head? = true) :
    properties (key ++ t) =
      if (trimStart t).head? = some '(' then
        (closeParen? 0 (t.drop (byteLen (t.takeWhile isBlank)))).elim
          [(String.ofList key, some (t.drop ((t.takeWhile isBlank).length + 1)))] fun inner =>
          (String.ofList key, some ((t.take (byteLen (t.takeWhile isBlank) + inner)).drop
              ((t.takeWhile isBlank).length + 1))) ::
            properties (t.drop (byteLen (t.takeWhile isBlank) + inner + 1))
      else (String.ofList key, none) :: properties t := by
  obtain ⟨⟨some_char, inside⟩, start⟩ := isKey
  obtain ⟨c, key, rfl⟩ := List.exists_cons_of_ne_nil some_char
  have start : isIdentStart c = true := start
  have ends : (key ++ t).takeWhile isIdentChar = key :=
    takeWhile_append_of_isFree (fun d hd => inside d (List.mem_cons_of_mem c hd)) free
  have rest : (key ++ t).dropWhile isIdentChar = t := by
    rw [← drop_length_takeWhile, ends, List.drop_left]
  rw [List.cons_append, properties, if_pos start]
  simp only [ends, rest]
  cases closeParen? 0 (t.drop (byteLen (t.takeWhile isBlank))) <;> rfl

theorem properties_flag {t : Text} (free : isFree t.head? = true) (bare : (trimStart t).head? ≠ some '(') :
    properties (key ++ t) = (String.ofList key, none) :: properties t := by
  rw [properties_key isKey free, if_neg bare]

theorem properties_value {blanks behind value rest : Text} (blank : ∀ c ∈ blanks, isBlank c = true)
    (encloses : EnclosesFrom (surplus blanks) behind value rest) :
    properties (key ++ (blanks ++ '(' :: behind)) = (String.ofList key, some value) :: properties rest := by
  have opens : (trimStart (blanks ++ '(' :: behind)).head? = some '(' := by
    rw [trimStart_append_cons blank rfl]
    rfl
  have front : (blanks ++ '(' :: behind).takeWhile isBlank = blanks := by
    rw [List.takeWhile_append_of_pos blank, List.takeWhile_cons_of_neg (by decide), List.append_nil]
  have bytes : byteLen blanks = blanks.length + surplus blanks := by
    have := length_le_byteLen blanks
    rw [surplus]
    omega
  have counted : (blanks ++ '(' :: behind).drop (byteLen blanks) = ('(' :: behind).drop (surplus blanks) := by
    rw [bytes, List.drop_length_add_append]
  have inside (s : Text) : (blanks ++ '(' :: s).drop (blanks.length + 1) = s := by
    rw [List.drop_length_add_append]
    rfl
  rw [properties_key isKey (Macro.isFree_list blank behind), if_pos opens, front, counted]
  cases encloses with
  | closed cut passes last =>
    obtain ⟨le, search⟩ := closeParen?_drop_opening passes last rest
    have whole : blanks ++ '(' :: behind = (blanks ++ '(' :: value) ++ ')' :: rest := by
      rw [cut, List.append_assoc, List.cons_append]
    have stop : byteLen blanks + (value.length + 1 - surplus blanks) = (blanks ++ '(' :: value).length := by
      rw [bytes, List.length_append, List.length_cons]
      omega
    rw [cut, search, ← cut, Option.elim_some]
    simp only [stop, whole, List.take_left, inside, List.drop_length_add_append]
    rfl
  | unclosed passes => rw [closeParen?_eq_none_iff.2 passes, Option.elim_none, inside, properties]

end Key

theorem exists_key (t : Text) : (∀ c ∈ t, isIdentStart c = false) ∨
    ∃ gap key rest, t = gap ++ (key ++ rest) ∧ (∀ c ∈ gap, isIdentStart c = false) ∧ IsKey key ∧
      isFree rest.head? = true := by
  have cut : t.takeWhile (fun c => !isIdentStart c) ++ t.dropWhile (fun c => !isIdentStart c) = t :=
    List.takeWhile_append_dropWhile
  have no_key : ∀ c ∈ t.takeWhile (fun c => !isIdentStart c), isIdentStart c = false := fun c hc => by
    simpa using List.all_eq_true.1 List.all_takeWhile c hc
  have stop := List.head?_dropWhile_not (fun c => !isIdentStart c) t
  cases found : t.dropWhile (fun c => !isIdentStart c) with
  | nil =>
    rw [found, List.append_nil] at cut
    exact .inl (cut ▸ no_key)
  | cons c s =>
    have start : isIdentStart c = true := by simpa [found] using stop
    refine .inr ⟨_, c :: s.takeWhile isIdentChar, s.dropWhile isIdentChar, ?_, no_key,
      ⟨⟨List.cons_ne_nil _ _, ?_⟩, start⟩, isFree_head?_dropWhile s⟩
    · rw [List.cons_append, List.takeWhile_append_dropWhile, ← found, cut]
    · rw [List.forall_mem_cons]
      exact ⟨isIdentChar_of_isIdentStart start, List.all_eq_true.1 List.all_takeWhile⟩

theorem reading_properties (t : Text) : Reading t (properties t) := by
  -- By the length of the text, since reading goes on behind the value.
  induction len : t.length using Nat.strongRecOn generalizing t with
  | ind n ih =>
    rcases exists_key t with no_key | ⟨gap, key, rest, rfl, no_key, isKey, free⟩
    · have nothing : properties t = [] := by
        rw [← List.append_nil t, properties_gap no_key, properties]
      rw [nothing]
      exact .done no_key
    · have some_char := List.length_pos_iff.2 isKey.1.1
      rw [properties_gap no_key]
      by_cases opens : (trimStart rest).head? = some '('
      · obtain ⟨blanks, behind, rfl, blank⟩ := exists_blanks opens
        obtain ⟨value, rest, encloses⟩ := exists_enclosesFrom (surplus blanks) behind
        have le := encloses.length_le
        rw [properties_value isKey blank encloses]
        refine .value no_key isKey blank encloses (ih _ ?_ _ rfl)
        simp only [← len, List.length_append, List.length_cons]
        omega
      · rw [properties_flag isKey free opens]
        refine .flag no_key isKey free opens (ih _ ?_ _ rfl)
        simp only [← len, List.length_append]
        omega

theorem properties_eq_iff {t : Text} {ps : List (String × Option Text)} :
    properties t = ps ↔ Reading t ps := by
  constructor
  · rintro rfl
    exact reading_properties t
  · intro h
    induction h with
    | @done gap no_key => rw [← List.append_nil gap, properties_gap no_key, properties]
    | flag no_key isKey free bare _ ih =>
      rw [properties_gap no_key, properties_flag isKey free bare, ih]
    | value no_key isKey blank encloses _ ih =>
      rw [properties_gap no_key, properties_value isKey blank encloses, ih]

theorem Reading.exists_value {t : Text} {earlier later : List (String × Option Text)} {key : String}
    {value : Text} (h : Reading t (earlier ++ (key, some value) :: later)) :
    ∃ front blanks behind rest, t = front ++ (key.toList ++ (blanks ++ '(' :: behind)) ∧
      IsKey key.toList ∧ (∀ c ∈ blanks, isBlank c = true) ∧
      EnclosesFrom (surplus blanks) behind value rest ∧ Reading front earlier ∧ Reading rest later := by
  generalize listed : earlier ++ (key, some value) :: later = ps at h
  induction h generalizing earlier with
  | done => simp at listed
  | @flag gap word t ps no_key isKey free bare _ ih =>
    cases earlier with
    | nil => simp at listed
    | cons p earlier =>
      obtain ⟨rfl, listed'⟩ := List.cons.inj listed
      obtain ⟨front, blanks, behind, rest, rfl, named, blank, encloses, reads, later⟩ := ih listed'
      refine ⟨gap ++ (word ++ front), blanks, behind, rest, by simp, named, blank, encloses, ?_, later⟩
      refine .flag no_key isKey ?_ (head?_trimStart_of_append bare) reads
      cases front with
      | nil => rfl
      | cons c front => exact free
  | @value gap word spaces behind inner rest ps no_key isKey blank encloses reads ih =>
    cases earlier with
    | nil =>
      obtain ⟨same, rfl⟩ := List.cons.inj listed
      obtain ⟨rfl, same'⟩ := Prod.mk.inj same
      obtain rfl := Option.some.inj same'
      rw [String.toList_ofList]
      exact ⟨gap, spaces, behind, rest, rfl, isKey, blank, encloses, .done no_key, reads⟩
    | cons p earlier =>
      obtain ⟨rfl, listed'⟩ := List.cons.inj listed
      obtain ⟨front, blanks, behind', rest', cut', named, blank', encloses', reads', later⟩ := ih listed'
      cases encloses with
      | closed cut passes last =>
        refine ⟨gap ++ (word ++ (spaces ++ '(' :: (inner ++ ')' :: front))), blanks, behind', rest', ?_, named,
          blank', encloses', .value no_key isKey blank (.closed rfl passes last) reads', later⟩
        rw [cut, cut']
        simp
      | unclosed =>
        -- Without a close the value takes the rest of the text, and no key is left.
        simp at cut'

/-- Every text is read as its properties and as nothing else. The value of a key is what the parenthesis
behind the key and some blanks encloses, and reading goes on behind it, if and only if all these blanks
take one byte, or the parenthesis has no close and the value is the rest of the text. -/
theorem value_encloses_iff (t : Text) :
    (∀ ps, properties t = ps ↔ Reading t ps) ∧
    ∀ earlier key value later, properties t = earlier ++ (key, some value) :: later →
      ∃ front blanks behind rest, t = front ++ (key.toList ++ (blanks ++ '(' :: behind)) ∧
        IsKey key.toList ∧ (∀ c ∈ blanks, isBlank c = true) ∧
        earlier = properties front ∧ later = properties rest ∧
        EnclosesFrom (surplus blanks) behind value rest ∧
        (Encloses behind value rest ↔
          (∀ c ∈ blanks, c.utf8Size = 1) ∨ Proper behind ∧ value = behind) := by
  refine ⟨fun ps => properties_eq_iff, fun earlier key value later listed => ?_⟩
  obtain ⟨front, blanks, behind, rest, cut, isKey, blank, encloses, reads, reads'⟩ :=
    Reading.exists_value (properties_eq_iff.1 listed)
  refine ⟨front, blanks, behind, rest, cut, isKey, blank, (properties_eq_iff.2 reads).symm,
    (properties_eq_iff.2 reads').symm, encloses, ?_⟩
  rw [← surplus_eq_zero_iff]
  by_cases narrow : surplus blanks = 0
  · rw [narrow, enclosesFrom_zero_iff] at encloses
    exact iff_of_true encloses (.inl narrow)
  · rw [encloses.encloses_iff (Nat.pos_of_ne_zero narrow)]
    exact (or_iff_right narrow).symm

theorem value_encloses_iff_of_range :
    properties " constant range \t([1, (2)]) editor\u00a0(3".toList =
      [("constant", none)] ++ ("range", some "[1, (2)]".toList) :: [("editor", some "3".toList)] ∧
    ∃ front blanks behind rest,
      " constant range \t([1, (2)]) editor\u00a0(3".toList =
        front ++ ("range".toList ++ (blanks ++ '(' :: behind)) ∧
      IsKey "range".toList ∧ (∀ c ∈ blanks, isBlank c = true) ∧
      [("constant", none)] = properties front ∧ [("editor", some "3".toList)] = properties rest ∧
      EnclosesFrom (surplus blanks) behind "[1, (2)]".toList rest ∧
      (Encloses behind "[1, (2)]".toList rest ↔
        (∀ c ∈ blanks, c.utf8Size = 1) ∨ Proper behind ∧ "[1, (2)]".toList = behind) := by
  have listed : properties " constant range \t([1, (2)]) editor\u00a0(3".toList =
      [("constant", none)] ++ ("range", some "[1, (2)]".toList) :: [("editor", some "3".toList)] := by
    decide +kernel
  exact ⟨listed, (value_encloses_iff _).2 _ _ _ _ listed⟩

/-- Behind a blank of two bytes the count starts after the parenthesis, and its close is not found. -/
theorem not_value_encloses : ¬ ∀ (t : Text) earlier key value later,
    properties t = earlier ++ (key, some value) :: later →
      ∃ front blanks behind rest, t = front ++ (key.toList ++ (blanks ++ '(' :: behind)) ∧
        (∀ c ∈ blanks, isBlank c = true) ∧ Encloses behind value rest ∧ later = properties rest := by
  intro h
  have listed : properties "default\u00a0(1)".toList = [] ++ ("default", some "1)".toList) :: [] := by
    decide +kernel
  obtain ⟨_, _, behind, rest, -, -, encloses, -⟩ := h _ _ _ _ _ listed
  cases encloses with
  | closed _ _ even => exact absurd even (by decide)
  | unclosed proper => exact absurd (proper _ (List.prefix_refl _)) (by decide)

end Define

end ShaderPass
