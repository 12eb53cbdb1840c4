import Mathlib.Data.List.DropRight
import ShaderPass.Proofs.Define.Comments

/-! Comparisons in conditions. A define has the type of a number if it is compared with one, and what counts
as a number is the character that the other operand starts or ends with next to the operator. -/
namespace ShaderPass.Define

open Text

/-- An integer literal: decimal or hexadecimal digits, with or without an unsigned suffix. -/
def isIntegerLiteral (w : Text) : Bool :=
  match ((before? ['u'] w) <|> (before? ['U'] w)).getD w with
  | '0' :: 'x' :: digits => (natOfDigits? 16 digits).isSome
  | '0' :: 'X' :: digits => (natOfDigits? 16 digits).isSome
  | digits => (natOfDigits? 10 digits).isSome

def Compares (t w : Text) : Prop :=
  ∃ gap op gap' rest, t = gap ++ (op ++ (gap' ++ (w ++ rest))) ∧ (∀ c ∈ gap, isBlank c = true) ∧
    op ∈ comparisons ∧ (∀ c ∈ gap', isBlank c = true) ∧ IsWord w ∧ isFree rest.head? = true

def IsComparedBy (t w : Text) : Prop :=
  ∃ front gap op gap', t = front ++ (w ++ (gap ++ (op ++ gap'))) ∧ isFree front.getLast? = true ∧
    IsWord w ∧ (∀ c ∈ gap, isBlank c = true) ∧ op ∈ comparisons ∧ ∀ c ∈ gap', isBlank c = true

/-- A name stands in a condition as a whole word, between two texts. -/
def Between (condition name front behind : Text) : Prop :=
  condition = front ++ (name ++ behind) ∧ isFree front.getLast? = true ∧ isFree behind.head? = true

/-- The word is the right operand of a comparison with the name. -/
def IsRightOperand (condition name w : Text) : Prop :=
  ∃ front behind, Between condition name front behind ∧ Compares behind w

def IsLeftOperand (condition name w : Text) : Prop :=
  ∃ front behind, Between condition name front behind ∧ IsComparedBy front w

/-- The name is compared with an integer literal. -/
def ComparedWithLiteral (condition name : Text) : Prop :=
  ∃ w, isIntegerLiteral w = true ∧ (IsRightOperand condition name w ∨ IsLeftOperand condition name w)

/-- What the name is compared with is spelled so that a single character tells literals from the rest. -/
structure Telling (condition name : Text) : Prop where
  right : ∀ w, IsRightOperand condition name w → w.head?.any Char.isDigit = true → isIntegerLiteral w = true
  left : ∀ w, IsLeftOperand condition name w →
    (w.getLast?.any Char.isDigit = true ↔ isIntegerLiteral w = true)

section Operands

def rightOperand? (behind : Text) : Option Text :=
  (comparisons.findSome? fun op => after? op (trimStart behind)).bind fun rest =>
    let word := (trimStart rest).takeWhile isIdentChar
    if word = [] then none else some word

def leftOperand? (front : Text) : Option Text :=
  (comparisons.findSome? fun op => before? op (trimEnd front)).bind fun rest =>
    let word := (trimEnd rest).rtakeWhile isIdentChar
    if word = [] then none else some word

def rightOperands (condition name : Text) : List Text :=
  (wordOffsets condition name).filterMap fun n => rightOperand? (dropBytes (n + byteLen name) condition)

def leftOperands (condition name : Text) : List Text :=
  (wordOffsets condition name).filterMap fun n => leftOperand? (takeBytes n condition)

theorem comparisons_eq : comparisons =
    [['=', '='], ['!', '='], ['<', '='], ['>', '='], ['<'], ['>']] := by
  decide

theorem ends_of_mem_comparisons {op : Text} (listed : op ∈ comparisons) :
    (∃ c more, op = c :: more ∧ isBlank c = false) ∧ ∃ more c, op = more ++ [c] ∧ isBlank c = false := by
  rw [comparisons_eq] at listed
  simp only [List.mem_cons, List.not_mem_nil, or_false] at listed
  rcases listed with rfl | rfl | rfl | rfl | rfl | rfl
  · exact ⟨⟨'=', ['='], rfl, by decide⟩, ['='], '=', rfl, by decide⟩
  · exact ⟨⟨'!', ['='], rfl, by decide⟩, ['!'], '=', rfl, by decide⟩
  · exact ⟨⟨'<', ['='], rfl, by decide⟩, ['<'], '=', rfl, by decide⟩
  · exact ⟨⟨'>', ['='], rfl, by decide⟩, ['>'], '=', rfl, by decide⟩
  · exact ⟨⟨'<', [], rfl, by decide⟩, [], '<', rfl, by decide⟩
  · exact ⟨⟨'>', [], rfl, by decide⟩, [], '>', rfl, by decide⟩

theorem findSome?_after {op rest : Text} (listed : op ∈ comparisons) (ends : rest.head? ≠ some '=') :
    (comparisons.findSome? fun op' => after? op' (op ++ rest)) = some rest := by
  rw [comparisons_eq] at listed ⊢
  simp only [List.mem_cons, List.not_mem_nil, or_false] at listed
  have longer : ¬ ['='] <+: rest := by
    rintro ⟨more, rfl⟩
    exact ends rfl
  rcases listed with rfl | rfl | rfl | rfl | rfl | rfl <;> simp [after?, longer]

theorem findSome?_before {op : Text} (listed : op ∈ comparisons) (front : Text) :
    (comparisons.findSome? fun op' => before? op' (front ++ op)) = some front := by
  rw [comparisons_eq] at listed ⊢
  simp only [List.mem_cons, List.not_mem_nil, or_false] at listed
  rcases listed with rfl | rfl | rfl | rfl | rfl | rfl <;> simp [before?, List.isSuffixOf]

theorem isBlank_of_isWord {w : Text} (isWord : IsWord w) {c : Char} (member : c ∈ w) :
    isBlank c = false :=
  Layout.isBlank_of_isIdentChar (isWord.2 c member)

theorem rightOperand?_eq_some_iff {t w : Text} : rightOperand? t = some w ↔ Compares t w := by
  constructor
  · intro h
    obtain ⟨r, found, h⟩ := Option.bind_eq_some_iff.1 h
    obtain ⟨op, listed, cut⟩ := List.exists_of_findSome?_eq_some found
    rw [after?_eq_some_iff] at cut
    dsimp only at h
    split at h
    · cases h
    · rename_i some_word
      obtain rfl := Option.some.inj h
      refine ⟨t.takeWhile isBlank, op, r.takeWhile isBlank, (trimStart r).dropWhile isIdentChar, ?_,
        List.all_eq_true.1 List.all_takeWhile, listed, List.all_eq_true.1 List.all_takeWhile,
        ⟨some_word, List.all_eq_true.1 List.all_takeWhile⟩, isFree_head?_dropWhile _⟩
      have behind : r.takeWhile isBlank ++ trimStart r = r := List.takeWhile_append_dropWhile
      have front : t.takeWhile isBlank ++ trimStart t = t := List.takeWhile_append_dropWhile
      rw [List.takeWhile_append_dropWhile, behind, ← cut, front]
  · rintro ⟨gap, op, gap', rest, rfl, blank, listed, blank', isWord, free⟩
    obtain ⟨⟨c, more, shape, solid⟩, -⟩ := ends_of_mem_comparisons listed
    obtain ⟨d, word, rfl⟩ := List.exists_cons_of_ne_nil isWord.1
    have start : trimStart (gap ++ (op ++ (gap' ++ (d :: word ++ rest)))) =
        op ++ (gap' ++ (d :: word ++ rest)) := by
      rw [shape]
      exact trimStart_append_cons blank solid _
    have later : trimStart (gap' ++ (d :: word ++ rest)) = d :: word ++ rest :=
      trimStart_append_cons blank' (isBlank_of_isWord isWord List.mem_cons_self) _
    have ends : (gap' ++ (d :: word ++ rest)).head? ≠ some '=' := by
      have hd := isWord.2 d List.mem_cons_self
      intro same
      cases gap' with
      | nil =>
        obtain rfl : d = '=' := Option.some.inj same
        cases hd
      | cons e gap' =>
        obtain rfl : e = '=' := Option.some.inj same
        cases blank' _ List.mem_cons_self
    rw [rightOperand?, start, findSome?_after listed ends, Option.bind_some, later,
      takeWhile_append_of_isFree isWord.2 free]
    exact if_neg isWord.1

theorem leftOperand?_eq_some_iff {t w : Text} : leftOperand? t = some w ↔ IsComparedBy t w := by
  constructor
  · intro h
    obtain ⟨r, found, h⟩ := Option.bind_eq_some_iff.1 h
    obtain ⟨op, listed, cut⟩ := List.exists_of_findSome?_eq_some found
    rw [before?_eq_some_iff] at cut
    dsimp only at h
    split at h
    · cases h
    · rename_i some_word
      obtain rfl := Option.some.inj h
      obtain ⟨gap', whole, blank'⟩ := exists_trimEndWhile isBlank t
      obtain ⟨gap, whole', blank⟩ := exists_trimEndWhile isBlank r
      refine ⟨(trimEnd r).rdropWhile isIdentChar, gap, op, gap', ?_, ?_,
        ⟨some_word, fun c member => List.mem_rtakeWhile_imp member⟩, blank, listed, blank'⟩
      · rw [← List.append_assoc, List.rdropWhile_append_rtakeWhile, ← List.append_assoc, trimEnd, ← whole',
          ← List.append_assoc, ← cut]
        exact whole
      · rw [List.rdropWhile, List.getLast?_reverse]
        exact isFree_head?_dropWhile _
  · rintro ⟨front, gap, op, gap', rfl, free, isWord, blank, listed, blank'⟩
    obtain ⟨-, more, c, shape, solid⟩ := ends_of_mem_comparisons listed
    have ended {s gap : Text} {c : Char} (solid : isBlank c = false) (blank : ∀ d ∈ gap, isBlank d = true) :
        trimEnd (s ++ [c] ++ gap) = s ++ [c] := by
      rw [trimEnd, trimEndWhile_append_of_pos blank, trimEndWhile_append_cons (by simp [solid])]
      rfl
    have stop : trimEnd (front ++ (w ++ (gap ++ (op ++ gap')))) = front ++ w ++ gap ++ op := by
      rw [shape, ← List.append_assoc, ← List.append_assoc, ← List.append_assoc, ← List.append_assoc]
      rw [ended solid blank', List.append_assoc _ more]
    have earlier : trimEnd (front ++ w ++ gap) = front ++ w := by
      rcases List.eq_nil_or_concat w with rfl | ⟨word, d, rfl⟩
      · exact absurd rfl isWord.1
      · rw [List.concat_eq_append] at isWord ⊢
        rw [← List.append_assoc, ended (isBlank_of_isWord isWord (by simp)) blank]
    have last : (front ++ w).rtakeWhile isIdentChar = w := by
      have free' : isFree front.reverse.head? = true := by rwa [List.head?_reverse]
      have inside : ∀ d ∈ w.reverse, isIdentChar d = true := fun d member => isWord.2 d (by simpa using member)
      rw [List.rtakeWhile, List.reverse_append, takeWhile_append_of_isFree inside free', List.reverse_reverse]
    rw [leftOperand?, stop, findSome?_before listed, Option.bind_some, earlier, last]
    exact if_neg isWord.1

variable {condition name w : Text} (isName : IsWord name)
include isName

theorem mem_wordOffsets_iff {n : Nat} : n ∈ wordOffsets condition name ↔
    ∃ front behind, Between condition name front behind ∧ byteLen front = n := by
  constructor
  · intro member
    obtain ⟨front, behind, cut, place, before, after⟩ := standsAt_of_mem_wordOffsets isName member
    exact ⟨front, behind, ⟨cut, before, after⟩, place⟩
  · rintro ⟨front, behind, ⟨cut, before, after⟩, place⟩
    exact mem_wordOffsets isName ⟨front, behind, cut, place, before, after⟩

omit isName in
theorem Between.dropBytes {front behind : Text} (h : Between condition name front behind) :
    dropBytes (byteLen front + byteLen name) condition = behind := by
  rw [h.1, ← byteLen_append, ← List.append_assoc, dropBytes_byteLen_append]

omit isName in
theorem Between.takeBytes {front behind : Text} (h : Between condition name front behind) :
    takeBytes (byteLen front) condition = front := by
  rw [h.1, takeBytes_byteLen_append]

theorem mem_rightOperands_iff : w ∈ rightOperands condition name ↔ IsRightOperand condition name w := by
  rw [rightOperands, List.mem_filterMap]
  constructor
  · rintro ⟨n, member, found⟩
    obtain ⟨front, behind, between, rfl⟩ := (mem_wordOffsets_iff isName).1 member
    rw [between.dropBytes, rightOperand?_eq_some_iff] at found
    exact ⟨front, behind, between, found⟩
  · rintro ⟨front, behind, between, compares⟩
    refine ⟨_, (mem_wordOffsets_iff isName).2 ⟨front, behind, between, rfl⟩, ?_⟩
    rw [between.dropBytes, rightOperand?_eq_some_iff]
    exact compares

theorem mem_leftOperands_iff : w ∈ leftOperands condition name ↔ IsLeftOperand condition name w := by
  rw [leftOperands, List.mem_filterMap]
  constructor
  · rintro ⟨n, member, found⟩
    obtain ⟨front, behind, between, rfl⟩ := (mem_wordOffsets_iff isName).1 member
    rw [between.takeBytes, leftOperand?_eq_some_iff] at found
    exact ⟨front, behind, between, found⟩
  · rintro ⟨front, behind, between, compares⟩
    refine ⟨_, (mem_wordOffsets_iff isName).2 ⟨front, behind, between, rfl⟩, ?_⟩
    rw [between.takeBytes, leftOperand?_eq_some_iff]
    exact compares

end Operands

section Digits

theorem any_head?_takeWhile (t : Text) :
    (t.takeWhile isIdentChar).head?.any Char.isDigit = t.head?.any Char.isDigit := by
  cases t with
  | nil => rfl
  | cons c t =>
    by_cases inside : isIdentChar c = true
    · rw [List.takeWhile_cons_of_pos inside]
      rfl
    · have other : c.isDigit = false := by
        simp only [isIdentChar, Char.isAlphanum, Bool.not_eq_true, Bool.or_eq_false_iff] at inside
        exact inside.1.2
      rw [List.takeWhile_cons_of_neg inside]
      simp [other]

theorem any_getLast?_rtakeWhile (t : Text) :
    (t.rtakeWhile isIdentChar).getLast?.any Char.isDigit = t.getLast?.any Char.isDigit := by
  rw [List.rtakeWhile, List.getLast?_reverse, any_head?_takeWhile, List.head?_reverse]

theorem any_rightOperand? (t : Text) :
    (rightOperand? t).any (fun w => w.head?.any Char.isDigit) =
      (comparisons.findSome? fun op => after? op (trimStart t)).any fun rest =>
        (trimStart rest).head?.any Char.isDigit := by
  unfold rightOperand?
  cases comparisons.findSome? fun op => after? op (trimStart t) with
  | none => rfl
  | some rest =>
    rw [Option.bind_some, Option.any_some, ← any_head?_takeWhile]
    dsimp only
    split
    · rename_i nothing
      rw [nothing]
      rfl
    · rfl

theorem any_leftOperand? (t : Text) :
    (leftOperand? t).any (fun w => w.getLast?.any Char.isDigit) =
      (comparisons.findSome? fun op => before? op (trimEnd t)).any fun rest =>
        (trimEnd rest).getLast?.any Char.isDigit := by
  unfold leftOperand?
  cases comparisons.findSome? fun op => before? op (trimEnd t) with
  | none => rfl
  | some rest =>
    rw [Option.bind_some, Option.any_some, ← any_getLast?_rtakeWhile]
    dsimp only
    split
    · rename_i nothing
      rw [nothing]
      rfl
    · rfl

theorem isComparedToNumber_iff_mem {condition name : Text} : isComparedToNumber condition name = true ↔
    (∃ w ∈ rightOperands condition name, w.head?.any Char.isDigit = true) ∨
      ∃ w ∈ leftOperands condition name, w.getLast?.any Char.isDigit = true := by
  simp only [isComparedToNumber, ← any_rightOperand?, ← any_leftOperand?, rightOperands, leftOperands,
    List.any_eq_true, Bool.or_eq_true, Option.any_eq_true, List.mem_filterMap]
  grind

theorem isDigit_of_natOfDigits? {t : Text} (number : (natOfDigits? 10 t).isSome = true) :
    t.head?.any Char.isDigit = true := by
  cases t with
  | nil => cases number
  | cons c t =>
    obtain ⟨n, number⟩ := Option.isSome_iff_exists.1 number
    obtain ⟨d, value, number⟩ := Option.bind_eq_some_iff.1 number
    split at number
    · rename_i small
      unfold digitValue? at value
      split at value
      · rename_i digit
        exact digit
      · split at value
        · have := Option.some.inj value
          omega
        · split at value
          · have := Option.some.inj value
            omega
          · cases value
    · cases number

theorem isDigit_of_isIntegerLiteral {w : Text} (literal : isIntegerLiteral w = true) :
    w.head?.any Char.isDigit = true := by
  obtain ⟨digits, suffix, whole, read⟩ : ∃ digits suffix, w = digits ++ suffix ∧
      ((before? ['u'] w) <|> (before? ['U'] w)).getD w = digits := by
    cases lower : before? ['u'] w with
    | some digits => exact ⟨digits, _, before?_eq_some_iff.1 lower, rfl⟩
    | none =>
      cases upper : before? ['U'] w with
      | some digits => exact ⟨digits, _, before?_eq_some_iff.1 upper, rfl⟩
      | none => exact ⟨w, [], (List.append_nil w).symm, rfl⟩
  have first : digits.head?.any Char.isDigit = true := by
    unfold isIntegerLiteral at literal
    rw [read] at literal
    split at literal
    · rfl
    · rfl
    · exact isDigit_of_natOfDigits? literal
  rw [whole]
  cases digits with
  | nil => cases first
  | cons c digits => exact first

end Digits

theorem isWord_of_mem_identifiers {condition : Text} {name : String}
    (named : name ∈ Condition.identifiers condition) : IsWord name.toList := by
  rw [Condition.identifiers, List.mem_eraseDups] at named
  obtain ⟨word, listed, rfl⟩ := List.mem_map.1 named
  rw [String.toList_ofList]
  exact isWord_of_mem_words (List.mem_filter.1 listed).1

theorem telling_iff {condition name : Text} (isName : IsWord name) : Telling condition name ↔
    (∀ w ∈ rightOperands condition name, w.head?.any Char.isDigit = true → isIntegerLiteral w = true) ∧
      ∀ w ∈ leftOperands condition name,
        (w.getLast?.any Char.isDigit = true ↔ isIntegerLiteral w = true) := by
  simp only [mem_rightOperands_iff isName, mem_leftOperands_iff isName]
  exact ⟨fun h => ⟨h.right, h.left⟩, fun h => ⟨h.1, h.2⟩⟩

/-- A define counts as compared with a number if the right operand of a comparison with it starts with a
digit or the left one ends with a digit. Where that tells integer literals from other operands, it is
compared with an integer literal. -/
theorem isComparedToNumber_iff {condition : Text} {name : String}
    (named : name ∈ Condition.identifiers condition) :
    (isComparedToNumber condition name.toList = true ↔
        (∃ w, IsRightOperand condition name.toList w ∧ w.head?.any Char.isDigit = true) ∨
          ∃ w, IsLeftOperand condition name.toList w ∧ w.getLast?.any Char.isDigit = true) ∧
      (Telling condition name.toList →
        (isComparedToNumber condition name.toList = true ↔ ComparedWithLiteral condition name.toList)) := by
  have isName := isWord_of_mem_identifiers named
  have compared : isComparedToNumber condition name.toList = true ↔
      (∃ w, IsRightOperand condition name.toList w ∧ w.head?.any Char.isDigit = true) ∨
        ∃ w, IsLeftOperand condition name.toList w ∧ w.getLast?.any Char.isDigit = true := by
    rw [isComparedToNumber_iff_mem]
    simp only [mem_rightOperands_iff isName, mem_leftOperands_iff isName]
  refine ⟨compared, fun telling => compared.trans ⟨?_, ?_⟩⟩
  · rintro (⟨w, operand, digit⟩ | ⟨w, operand, digit⟩)
    · exact ⟨w, telling.right w operand digit, .inl operand⟩
    · exact ⟨w, (telling.left w operand).1 digit, .inr operand⟩
  · rintro ⟨w, literal, operand | operand⟩
    · exact .inl ⟨w, operand, isDigit_of_isIntegerLiteral literal⟩
    · exact .inr ⟨w, operand, (telling.left w operand).2 literal⟩

theorem isComparedToNumber_iff_of_quality : "QUALITY" ∈ Condition.identifiers "2 <= QUALITY".toList ∧
    Telling "2 <= QUALITY".toList "QUALITY".toList ∧
    ComparedWithLiteral "2 <= QUALITY".toList "QUALITY".toList := by
  have named : "QUALITY" ∈ Condition.identifiers "2 <= QUALITY".toList := by decide +kernel
  have telling : Telling "2 <= QUALITY".toList "QUALITY".toList :=
    (telling_iff (isWord_of_mem_identifiers named)).2 (by decide +kernel)
  exact ⟨named, telling, ((isComparedToNumber_iff named).2 telling).1 (by decide +kernel)⟩

/-- A hexadecimal number on the left that ends with a letter is overlooked. -/
theorem not_isComparedToNumber_iff : ¬ ∀ (condition : Text) (name : String),
    name ∈ Condition.identifiers condition →
      (isComparedToNumber condition name.toList = true ↔ ComparedWithLiteral condition name.toList) := by
  intro h
  have named : "A" ∈ Condition.identifiers "0x1F < A".toList := by decide +kernel
  have operand : IsLeftOperand "0x1F < A".toList "A".toList "0x1F".toList :=
    (mem_leftOperands_iff (isWord_of_mem_identifiers named)).1 (by decide +kernel)
  have compared := (h _ _ named).2 ⟨_, by decide +kernel, .inr operand⟩
  have overlooked : isComparedToNumber "0x1F < A".toList "A".toList = false := by decide +kernel
  rw [overlooked] at compared
  cases compared

end ShaderPass.Define
