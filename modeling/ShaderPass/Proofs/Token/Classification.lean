import ShaderPass.Token.Basic

/-! The kinds of tokens: what a token of each kind starts with, and how far it reaches. -/
namespace ShaderPass.Token

open Text

def opensComment (c : Char) (t : Text) : Bool :=
  c = '/' && (t.head? = some '/' || t.head? = some '*')

inductive Starts (lineStart : Bool) (c : Char) (t : Text) : TokenKind → Nat → Prop where
  | blank : isTokenBlank c = true → Starts lineStart c t .blank (t.takeWhile isTokenBlank).length
  | comment (n : Nat) : opensComment c t = true → Starts lineStart c t .comment n
  | directive : c = '#' → lineStart = true → Starts lineStart c t .directive (directiveLength false t)
  | identifier : isIdentStart c = true →
      Starts lineStart c t .identifier (t.takeWhile isIdentChar).length
  | number : isTokenBlank c = false → c.isDigit = true ∨ c = '.' ∧ t.head?.any Char.isDigit = true →
      Starts lineStart c t .number (numberLength false t)
  | punct : isTokenBlank c = false → opensComment c t = false → (c = '#' → lineStart = false) →
      isIdentStart c = false → c.isDigit = false → (c = '.' → t.head?.any Char.isDigit = false) →
      Starts lineStart c t .punct 0

theorem starts_of_classify {lineStart : Bool} {c : Char} {t : Text} {kind : TokenKind} {n : Nat}
    (first : classify lineStart c t = (kind, n)) : Starts lineStart c t kind n := by
  unfold classify at first
  split at first
  · obtain ⟨rfl, rfl⟩ := Prod.mk.inj first
    exact .blank ‹_›
  rename_i solid
  split at first
  · rename_i line
    obtain ⟨rfl, -⟩ := Prod.mk.inj first
    exact .comment n (by simp_all [opensComment])
  rename_i no_line
  split at first
  · rename_i block
    obtain ⟨rfl, -⟩ := Prod.mk.inj first
    exact .comment n (by simp_all [opensComment])
  rename_i no_block
  split at first
  · rename_i hash
    obtain ⟨rfl, rfl⟩ := Prod.mk.inj first
    rw [Bool.and_eq_true, decide_eq_true_eq] at hash
    exact .directive hash.1 hash.2
  rename_i no_hash
  split at first
  · obtain ⟨rfl, rfl⟩ := Prod.mk.inj first
    exact .identifier ‹_›
  rename_i no_name
  split at first
  · rename_i number
    obtain ⟨rfl, rfl⟩ := Prod.mk.inj first
    exact .number (Bool.not_eq_true _ ▸ solid) (by simpa using number)
  · rename_i no_number
    obtain ⟨rfl, rfl⟩ := Prod.mk.inj first
    refine .punct ?_ ?_ ?_ ?_ ?_ ?_
    all_goals simp_all [opensComment]

theorem opensComment_of_ne {c : Char} (other : c ≠ '/') (t : Text) : opensComment c t = false := by
  simp [opensComment, other]

theorem ne_of_opensNumber {c d : Char} {p : Prop} (start : c.isDigit = true ∨ c = '.' ∧ p)
    (no_digit : d.isDigit = false) (no_point : d ≠ '.') : c ≠ d := by
  rintro rfl
  rcases start with digit | ⟨point, -⟩
  · rw [no_digit] at digit
    cases digit
  · exact no_point point

section Kinds

variable {lineStart : Bool} {c : Char} {t : Text} {n : Nat}

theorem blank_of_classify (first : classify lineStart c t = (.blank, n)) :
    isTokenBlank c = true ∧ (t.takeWhile isTokenBlank).length = n := by
  cases starts_of_classify first with
  | blank blank => exact ⟨blank, rfl⟩

theorem comment_of_classify (first : classify lineStart c t = (.comment, n)) :
    c = '/' ∧ (t.head? = some '/' ∧ (t.takeWhile (· ≠ '\n')).length = n ∨
      t.head? = some '*' ∧ blockCommentLength (t.drop 1) + 1 = n) := by
  unfold classify at first
  split at first
  · cases first
  split at first
  · rename_i line
    rw [Bool.and_eq_true, decide_eq_true_eq, decide_eq_true_eq] at line
    exact ⟨line.1, Or.inl ⟨line.2, (Prod.mk.inj first).2⟩⟩
  split at first
  · rename_i block
    rw [Bool.and_eq_true, decide_eq_true_eq, decide_eq_true_eq] at block
    exact ⟨block.1, Or.inr ⟨block.2, (Prod.mk.inj first).2⟩⟩
  split at first
  · cases first
  split at first
  · cases first
  split at first <;> cases first

theorem hash_of_classify (first : classify lineStart c t = (.directive, n)) :
    c = '#' ∧ lineStart = true ∧ directiveLength false t = n := by
  cases starts_of_classify first with
  | directive hash start => exact ⟨hash, start, rfl⟩

theorem name_of_classify (first : classify lineStart c t = (.identifier, n)) :
    isIdentStart c = true ∧ (t.takeWhile isIdentChar).length = n := by
  cases starts_of_classify first with
  | identifier start => exact ⟨start, rfl⟩

theorem classify_ne_blank (solid : isTokenBlank c = false) : classify lineStart c t ≠ (.blank, n) := by
  intro first
  rw [(blank_of_classify first).1] at solid
  cases solid

end Kinds

end ShaderPass.Token
