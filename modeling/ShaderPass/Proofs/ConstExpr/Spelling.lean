import ShaderPass.Proofs.ConstExpr.Reading
import ShaderPass.Proofs.Declaration.LayoutText
import ShaderPass.Proofs.Text.Words

/-! The spelling of constant expressions: blanks between lexemes, each as long as it can be. With the
grammar of their lexemes it says which expressions have a value, and which value that is. -/
namespace ShaderPass.ConstExpr

open Text

def Digits (base : Nat) (s : Text) (n : Nat) : Prop :=
  ∃ ds : List Nat, s ≠ [] ∧ s.map digitValue? = ds.map some ∧ (∀ d ∈ ds, d < base) ∧
    ds.foldl (fun acc d => acc * base + d) 0 = n

def IsUnsignedMark (c : Char) : Prop :=
  c = 'u' ∨ c = 'U'

inductive Numeral : Text → Nat → Prop where
  | decimal {s marks : Text} {n : Nat} (digits : Digits 10 s n)
    (unsigned : ∀ c ∈ marks, IsUnsignedMark c) : Numeral (s ++ marks) n
  | hexadecimal {x : Char} {s marks : Text} {n : Nat} (sign : x = 'x' ∨ x = 'X')
    (digits : Digits 16 s n) (unsigned : ∀ c ∈ marks, IsUnsignedMark c) :
    Numeral ('0' :: x :: (s ++ marks)) n

/-- The spelling of a lexeme, which depends on the text after it: no identifier character follows a
number or an identifier, and no longer operator could have been taken. -/
inductive Spells : Text → Lexeme → Text → Prop where
  | int {c : Char} {more rest : Text} {n : Nat} (digit : c.isDigit = true)
    (inside : ∀ d ∈ more, isIdentChar d = true) (free : isFree rest.head? = true)
    (numeral : Numeral (c :: more) n) : Spells (c :: more) (.int n) rest
  | ident {c : Char} {more rest : Text} (start : isIdentStart c = true)
    (inside : ∀ d ∈ more, isIdentChar d = true) (free : isFree rest.head? = true) :
    Spells (c :: more) (.ident (String.ofList (c :: more))) rest
  | op {o : Op} {rest : Text}
    (longest : ∀ o' : Op, o'.symbol.toList <+: o.symbol.toList ++ rest →
      o'.symbol.length ≤ o.symbol.length) : Spells o.symbol.toList (.op o) rest

inductive Lexes : Text → List Lexeme → Prop where
  | nil : Lexes [] []
  | blank {c : Char} {t : Text} {ts : List Lexeme} (blank : isBlank c = true) (later : Lexes t ts) :
    Lexes (c :: t) ts
  | lexeme {s rest : Text} {l : Lexeme} {ts : List Lexeme} (first : Spells s l rest)
    (later : Lexes rest ts) : Lexes (s ++ rest) (l :: ts)

section Numeral

theorem digitsFrom?_eq_some_iff {base acc n : Nat} {s : Text} : digitsFrom? base acc s = some n ↔
    ∃ ds : List Nat, s.map digitValue? = ds.map some ∧ (∀ d ∈ ds, d < base) ∧
      ds.foldl (fun acc d => acc * base + d) acc = n := by
  induction s generalizing acc with
  | nil =>
    simp only [digitsFrom?, Option.some.injEq, List.map_nil]
    constructor
    · rintro rfl
      exact ⟨[], rfl, fun d mem => absurd mem List.not_mem_nil, rfl⟩
    · rintro ⟨ds, none_left, -, rfl⟩
      rw [List.map_eq_nil_iff.1 none_left.symm, List.foldl_nil]
  | cons c s ih =>
    rw [digitsFrom?]
    constructor
    · intro h
      obtain ⟨d, value, h⟩ := Option.bind_eq_some_iff.1 h
      split at h
      · rename_i small
        obtain ⟨ds, values, smaller, folded⟩ := ih.1 h
        refine ⟨d :: ds, by simp [value, values], fun e mem => ?_, folded⟩
        rcases List.mem_cons.1 mem with rfl | mem
        · exact small
        · exact smaller e mem
      · cases h
    · rintro ⟨ds, values, smaller, folded⟩
      obtain ⟨d, ds, rfl⟩ : ∃ d ds', ds = d :: ds' := by
        cases ds with
        | nil => cases values
        | cons d ds => exact ⟨d, ds, rfl⟩
      obtain ⟨value, values⟩ := List.cons.inj values
      simp only [value, bind, Option.bind_some, if_pos (smaller d List.mem_cons_self)]
      exact ih.2 ⟨ds, values, fun e mem => smaller e (List.mem_cons_of_mem d mem), folded⟩

theorem natOfDigits?_eq_some_iff {base n : Nat} {s : Text} :
    natOfDigits? base s = some n ↔ Digits base s n := by
  cases s with
  | nil => simp [natOfDigits?, Digits]
  | cons c s => simp [natOfDigits?, digitsFrom?_eq_some_iff, Digits]

theorem Digits.exists_digit {base n : Nat} {s : Text} (h : Digits base s n) {c : Char}
    (mem : c ∈ s) : ∃ d, digitValue? c = some d ∧ d < base := by
  obtain ⟨ds, -, values, smaller, -⟩ := h
  have : digitValue? c ∈ ds.map some := values ▸ List.mem_map_of_mem mem
  obtain ⟨d, mem, value⟩ := List.mem_map.1 this
  exact ⟨d, value.symm, smaller d mem⟩

theorem trimEndWhile_marks (front : Text) {base n : Nat} {s marks : Text} (digits : Digits base s n)
    (other : ∀ c ∈ front, ¬IsUnsignedMark c) (unsigned : ∀ c ∈ marks, IsUnsignedMark c) :
    trimEndWhile (fun c => c = 'u' || c = 'U') (front ++ s ++ marks) = front ++ s := by
  have marked : ∀ c : Char, (decide (c = 'u') || decide (c = 'U')) = true ↔ IsUnsignedMark c := by
    simp [IsUnsignedMark]
  rw [trimEndWhile_append_of_pos fun c mem => (marked c).2 (unsigned c mem)]
  refine trimEndWhile_eq_self fun c mem => ?_
  rw [Bool.eq_false_iff, Ne, marked]
  rcases List.mem_append.1 mem with mem | mem
  · exact other c mem
  · obtain ⟨d, value, -⟩ := digits.exists_digit mem
    rintro (rfl | rfl) <;> cases value

theorem literal?_eq_some_iff {run : Text} {n : Nat} :
    literal? run = some n ↔ Numeral run n ∧ Fits n := by
  unfold literal?
  simp only [Option.filter_eq_some_iff, fitsSigned_iff]
  refine and_congr_left fun _ => ?_
  constructor
  · obtain ⟨marks, cut, marked⟩ := exists_trimEndWhile (fun c => c = 'u' || c = 'U') run
    have unsigned : ∀ c ∈ marks, IsUnsignedMark c := fun c mem => by
      simpa [IsUnsignedMark] using marked c mem
    intro h
    split at h
    · rename_i hex digits
      rw [cut, digits]
      exact .hexadecimal (.inl rfl) (natOfDigits?_eq_some_iff.1 h) unsigned
    · rename_i hex digits
      rw [cut, digits]
      exact .hexadecimal (.inr rfl) (natOfDigits?_eq_some_iff.1 h) unsigned
    · rw [cut]
      exact .decimal (natOfDigits?_eq_some_iff.1 h) unsigned
  · rintro (⟨digits, unsigned⟩ | ⟨sign, digits, unsigned⟩)
    · have trimmed := trimEndWhile_marks [] digits nofun unsigned
      rw [List.nil_append] at trimmed
      rw [trimmed]
      split
      · obtain ⟨d, value, -⟩ := digits.exists_digit (c := 'x') (by simp)
        cases value
      · obtain ⟨d, value, -⟩ := digits.exists_digit (c := 'X') (by simp)
        cases value
      · exact natOfDigits?_eq_some_iff.2 digits
    · rename_i x s marks
      have trimmed := trimEndWhile_marks ['0', x] digits
        (by rcases sign with rfl | rfl <;> simp [IsUnsignedMark]) unsigned
      simp only [List.cons_append, List.nil_append] at trimmed
      rw [trimmed]
      rcases sign with rfl | rfl <;> exact natOfDigits?_eq_some_iff.2 digits

theorem numeral_toDigits (n : Nat) : Numeral (Nat.toDigits 10 n) n := by
  have digits : Digits 10 (Nat.toDigits 10 n) n := by
    rw [← natOfDigits?_eq_some_iff, natOfDigits?, if_neg (by simp),
      Layout.digitsFrom?_of_isDigit fun _ member => isDigit_of_mem_toDigits member,
      Nat.ofDigitChars_ten_toDigits]
  rw [← List.append_nil (Nat.toDigits 10 n)]
  exact .decimal digits fun _ mem => absurd mem List.not_mem_nil

end Numeral

section Lexing

theorem Op.mem_all (o : Op) : o ∈ Op.all := by
  cases o <;> decide

theorem Op.symbol_injective {o o' : Op} (same : o.symbol = o'.symbol) : o = o' := by
  revert same
  cases o <;> cases o' <;> decide

theorem Op.pairwise_all : Op.all.Pairwise fun o o' => o'.symbol.length ≤ o.symbol.length := by
  decide

theorem longest_of_atStart? {t : Text} {o : Op} (found : Op.atStart? t = some o) :
    o.symbol.toList <+: t ∧
      ∀ o' : Op, o'.symbol.toList <+: t → o'.symbol.length ≤ o.symbol.length := by
  obtain ⟨starts, before, after, split, none_before⟩ := List.find?_eq_some_iff_append.1 found
  refine ⟨List.isPrefixOf_iff_prefix.1 starts, fun o' starts' => ?_⟩
  have mem := Op.mem_all o'
  have ordered := Op.pairwise_all
  rw [split] at mem ordered
  rcases List.mem_append.1 mem with mem | mem
  · have := none_before o' mem
    rw [List.isPrefixOf_iff_prefix.2 starts'] at this
    cases this
  · rcases List.mem_cons.1 mem with rfl | mem
    · exact Nat.le_refl _
    · exact (List.pairwise_cons.1 (List.pairwise_append.1 ordered).2.1).1 o' mem

theorem atStart?_eq_some_iff {t : Text} {o : Op} : Op.atStart? t = some o ↔
    o.symbol.toList <+: t ∧
      ∀ o' : Op, o'.symbol.toList <+: t → o'.symbol.length ≤ o.symbol.length := by
  refine ⟨longest_of_atStart?, fun ⟨starts, longest⟩ => ?_⟩
  cases found : Op.atStart? t with
  | none =>
    have := List.find?_eq_none.1 found o (Op.mem_all o)
    exact absurd (List.isPrefixOf_iff_prefix.2 starts) this
  | some o' =>
    obtain ⟨starts', longest'⟩ := longest_of_atStart? found
    have size : o.symbol.toList.length = o'.symbol.toList.length := by
      rw [String.length_toList, String.length_toList]
      exact Nat.le_antisymm (longest' o starts) (longest o' starts')
    have same := List.IsPrefix.eq_of_length (List.prefix_of_prefix_length_le starts starts'
      (Nat.le_of_eq size)) size
    rw [Op.symbol_injective (String.toList_inj.1 same)]

theorem Op.exists_symbol (o : Op) : ∃ c more, o.symbol.toList = c :: more ∧ c.isDigit = false ∧
    isIdentStart c = false ∧ isBlank c = false := by
  cases o <;> exact ⟨_, _, rfl, by decide, by decide, by decide⟩

theorem lexeme_eq_ok_iff {c : Char} {t : Text} {l : Lexeme} {n : Nat} :
    lexeme c t = .ok (l, n) ↔ ∃ more rest, t = more ++ rest ∧ more.length = n ∧
      Spells (c :: more) l rest ∧ LiteralsFit [l] := by
  constructor
  · intro h
    have cut := (List.takeWhile_append_dropWhile (p := isIdentChar) (l := t)).symm
    have inside : ∀ d ∈ t.takeWhile isIdentChar, isIdentChar d = true :=
      List.all_eq_true.1 List.all_takeWhile
    have free := isFree_head?_dropWhile t
    simp only [lexeme] at h
    split at h
    · rename_i digit
      split at h
      · rename_i k found
        cases h
        obtain ⟨numeral, fits⟩ := literal?_eq_some_iff.1 found
        exact ⟨_, _, cut, rfl, .int digit inside free numeral, by simpa [LiteralsFit] using fits⟩
      · cases h
    · split at h
      · rename_i start
        cases h
        exact ⟨_, _, cut, rfl, .ident start inside free, by simp [LiteralsFit]⟩
      · split at h
        · rename_i o found
          cases h
          obtain ⟨⟨rest, starts⟩, longest⟩ := atStart?_eq_some_iff.1 found
          rw [← starts] at longest
          have spells := Spells.op longest
          obtain ⟨d, more, shown, -⟩ := o.exists_symbol
          rw [shown] at starts spells
          obtain ⟨rfl, rfl⟩ := List.cons.inj starts
          refine ⟨more, rest, rfl, ?_, spells, by simp [LiteralsFit]⟩
          rw [← String.length_toList, shown, List.length_cons, Nat.add_sub_cancel]
        · cases h
  · rintro ⟨more, rest, rfl, rfl, spells, fit⟩
    generalize word : c :: more = s at spells
    cases spells with
    | int digit inside free numeral =>
      cases word
      have found := literal?_eq_some_iff.2 ⟨numeral, fit _ List.mem_cons_self⟩
      simp [lexeme, digit, takeWhile_append_of_isFree inside free, found]
    | ident start inside free =>
      cases word
      simp [lexeme, Token.isDigit_of_isIdentStart start, start,
        takeWhile_append_of_isFree inside free]
    | @op o rest longest =>
      obtain ⟨d, more', shown, digit, start, -⟩ := o.exists_symbol
      have same := word.trans shown
      obtain ⟨rfl, rfl⟩ := List.cons.inj same
      have found : Op.atStart? (c :: (more ++ rest)) = some o := by
        rw [shown] at longest
        exact atStart?_eq_some_iff.2 ⟨shown ▸ List.prefix_append _ _, longest⟩
      have size : o.symbol.length - 1 = more.length := by
        rw [← String.length_toList, shown, List.length_cons, Nat.add_sub_cancel]
      simp [lexeme, digit, start, found, size]

theorem Spells.exists_cons {s rest : Text} {l : Lexeme} (h : Spells s l rest) :
    ∃ c more, s = c :: more ∧ isBlank c = false := by
  cases h with
  | int digit =>
    exact ⟨_, _, rfl, Layout.isBlank_of_isIdentChar (by simp [isIdentChar, Char.isAlphanum, digit])⟩
  | ident start =>
    exact ⟨_, _, rfl, Layout.isBlank_of_isIdentChar (isIdentChar_of_isIdentStart start)⟩
  | @op o =>
    obtain ⟨c, more, shown, -, -, plain⟩ := o.exists_symbol
    exact ⟨c, more, shown, plain⟩

theorem literalsFit_cons {l : Lexeme} {ts : List Lexeme} :
    LiteralsFit (l :: ts) ↔ LiteralsFit [l] ∧ LiteralsFit ts := by
  simp [LiteralsFit, or_imp, forall_and]

theorem lex_eq_ok_iff {t : Text} {ts : List Lexeme} :
    lex t = .ok ts ↔ Lexes t ts ∧ LiteralsFit ts := by
  constructor
  · intro h
    induction t using lex.induct generalizing ts with
    | case1 =>
      rw [lex] at h
      cases h
      exact ⟨.nil, nofun⟩
    | case2 c t blank ih =>
      rw [lex, if_pos blank] at h
      obtain ⟨lexes, fit⟩ := ih h
      exact ⟨.blank blank lexes, fit⟩
    | case3 c t solid ih =>
      rw [lex, if_neg solid] at h
      obtain ⟨⟨l, n⟩, first, h⟩ := bind_eq_ok_iff.1 h
      obtain ⟨ts', later, h⟩ := bind_eq_ok_iff.1 h
      cases h
      obtain ⟨more, rest, rfl, rfl, spells, fits⟩ := lexeme_eq_ok_iff.1 first
      obtain ⟨lexes, fit⟩ := ih _ later
      rw [List.drop_left] at lexes
      exact ⟨.lexeme spells lexes, literalsFit_cons.2 ⟨fits, fit⟩⟩
  · rintro ⟨lexes, fit⟩
    induction lexes with
    | nil => rw [lex]
    | blank blank _ ih => rw [lex, if_pos blank, ih fit]
    | @lexeme s rest l ts first _ ih =>
      obtain ⟨c, more, rfl, solid⟩ := first.exists_cons
      obtain ⟨fits, fit⟩ := literalsFit_cons.1 fit
      have found : lexeme c (more ++ rest) = .ok (l, more.length) :=
        lexeme_eq_ok_iff.2 ⟨more, rest, rfl, rfl, first, fits⟩
      rw [List.cons_append, lex, if_neg (by simp [solid]), found]
      simp only [bind, Except.bind, List.drop_left, ih fit, pure, Except.pure]

end Lexing

theorem literalsFit_of_evaluates {version : Option Int64} {k : Nat} {ts : List Lexeme} {e : Tree}
    (derives : Derives k ts e) {v : Int} (evaluates : Evaluates version e v) : LiteralsFit ts := by
  induction derives generalizing v with
  | binary level left right ihl ihr =>
    obtain - | - | - | ⟨value, operand⟩ := evaluates
    rintro n mem
    rcases List.mem_append.1 mem with mem | mem
    · exact ihl value n mem
    · exact ihr operand n (by simpa using mem)
  | tighter _ ih => exact ih evaluates
  | signed s _ ih =>
    obtain - | - | ⟨operand⟩ := evaluates
    rintro n mem
    exact ih operand n (by simpa using mem)
  | literal n =>
    obtain ⟨fits⟩ := evaluates
    rintro m mem
    obtain rfl : m = n := by simpa using mem
    exact fits
  | version => simp [LiteralsFit]
  | group _ ih =>
    rintro n mem
    exact ih evaluates n (by simpa using mem)

/-- An expression denotes the value of a tree that the grammar derives for its lexemes. -/
def Denotes (version : Option Int64) (expr : Text) (v : Int) : Prop :=
  ∃ ts tree, Lexes expr ts ∧ Derives 0 ts tree ∧ Evaluates version tree v

/-- An expression is evaluated to a value if and only if its lexemes have a tree with that value. -/
theorem evaluate_eq_ok_iff {expr : Text} {version : Option Int64} {v : Int} :
    evaluate expr (version.map Int64.toInt) = .ok v ↔
      ∃ ts tree, lex expr = .ok ts ∧ Derives 0 ts tree ∧ Evaluates version tree v := by
  constructor
  · intro h
    obtain ⟨ts, lexed, h⟩ := bind_eq_ok_iff.1 h
    obtain ⟨all, found, h⟩ := bind_eq_ok_iff.1 h
    have reads := reads_of_eq_ok found
    split at h
    · rename_i done
      cases h
      rw [done] at reads
      obtain ⟨tree, derives, evaluates⟩ := (reads_all_iff (lex_eq_ok_iff.1 lexed).2).1 reads
      exact ⟨ts, tree, lexed, derives, evaluates⟩
    · cases h
  · rintro ⟨ts, tree, lexed, derives, evaluates⟩
    obtain ⟨shorter, found⟩ := (reads_all_iff (lex_eq_ok_iff.1 lexed).2).2 ⟨tree, derives, evaluates⟩
    exact bind_eq_ok_iff.2 ⟨ts, lexed, bind_eq_ok_iff.2 ⟨_, found, rfl⟩⟩

theorem evaluate_of_evaluates {expr : Text} (version : Option Int64) {ts : List Lexeme} {tree : Tree}
    {v : Int} (lexes : Lexes expr ts) (derives : Derives 0 ts tree) (evaluates : Evaluates version tree v) :
    evaluate expr (version.map Int64.toInt) = .ok v :=
  have fit := literalsFit_of_evaluates derives evaluates
  evaluate_eq_ok_iff.2 ⟨ts, tree, lex_eq_ok_iff.2 ⟨lexes, fit⟩, derives, evaluates⟩

/-- Evaluation gives the value that the expression denotes over the unbounded integers, and an error
where it denotes none. -/
theorem evaluate_exact (expr : Text) (version : Option Int64) :
    (∀ v, evaluate expr (version.map Int64.toInt) = .ok v ↔ Denotes version expr v) ∧
      ((¬∃ v, Denotes version expr v) →
        ∃ fault, evaluate expr (version.map Int64.toInt) = .error fault) := by
  have exact_value (v : Int) :
      evaluate expr (version.map Int64.toInt) = .ok v ↔ Denotes version expr v := by
    constructor
    · intro h
      obtain ⟨ts, tree, lexed, derives, evaluates⟩ := evaluate_eq_ok_iff.1 h
      exact ⟨ts, tree, (lex_eq_ok_iff.1 lexed).1, derives, evaluates⟩
    · rintro ⟨ts, tree, lexes, derives, evaluates⟩
      exact evaluate_of_evaluates version lexes derives evaluates
  refine ⟨exact_value, fun nothing => ?_⟩
  cases value : evaluate expr (version.map Int64.toInt) with
  | ok v => exact absurd ⟨v, (exact_value v).1 value⟩ nothing
  | error fault => exact ⟨fault, rfl⟩

end ShaderPass.ConstExpr
