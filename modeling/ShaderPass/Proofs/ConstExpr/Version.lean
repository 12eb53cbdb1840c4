import ShaderPass.Proofs.ConstExpr.Spelling
import ShaderPass.Proofs.Macro.Scope

/-! The version in constant expressions. To evaluate an expression with a version is to evaluate what it
becomes when the digits of the version take the place of its identifier. -/
namespace ShaderPass.ConstExpr

open Text Macro

def Lexeme.assign (v : Nat) : Lexeme → Lexeme
  | .ident name => if name = versionIdent then .int v else .ident name
  | l => l

def Tree.assign (v : Nat) : Tree → Tree
  | .literal n => .literal n
  | .version => .literal v
  | .signed s e => .signed s (e.assign v)
  | .binary o l r => .binary o (l.assign v) (r.assign v)

def assignWord (v : Nat) (w : Text) : Text :=
  if w = versionIdent.toList then Nat.toDigits 10 v else w

section Lexing

variable {v : Nat}

def wordLexeme (w : Text) : Except Fault Lexeme :=
  if w.head?.any Char.isDigit then
    match literal? w with
    | some n => .ok (.int n)
    | none => .error (.unexpectedToken (String.ofList w))
  else .ok (.ident (String.ofList w))

theorem lex_word {w t : Text} (isWord : IsWord w) (free : isFree t.head? = true) :
    lex (w ++ t) = wordLexeme w >>= fun first => lex t >>= fun later => .ok (first :: later) := by
  obtain ⟨c, more, rfl⟩ := List.exists_cons_of_ne_nil isWord.1
  have inside : ∀ d ∈ more, isIdentChar d = true := fun d mem => isWord.2 d (List.mem_cons_of_mem _ mem)
  have solid : isBlank c = false := Layout.isBlank_of_isIdentChar (isWord.2 c List.mem_cons_self)
  have whole : (more ++ t).takeWhile isIdentChar = more := takeWhile_append_of_isFree inside free
  have first : lexeme c (more ++ t) = (wordLexeme (c :: more)).map fun l => (l, more.length) := by
    unfold lexeme wordLexeme
    rw [whole]
    by_cases digit : c.isDigit = true
    · cases value : literal? (c :: more) <;> simp [digit, value, Except.map]
    · have start : isIdentStart c = true := by
        have := isWord.2 c List.mem_cons_self
        simpa [isIdentChar, isIdentStart, Char.isAlphanum, digit] using this
      simp [digit, start, Except.map]
  rw [List.cons_append, lex, if_neg (by simp [solid]), first]
  cases wordLexeme (c :: more) with
  | error fault => rfl
  | ok l =>
    simp only [Except.map, bind, Except.bind, List.drop_left]
    rfl

theorem lex_symbol {o : Op} {t : Text} (found : Op.atStart? (o.symbol.toList ++ t) = some o) :
    lex (o.symbol.toList ++ t) = lex t >>= fun later => .ok (.op o :: later) := by
  obtain ⟨c, more, shown, digit, start, solid⟩ := o.exists_symbol
  have size : o.symbol.length - 1 = more.length := by
    rw [← String.length_toList, shown, List.length_cons, Nat.add_sub_cancel]
  rw [shown, List.cons_append] at found ⊢
  have first : lexeme c (more ++ t) = .ok (.op o, more.length) := by
    simp [lexeme, digit, start, found, size]
  rw [lex, if_neg (by simp [solid]), first]
  simp only [bind, Except.bind, List.drop_left]
  rfl

theorem lex_stray {c : Char} {t : Text} (solid : isBlank c = false) (plain : isIdentChar c = false)
    (missing : Op.atStart? (c :: t) = none) : lex (c :: t) = .error (.unexpectedChar c) := by
  have other : c.isDigit = false ∧ isIdentStart c = false := by
    simp only [isIdentChar, Char.isAlphanum, Bool.or_eq_false_iff] at plain
    simp [isIdentStart, plain]
  rw [lex, if_neg (by simp [solid])]
  simp [lexeme, other, missing, bind, Except.bind]

theorem Op.symbol_plain (o : Op) : ∀ c ∈ o.symbol.toList, isIdentChar c = false := by
  have plain : o.symbol.toList.all (fun c => !isIdentChar c) = true := by cases o <;> decide
  intro c member
  simpa using List.all_eq_true.1 plain c member

/-- What is put in the place of words neither hides an operator nor makes one. -/
theorem isPrefixOf_mapWords {f : Text → Text} (isWord : ∀ w, IsWord w → IsWord (f w)) {p : Text}
    (plain : ∀ c ∈ p, isIdentChar c = false) (t : Text) :
    p.isPrefixOf (mapWords f t) = p.isPrefixOf t := by
  induction t using word_induction generalizing p with
  | nil => rw [mapWords_nil]
  | char c t other ih =>
    rw [mapWords_cons other]
    cases p with
    | nil => rfl
    | cons d p =>
      rw [List.isPrefixOf, List.isPrefixOf, ih fun e mem => plain e (List.mem_cons_of_mem _ mem)]
  | word w t word free ih =>
    cases p with
    | nil => rfl
    | cons d p =>
      have differs {u s : Text} (h : IsWord u) : (d :: p).isPrefixOf (u ++ s) = false := by
        obtain ⟨c, more, rfl⟩ := List.exists_cons_of_ne_nil h.1
        have : d ≠ c := by
          rintro rfl
          have := h.2 d List.mem_cons_self
          rw [plain d List.mem_cons_self] at this
          cases this
        simp [List.isPrefixOf, this]
      rw [mapWords_word word free, differs (isWord w word), differs word]

theorem atStart?_mapWords {f : Text → Text} (isWord : ∀ w, IsWord w → IsWord (f w)) (t : Text) :
    Op.atStart? (mapWords f t) = Op.atStart? t := by
  unfold Op.atStart?
  congr 1
  funext o
  exact isPrefixOf_mapWords isWord o.symbol_plain t

theorem isWord_assignWord (v : Nat) (w : Text) (isWord : IsWord w) : IsWord (assignWord v w) := by
  unfold assignWord
  split
  · exact isWord_toDigits v
  · exact isWord

theorem wordLexeme_toDigits (small : v < 2 ^ 32) : wordLexeme (Nat.toDigits 10 v) = .ok (.int v) := by
  have number : literal? (Nat.toDigits 10 v) = some v :=
    literal?_eq_some_iff.2 ⟨numeral_toDigits v, by unfold Fits; omega⟩
  obtain ⟨c, more, shape⟩ := List.exists_cons_of_ne_nil (Nat.toDigits_ne_nil (n := v) (b := 10))
  have digit : c.isDigit = true := isDigit_of_mem_toDigits (shape ▸ List.mem_cons_self)
  rw [wordLexeme, number, shape]
  simp [digit]

theorem wordLexeme_assignWord (small : v < 2 ^ 32) (w : Text) :
    wordLexeme (assignWord v w) = (wordLexeme w).map (Lexeme.assign v) := by
  unfold assignWord
  split
  · rename_i version
    subst version
    rw [wordLexeme_toDigits small]
    rfl
  · rename_i other
    unfold wordLexeme
    split
    · cases literal? w <;> rfl
    · have : String.ofList w ≠ versionIdent := fun same => other (same ▸ (String.toList_ofList).symm)
      simp [Except.map, Lexeme.assign, this]

theorem lex_assign (small : v < 2 ^ 32) (t : Text) :
    lex (mapWords (assignWord v) t) = (lex t).map (List.map (Lexeme.assign v)) := by
  induction t using lex.induct with
  | case1 =>
    rw [mapWords_nil, lex]
    rfl
  | case2 c t blank ih =>
    rw [mapWords_cons (isIdentChar_of_isBlank blank), lex, if_pos blank, lex, if_pos blank, ih]
  | case3 c t solid ih =>
    replace solid : isBlank c = false := by simpa using solid
    by_cases plain : isIdentChar c = true
    case pos =>
      obtain ⟨more, rest, rfl, inside, free⟩ : ∃ more rest, t = more ++ rest ∧
          (∀ d ∈ more, isIdentChar d = true) ∧ isFree rest.head? = true :=
        ⟨_, _, List.takeWhile_append_dropWhile.symm, List.all_eq_true.1 List.all_takeWhile,
          isFree_head?_dropWhile t⟩
      have isWord : IsWord (c :: more) := ⟨List.cons_ne_nil _ _, List.forall_mem_cons.2 ⟨plain, inside⟩⟩
      have later := ih more.length
      rw [List.drop_left] at later
      rw [← List.cons_append, mapWords_word isWord free, lex_word isWord free,
        lex_word (isWord_assignWord v _ isWord) (isFree_mapWords free _), wordLexeme_assignWord small, later]
      cases wordLexeme (c :: more) <;> cases lex rest <;> rfl
    case neg =>
      replace plain : isIdentChar c = false := by simpa using plain
      cases found : Op.atStart? (c :: t) with
      | none =>
        have missing : Op.atStart? (c :: mapWords (assignWord v) t) = none := by
          rw [← mapWords_cons plain, atStart?_mapWords (isWord_assignWord v), found]
        rw [mapWords_cons plain, lex_stray solid plain missing, lex_stray solid plain found]
        rfl
      | some o =>
        obtain ⟨⟨rest, starts⟩, -⟩ := longest_of_atStart? found
        obtain ⟨d, more, shown, -⟩ := o.exists_symbol
        have same := starts
        rw [shown, List.cons_append] at same
        obtain ⟨rfl, rfl⟩ := List.cons.inj same
        have later := ih more.length
        rw [List.drop_left] at later
        rw [← starts] at found ⊢
        have found' : Op.atStart? (o.symbol.toList ++ mapWords (assignWord v) rest) = some o := by
          rw [← mapWords_of_plain o.symbol_plain, atStart?_mapWords (isWord_assignWord v), found]
        rw [mapWords_of_plain o.symbol_plain, lex_symbol found', lex_symbol found, later]
        cases lex rest <;> rfl

end Lexing

section Grammar

variable {v : Nat}

theorem assign_version : Lexeme.assign v (.ident versionIdent) = .int v := by
  rw [Lexeme.assign, if_pos rfl]

theorem assign_eq_op_iff {l : Lexeme} {o : Op} : l.assign v = .op o ↔ l = .op o := by
  cases l with
  | int n => simp [Lexeme.assign]
  | ident name =>
    by_cases version : name = versionIdent <;> simp [Lexeme.assign, version]
  | op o' => simp [Lexeme.assign]

theorem eq_of_assign_eq_int {l : Lexeme} {n : Nat} (same : l.assign v = .int n) :
    l = .int n ∨ l = .ident versionIdent ∧ n = v := by
  cases l with
  | int m => exact .inl same
  | ident name =>
    by_cases version : name = versionIdent
    · subst version
      rw [assign_version] at same
      exact .inr ⟨rfl, (Lexeme.int.inj same).symm⟩
    · simp [Lexeme.assign, version] at same
  | op o => cases same

theorem assign_ne_version (l : Lexeme) : l.assign v ≠ .ident versionIdent := by
  cases l with
  | int n => nofun
  | ident name =>
    by_cases version : name = versionIdent <;> simp [Lexeme.assign, version]
  | op o => nofun

theorem Derives.assign {k : Nat} {ts : List Lexeme} {e : Tree} (derives : Derives k ts e) (v : Nat) :
    Derives k (ts.map (Lexeme.assign v)) (e.assign v) := by
  induction derives with
  | binary level _ _ left right =>
    rw [List.map_append, List.map_cons]
    exact .binary level left right
  | tighter _ ih => exact .tighter ih
  | signed s _ ih => exact .signed s ih
  | literal n => exact .literal n
  | version =>
    rw [List.map_singleton, assign_version]
    exact .literal v
  | group _ ih =>
    rw [List.map_cons, List.map_append]
    exact .group ih

theorem Derives.exists_assign {k : Nat} {us : List Lexeme} {e : Tree} (derives : Derives k us e)
    {ts : List Lexeme} (same : ts.map (Lexeme.assign v) = us) :
    ∃ e', Derives k ts e' ∧ e'.assign v = e := by
  induction derives generalizing ts with
  | binary level _ _ left right =>
    obtain ⟨front, rest, rfl, at_front, at_rest⟩ := List.map_eq_append_iff.1 same
    obtain ⟨l, back, rfl, at_op, at_back⟩ := List.map_eq_cons_iff.1 at_rest
    obtain rfl := assign_eq_op_iff.1 at_op
    obtain ⟨l, derives_left, rfl⟩ := left at_front
    obtain ⟨r, derives_right, rfl⟩ := right at_back
    exact ⟨_, .binary level derives_left derives_right, rfl⟩
  | tighter _ ih =>
    obtain ⟨e, derives, rfl⟩ := ih same
    exact ⟨e, .tighter derives, rfl⟩
  | signed s _ ih =>
    obtain ⟨l, back, rfl, at_op, at_back⟩ := List.map_eq_cons_iff.1 same
    obtain rfl := assign_eq_op_iff.1 at_op
    obtain ⟨e, derives, rfl⟩ := ih at_back
    exact ⟨_, .signed s derives, rfl⟩
  | literal n =>
    obtain ⟨l, rfl, number⟩ := List.map_eq_singleton_iff.1 same
    rcases eq_of_assign_eq_int number with rfl | ⟨rfl, rfl⟩
    · exact ⟨_, .literal n, rfl⟩
    · exact ⟨_, .version, rfl⟩
  | version =>
    obtain ⟨l, rfl, version⟩ := List.map_eq_singleton_iff.1 same
    exact absurd version (assign_ne_version l)
  | group _ ih =>
    obtain ⟨l, back, rfl, at_opening, at_back⟩ := List.map_eq_cons_iff.1 same
    obtain ⟨inner, last, rfl, at_inner, at_last⟩ := List.map_eq_append_iff.1 at_back
    obtain ⟨l', rfl, at_closing⟩ := List.map_eq_singleton_iff.1 at_last
    obtain rfl := assign_eq_op_iff.1 at_opening
    obtain rfl := assign_eq_op_iff.1 at_closing
    obtain ⟨e, derives, rfl⟩ := ih at_inner
    exact ⟨e, .group derives, rfl⟩

theorem evaluates_assign_iff {w : Int64} (number : w.toInt = v) {e : Tree} {n : Int} :
    Evaluates none (e.assign v) n ↔ Evaluates (some w) e n := by
  induction e generalizing n with
  | literal m =>
    constructor <;> rintro ⟨fits⟩ <;> exact .literal fits
  | version =>
    constructor
    · rintro ⟨-⟩
      rw [← number]
      exact .version rfl
    · intro value
      obtain - | ⟨⟨rfl⟩⟩ := value
      have fits : Fits v := number ▸ ⟨Int64.le_toInt w, Int64.toInt_lt w⟩
      rw [number]
      exact .literal fits
  | signed s e ih =>
    constructor
    · intro value
      obtain - | - | ⟨operand, fits⟩ := value
      exact .signed (ih.1 operand) fits
    · intro value
      obtain - | - | ⟨operand, fits⟩ := value
      exact .signed (ih.2 operand) fits
  | binary o l r left right =>
    constructor
    · intro value
      obtain - | - | - | ⟨at_left, at_right, applies, fits⟩ := value
      exact .binary (left.1 at_left) (right.1 at_right) applies fits
    · intro value
      obtain - | - | - | ⟨at_left, at_right, applies, fits⟩ := value
      exact .binary (left.2 at_left) (right.2 at_right) applies fits

end Grammar

section Faults

inductive Fault.IsForeign : Fault → Prop where
  | char (c : Char) : IsForeign (.unexpectedChar c)
  | identifier (name : String) : IsForeign (.unknownIdentifier name)

def VersionOnly (ts : List Lexeme) : Prop :=
  ∀ name, .ident name ∈ ts → name = versionIdent

def Known {α : Type} (rest : α → List Lexeme) (x : Except Fault α) : Prop :=
  match x with
  | .ok a => VersionOnly (rest a)
  | .error fault => ¬ fault.IsForeign

theorem VersionOnly.of_cons {l : Lexeme} {ts : List Lexeme} (h : VersionOnly (l :: ts)) :
    VersionOnly ts :=
  fun name mem => h name (List.mem_cons_of_mem l mem)

theorem known_fault {α : Type} {rest : α → List Lexeme} {fault : Fault} (own : ¬ fault.IsForeign) :
    Known rest (.error fault) :=
  own

theorem Known.bind {α β : Type} {rest : α → List Lexeme} {rest' : β → List Lexeme} {x : Except Fault α}
    {f : α → Except Fault β} (first : Known rest x) (next : ∀ a, VersionOnly (rest a) → Known rest' (f a)) :
    Known rest' (x >>= f) := by
  cases x with
  | error fault => exact first
  | ok a => exact next a first

theorem known_inRange (n : Int) : Known (fun _ => []) (inRange n) := by
  unfold inRange
  split
  · exact fun _ mem => absurd mem List.not_mem_nil
  · exact known_fault (by rintro ⟨⟩)

theorem known_apply (o : Op) (a b : Int) : Known (fun _ => []) (o.apply a b) := by
  have known_quotient (part : Int → Int → Int) : Known (fun _ => []) (quotient part a b) := by
    unfold quotient
    split
    · exact known_fault (by rintro ⟨⟩)
    · split
      · exact fun _ mem => absurd mem List.not_mem_nil
      · exact known_fault (by rintro ⟨⟩)
  cases o with
  | add | sub | mul => exact known_inRange _
  | div | rem => exact known_quotient _
  | _ => exact fun _ mem => absurd mem List.not_mem_nil

theorem known_read (v : Int) :
    (∀ tiers ts, VersionOnly ts → Known Reading.rest (read (some v) tiers ts)) ∧
      ∀ tier tighter a ts, VersionOnly ts → Known Continuation.rest (extend (some v) tier tighter a ts) := by
  refine read.mutual_induct (some v)
    (fun tiers ts => VersionOnly ts → Known Reading.rest (read (some v) tiers ts))
    (fun tier tighter a ts => VersionOnly ts → Known Continuation.rest (extend (some v) tier tighter a ts))
    ?tier ?empty ?not ?minus ?plus ?int ?version ?unknown ?unset ?group ?stray ?apply ?looser ?operand
  case tier =>
    intro tier tighter ts inner later only
    rw [read]
    exact (inner only).bind fun first only => (later first only).bind fun _ only => only
  case empty =>
    intro _
    rw [read]
    exact known_fault (by rintro ⟨⟩)
  case not | plus =>
    intro ts inner only
    rw [read]
    exact (inner only.of_cons).bind fun _ only => only
  case minus =>
    intro ts inner only
    rw [read]
    exact (inner only.of_cons).bind fun _ only => (known_inRange _).bind fun _ _ => only
  case int =>
    intro n ts only
    rw [read]
    exact only.of_cons
  case version =>
    intro ts w given only
    rw [read, if_pos rfl]
    exact only.of_cons
  case unknown =>
    intro name ts w given other only
    exact absurd (only name List.mem_cons_self) other
  case unset =>
    intro name ts unset
    cases unset
  case group =>
    intro ts inner only
    rw [read]
    refine (inner only.of_cons).bind fun r only => ?_
    split
    · rename_i after closed
      rw [closed] at only
      exact only.of_cons
    · exact known_fault (by rintro ⟨⟩)
  case stray =>
    intro o ts not minus plus opening only
    rw [read]
    · exact known_fault (by rintro ⟨⟩)
    · exact not
    · exact minus
    · exact plus
    · exact opening
  case apply =>
    intro tier tighter a o ts mem operand later only
    rw [extend, if_pos mem]
    refine (operand only.of_cons).bind fun r only => (known_apply _ _ _).bind fun _ _ => ?_
    exact (later r _ only).bind fun _ only => only
  case looser =>
    intro tier tighter a o ts outside only
    rw [extend, if_neg outside]
    exact only
  case operand =>
    intro tier tighter a ts other only
    rw [extend]
    · exact only
    · exact other

theorem known_evaluate {expr : Text} (version : isVersionCondition expr = true) (v : Int) :
    Known (fun _ => []) (evaluate expr (some v)) := by
  obtain ⟨ts, lexed, only⟩ : ∃ ts, lex expr = .ok ts ∧ VersionOnly ts := by
    unfold isVersionCondition at version
    cases lexed : lex expr with
    | error fault =>
      rw [lexed] at version
      cases version
    | ok ts =>
      rw [lexed, Bool.and_eq_true, List.all_eq_true] at version
      exact ⟨ts, rfl, fun name mem => by simpa using version.2 _ mem⟩
  rw [evaluate, lexed]
  refine ((known_read v).1 levels ts only).bind fun all _ => ?_
  split
  · exact fun _ mem => absurd mem List.not_mem_nil
  · exact known_fault (by rintro ⟨⟩)

end Faults

/-- To evaluate an expression with a version is to evaluate it with the digits of the version in the place
of its identifier. In a condition on the version no character and no identifier is foreign. -/
theorem evaluate_version (expr : Text) (v : UInt32) :
    (∀ n : Int, evaluate expr (some v.toNat) = .ok n ↔
        evaluate (replaceWord expr versionIdent.toList (Nat.toDigits 10 v.toNat)) none = .ok n) ∧
      (isVersionCondition expr = true → ∀ fault, evaluate expr (some v.toNat) = .error fault →
        ¬ fault.IsForeign) := by
  constructor
  · intro n
    have small : v.toNat < 2 ^ 32 := v.toNat_lt
    have number : (Int64.ofNat v.toNat).toInt = v.toNat := Int64.toInt_ofNat_of_lt (by omega)
    have isWord : IsWord versionIdent.toList := ⟨by decide, List.all_eq_true.1 (by decide)⟩
    have given : some (v.toNat : Int) = (some (Int64.ofNat v.toNat)).map Int64.toInt := by
      rw [Option.map_some, number]
    have lexed := lex_assign small expr
    have plain : evaluate (mapWords (assignWord v.toNat) expr) none = .ok n ↔ _ :=
      @evaluate_eq_ok_iff _ none _
    rw [given, replaceWord_eq_mapWords isWord, evaluate_eq_ok_iff]
    refine Iff.trans ?_ plain.symm
    constructor
    · rintro ⟨ts, e, found, derives, value⟩
      rw [found] at lexed
      exact ⟨_, _, lexed, derives.assign v.toNat, (evaluates_assign_iff number).2 value⟩
    · rintro ⟨us, e, found, derives, value⟩
      have lexed := lexed.symm.trans found
      cases found : lex expr with
      | error fault =>
        rw [found] at lexed
        cases lexed
      | ok ts =>
        rw [found] at lexed
        obtain ⟨e, inner, rfl⟩ := derives.exists_assign (Except.ok.inj lexed)
        exact ⟨ts, e, rfl, inner, (evaluates_assign_iff number).1 value⟩
  · intro version fault failed
    have known := known_evaluate version v.toNat
    rwa [failed] at known

/-- The version in a division by it. -/
theorem evaluate_version_of_division :
    isVersionCondition "300 / (__VERSION__ - 300)".toList = true ∧
      evaluate "300 / (__VERSION__ - 300)".toList (some (300 : UInt32).toNat) = .error .divisionByZero ∧
      ¬ Fault.divisionByZero.IsForeign := by
  have version : isVersionCondition "300 / (__VERSION__ - 300)".toList = true := by decide +kernel
  have failed : evaluate "300 / (__VERSION__ - 300)".toList (some (300 : UInt32).toNat) =
      .error .divisionByZero := by decide +kernel
  exact ⟨version, failed, (evaluate_version _ 300).2 version _ failed⟩

end ShaderPass.ConstExpr
