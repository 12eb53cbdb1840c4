import Mathlib.Data.List.Forall2
import ShaderPass.Proofs.Macro.Pass
import ShaderPass.Proofs.Text.Lines
import ShaderPass.Proofs.Text.Runs

/-! Texts as blocks: declarations of macros, and the code between them. A pass works in every block on its
own, and leaves a declaration the declaration that it was. -/
namespace ShaderPass.Macro

open ShaderPass.Text ShaderPass.Bracket

section Line

structure Delimits (c : Char) : Prop where
  solid : isBlank c = false
  ident : isIdentChar c = false
  pragma : Directive.isPragmaChar c = false
  hash : c ≠ '#'

theorem delimits_opening : Delimits '(' :=
  ⟨by decide, by decide, by decide, by decide⟩

theorem delimits_closing : Delimits ')' :=
  ⟨by decide, by decide, by decide, by decide⟩

section Delimits

variable {c : Char} (stop : Delimits c) (s : Text)
include stop

theorem parse?_append : ∃ o : Option (String × Text), ∀ b,
    Directive.parse? (s ++ c :: b) = o.map fun (name, rest) => (name, rest ++ c :: trimEnd b) := by
  have start (s t : Text) : trimStart (s ++ c :: t) = trimStart s ++ c :: t :=
    dropWhile_append_cons stop.solid s t
  cases visible : trimStart s with
  | nil =>
    refine ⟨none, fun b => ?_⟩
    rw [Directive.parse?, start, visible, List.nil_append]
    split
    · rename_i same
      exact absurd (List.cons.inj same).1 stop.hash
    · rfl
  | cons d rest =>
    by_cases hash : d = '#'
    · subst hash
      refine ⟨some (String.ofList ((trimStart rest).takeWhile isIdentChar),
        trimStart ((trimStart rest).dropWhile isIdentChar)), fun b => ?_⟩
      rw [Directive.parse?, start, visible, List.cons_append]
      simp only [spanIdent, start, takeWhile_append_cons stop.ident, dropWhile_append_cons stop.ident,
        trim_append_cons stop.solid, Option.map_some]
    · refine ⟨none, fun b => ?_⟩
      rw [Directive.parse?, start, visible, List.cons_append]
      split
      · rename_i same
        exact absurd (List.cons.inj same).1 hash
      · rfl

theorem directive_pragma?_append : ∃ o : Option (String × Text), ∀ b,
    Directive.pragma? (s ++ c :: b) = o.map fun (name, rest) => (name, rest ++ c :: trimEnd b) := by
  obtain ⟨o, parsed⟩ := parse?_append stop s
  by_cases found : ∃ rest, o = some ("pragma", rest)
  · obtain ⟨rest, rfl⟩ := found
    refine ⟨some (String.ofList (rest.takeWhile Directive.isPragmaChar),
      trimStart (rest.dropWhile Directive.isPragmaChar)), fun b => ?_⟩
    rw [Directive.pragma?, parsed]
    simp only [Option.map_some, takeWhile_append_cons stop.pragma, dropWhile_append_cons stop.pragma,
      trim_append_cons stop.solid, trimEnd_trimEnd]
  · refine ⟨none, fun b => ?_⟩
    rw [Directive.pragma?, parsed]
    cases o with
    | none => rfl
    | some x =>
      obtain ⟨name, rest⟩ := x
      simp only [Option.map_some, Option.map_none]
      split
      · rename_i same
        cases same
        exact absurd ⟨rest, rfl⟩ found
      · rfl

theorem pragma?_append : ∃ o : Option (Text × Text), ∀ b,
    pragma? (s ++ c :: b) = o.map fun (name, rest) => (name, rest ++ c :: trimEnd b) := by
  obtain ⟨o, parsed⟩ := directive_pragma?_append stop s
  by_cases found : ∃ args, o = some ("define", args) ∧ (args.takeWhile isIdentChar).isEmpty = false
  · obtain ⟨args, rfl, named⟩ := found
    refine ⟨some (args.takeWhile isIdentChar, args.dropWhile isIdentChar), fun b => ?_⟩
    rw [pragma?, parsed]
    simp only [Option.map_some, spanIdent, takeWhile_append_cons stop.ident,
      dropWhile_append_cons stop.ident, named, Bool.false_eq_true, if_false]
  · refine ⟨none, fun b => ?_⟩
    rw [pragma?, parsed]
    cases o with
    | none => rfl
    | some x =>
      obtain ⟨name, args⟩ := x
      simp only [Option.map_some, Option.map_none]
      split
      · rename_i same
        cases same
        have unnamed : (args.takeWhile isIdentChar).isEmpty = true := by
          cases empty : (args.takeWhile isIdentChar).isEmpty with
          | true => rfl
          | false => exact absurd ⟨args, rfl, empty⟩ found
        simp only [spanIdent, takeWhile_append_cons stop.ident, unnamed, if_true]
      · rfl

end Delimits

theorem pragma?_declaration {s name params : Text}
    (h : pragma? (s ++ [')']) = some (name, '(' :: (params ++ [')']))) (body : Text) :
    pragma? (s ++ ')' :: body) = some (name, '(' :: (params ++ ')' :: trimEnd body)) := by
  obtain ⟨o, parsed⟩ := pragma?_append delimits_closing s
  rw [parsed] at h ⊢
  obtain ⟨⟨name', rest⟩, rfl, same⟩ := Option.map_eq_some_iff.1 h
  obtain ⟨rfl, list⟩ := Prod.mk.inj same
  obtain rfl : rest = '(' :: params :=
    List.append_inj_left' (show rest ++ [')'] = '(' :: params ++ [')'] from list) rfl
  rfl

theorem exists_of_pragma? {l name rest : Text} (h : pragma? l = some (name, rest)) :
    ∃ args, Directive.pragma? l = some ("define", args) ∧ name = args.takeWhile isIdentChar ∧
      name ≠ [] := by
  unfold pragma? at h
  split at h
  · rename_i args found
    by_cases empty : (args.takeWhile isIdentChar).isEmpty = true
    · simp only [spanIdent, empty, if_true] at h
      cases h
    · simp only [spanIdent, empty] at h
      cases h
      exact ⟨args, found, rfl, by simpa using empty⟩
  · cases h

theorem isWord_of_pragma? {l name rest : Text} (h : pragma? l = some (name, rest)) : IsWord name := by
  obtain ⟨args, -, rfl, named⟩ := exists_of_pragma? h
  exact ⟨named, List.all_eq_true.1 List.all_takeWhile⟩

theorem words_trimStart (t : Text) : words (trimStart t) = words t := by
  have blank : ∀ c ∈ t.takeWhile isBlank, isBlank c = true := List.all_eq_true.1 List.all_takeWhile
  have := words_of_blank blank (t.dropWhile isBlank)
  rw [List.takeWhile_append_dropWhile] at this
  exact this.symm

theorem words_spanIdent {t : Text} (some_char : t.takeWhile isIdentChar ≠ []) :
    t.takeWhile isIdentChar ∈ words t := by
  have := words_append_word ⟨some_char, List.all_eq_true.1 List.all_takeWhile⟩ (isFree_head?_dropWhile t)
  rw [List.takeWhile_append_dropWhile] at this
  rw [this]
  exact List.mem_cons_self

theorem pragma_mem_words {l name rest : Text} (h : pragma? l = some (name, rest)) :
    "pragma".toList ∈ words l := by
  obtain ⟨args, found, -⟩ := exists_of_pragma? h
  unfold Directive.pragma? at found
  split at found
  · rename_i args' parsed
    unfold Directive.parse? at parsed
    split at parsed
    · rename_i rest' visible
      have word : (trimStart rest').takeWhile isIdentChar = "pragma".toList := by
        have := (Prod.mk.inj (Option.some.inj parsed)).1
        exact (String.toList_ofList.symm.trans (congrArg String.toList this))
      rw [← words_trimStart, visible, words_cons (by decide), ← words_trimStart, ← word]
      exact words_spanIdent (by rw [word]; decide)
    · cases parsed
  · cases found

end Line

section LineAt

theorem takeWhile_ne_of_notMem {c : Char} {t : Text} (absent : c ∉ t) : t.takeWhile (· ≠ c) = t := by
  induction t with
  | nil => rfl
  | cons d t ih =>
    rw [List.mem_cons, not_or] at absent
    rw [List.takeWhile_cons_of_pos (by simpa using Ne.symm absent.1), ih absent.2]

theorem takeWhile_feed_append {u : Text} (ends : u = [] ∨ ∃ v, u = '\n' :: v) (y : Text) :
    (y ++ u).takeWhile (· ≠ '\n') = y.takeWhile (· ≠ '\n') := by
  rcases ends with rfl | ⟨v, rfl⟩
  · rw [List.append_nil]
  · exact takeWhile_append_cons (by decide) y v

theorem lineAt_append {p u : Text} (start : p = [] ∨ ∃ q, p = q ++ ['\n'])
    (ends : u = [] ∨ ∃ v, u = '\n' :: v) (x y : Text) :
    lineAt (p ++ (x ++ y ++ u)) (byteLen (p ++ x)) =
      (x.reverse.takeWhile (· ≠ '\n')).reverse ++ y.takeWhile (· ≠ '\n') := by
  have reversed : p.reverse = [] ∨ ∃ v, p.reverse = '\n' :: v := by
    rcases start with rfl | ⟨q, rfl⟩
    · exact Or.inl rfl
    · exact Or.inr ⟨q.reverse, by simp⟩
  have whole : p ++ (x ++ y ++ u) = (p ++ x) ++ (y ++ u) := by simp
  rw [lineAt, whole, takeBytes_byteLen_append, dropBytes_byteLen_append, List.reverse_append,
    takeWhile_feed_append reversed, takeWhile_feed_append ends]

theorem lineAt_of_notMem {p u x y : Text} (start : p = [] ∨ ∃ q, p = q ++ ['\n'])
    (ends : u = [] ∨ ∃ v, u = '\n' :: v) (absent : '\n' ∉ x ++ y) :
    lineAt (p ++ (x ++ y ++ u)) (byteLen (p ++ x)) = x ++ y := by
  rw [List.mem_append, not_or] at absent
  rw [lineAt_append start ends, takeWhile_ne_of_notMem absent.2, takeWhile_ne_of_notMem (by
    rw [List.mem_reverse]; exact absent.1), List.reverse_reverse]

theorem words_lineAt {p u : Text} (start : p = [] ∨ ∃ q, p = q ++ ['\n'])
    (ends : u = [] ∨ ∃ v, u = '\n' :: v) (x y : Text) :
    words (lineAt (p ++ (x ++ y ++ u)) (byteLen (p ++ x))) ⊆ words (x ++ y) := by
  obtain ⟨a, cut, front⟩ := exists_eq_append_lastLine x
  have first : y = y.takeWhile (· ≠ '\n') ++ y.dropWhile (· ≠ '\n') :=
    List.takeWhile_append_dropWhile.symm
  have stop : isFree (y.dropWhile (· ≠ '\n')).head? = true := by
    have := List.head?_dropWhile_not (· ≠ '\n') y
    cases rest : y.dropWhile (· ≠ '\n') with
    | nil => rfl
    | cons c rest =>
      rw [rest] at this
      obtain rfl : c = '\n' := by simpa using this
      rfl
  rw [lineAt_append start ends]
  generalize (x.reverse.takeWhile (· ≠ '\n')).reverse = last at cut ⊢
  generalize y.takeWhile (· ≠ '\n') = next at first ⊢
  rw [cut, first, List.append_assoc, ← List.append_assoc last]
  have line : words (last ++ next) ⊆ words (last ++ next ++ y.dropWhile (· ≠ '\n')) := by
    rw [words_append stop]
    exact List.subset_append_left _ _
  rcases front with rfl | ⟨v, rfl⟩
  · exact line
  · rw [List.append_assoc, List.singleton_append, words_append_cons (by decide)]
    exact List.Subset.trans line (List.subset_append_right _ _)

theorem exists_of_mem_wordOffsetsFrom {word : Text} {b : Option Char} {skip offset n : Nat} {t : Text}
    (member : n ∈ wordOffsetsFrom word b skip offset t) :
    ∃ x y, t = x ++ (word ++ y) ∧ n = offset + byteLen x := by
  induction t generalizing b skip offset with
  | nil =>
    rw [wordOffsetsFrom] at member
    split at member
    · rename_i empty
      rw [Bool.and_eq_true, List.isEmpty_iff] at empty
      exact ⟨[], [], by rw [empty.1]; rfl, List.mem_singleton.1 member⟩
    · cases member
  | cons c t ih =>
    have later {skip : Nat} (member : n ∈ wordOffsetsFrom word (some c) skip (offset + c.utf8Size) t) :
        ∃ x y, c :: t = x ++ (word ++ y) ∧ n = offset + byteLen x := by
      obtain ⟨x, y, rfl, rfl⟩ := ih member
      exact ⟨c :: x, y, rfl, by rw [byteLen_cons, Nat.add_assoc]⟩
    rw [wordOffsetsFrom] at member
    split at member
    · rename_i found
      rw [Bool.and_eq_true, List.isPrefixOf_iff_prefix] at found
      dsimp only at member
      split at member
      · rcases List.mem_cons.1 member with rfl | member
        · obtain ⟨y, cut⟩ := found.2
          exact ⟨[], y, cut.symm, rfl⟩
        · exact later member
      · exact later member
    · exact later member

end LineAt
inductive Block where
  /-- A macro's declaration: what stands in front of the name, the parameters, and the body. -/
  | declaration (front name params body : Text)
  /-- A line that the expansion leaves alone. -/
  | line (l : Text)
  /-- Lines that call macros. -/
  | code (t : Text)

namespace Block

def text : Block → Text
  | declaration front name params body => front ++ (name ++ '(' :: (params ++ ')' :: body))
  | line l => l
  | code t => t

def declared? : Block → Option Text
  | declaration _ name _ _ => some name
  | _ => none

end Block

structure Heads (names : Text → Prop) (front name params : Text) : Prop where
  line : '\n' ∉ front ++ (name ++ '(' :: params)
  reads : pragma? (front ++ (name ++ '(' :: params) ++ [')']) = some (name, '(' :: (params ++ [')']))
  first : ')' ∉ params
  words : ∀ n, names n → n ≠ name → n ∉ Text.words (front ++ (name ++ '(' :: params))

/-- A line that is no well formed declaration and names no macro, unless it attempts to declare it. -/
structure Inert (names : Text → Prop) (l : Text) : Prop where
  line : '\n' ∉ l
  undeclared : ∀ n, Functional.parse? n l = none
  words : ∀ n, names n → n ∈ Text.words l → ∃ rest, pragma? l = some (n, '(' :: rest)

/-- What holds of the blocks of a text between passes: the macros in `called` may still be called. The
body of a macro uses what `reach` allows, and its brackets nest if they did before. -/
def Block.Holds (names : Text → Prop) (below : Text → Text → Prop) (balanced : Text → Prop)
    (reach : Text → Text → Prop) (called : Text → Prop) : Block → Prop
  | .declaration front name params body => Heads names front name params ∧ '\n' ∉ body ∧
      Tidy names below (fun n => (called n ∨ n = name) ∧ reach name n) body ∧
      (balanced name → nested [] body = true)
  | .line l => Inert names l
  | .code t => Tidy names below called t

section Blocks

variable {names : Text → Prop} {below : Text → Text → Prop} {balanced used called : Text → Prop}
  {reach : Text → Text → Prop} {m : Functional}

theorem text_declaration (front name params body : Text) :
    (Block.declaration front name params body).text =
      (front ++ (name ++ '(' :: params)) ++ ([')'] ++ body) := by
  simp [Block.text]

theorem feed_notMem_declaration {front name params body : Text} (h : Heads names front name params)
    (line : '\n' ∉ body) : '\n' ∉ (Block.declaration front name params body).text := by
  have close : '\n' ∉ [')'] := by decide
  rw [text_declaration]
  intro member
  rcases List.mem_append.1 member with member | member
  · exact h.line member
  · exact (List.mem_append.1 member).elim close line

theorem pragma?_of_heads {front name params : Text} (h : Heads names front name params) (body : Text) :
    pragma? (Block.declaration front name params body).text =
      some (name, '(' :: (params ++ ')' :: trimEnd body)) := by
  have := pragma?_declaration h.reads body
  rw [← this, text_declaration]
  rfl

theorem parse?_of_heads {front name params : Text} (h : Heads names front name params) (n body : Text) :
    Functional.parse? n (Block.declaration front name params body).text =
      if name = n then some ⟨name, splitArgs params, dropBreaks (trim body)⟩ else none := by
  rw [Functional.parse?, pragma?_of_heads h]
  have cut : cut? [')'] ('(' :: (params ++ ')' :: trimEnd body)) =
      some ('(' :: params, trimEnd body) := by
    have absent : ')' ∉ '(' :: params := by
      rw [List.mem_cons, not_or]
      exact ⟨by decide, h.first⟩
    exact cut?_append_cons absent (trimEnd body)
  by_cases same : name = n
  · subst same
    simp [hasParams, cut, trim_trimEnd]
  · simp [same]

theorem at?_of_declared {full : Text} {n : Nat} {rest : Text}
    (h : pragma? (lineAt full n) = some (m.name, rest)) : Call.at? m full n = none := by
  unfold Call.at?
  simp [h]

variable {full p u : Text}

theorem isFree_of_ends (ends : u = [] ∨ ∃ v, u = '\n' :: v) : isFree u.head? = true := by
  rcases ends with rfl | ⟨v, rfl⟩ <;> rfl

theorem at?_declared (start : p = [] ∨ ∃ q, p = q ++ ['\n']) (ends : u = [] ∨ ∃ v, u = '\n' :: v)
    {l rest : Text} (whole : full = p ++ (l ++ u)) (line : '\n' ∉ l) (h : pragma? l = some (m.name, rest)) :
    ∀ n ∈ wordOffsetsFrom m.name none 0 (byteLen p) l, Call.at? m full n = none := by
  intro n member
  obtain ⟨x, y, rfl, rfl⟩ := exists_of_mem_wordOffsetsFrom member
  have declares : pragma? (lineAt full (byteLen p + byteLen x)) = some (m.name, rest) := by
    rw [← byteLen_append, whole, lineAt_of_notMem start ends line, h]
  exact at?_of_declared declares

theorem writes_declared (isName : IsWord m.name) (start : p = [] ∨ ∃ q, p = q ++ ['\n'])
    (ends : u = [] ∨ ∃ v, u = '\n' :: v) {l rest : Text} (whole : full = p ++ (l ++ u)) (line : '\n' ∉ l)
    (h : pragma? l = some (m.name, rest)) : Writes m full p l u l :=
  writes_self isName (isFree_of_ends ends) (at?_declared start ends whole line h)

theorem exists_joinFeeds {β : Type} {f : β → Text} {R : β → β → Prop} (isName : IsWord m.name)
    {bs : List β} (each : ∀ b ∈ bs, ∀ p u, (p = [] ∨ ∃ q, p = q ++ ['\n']) →
      (u = [] ∨ ∃ v, u = '\n' :: v) → full = p ++ (f b ++ u) →
      ∃ b', Writes m full p (f b) u (f b') ∧ R b b')
    (start : p = [] ∨ ∃ q, p = q ++ ['\n']) (some_piece : bs ≠ [])
    (whole : full = p ++ joinFeeds (bs.map f)) :
    ∃ bs', Writes m full p (joinFeeds (bs.map f)) [] (joinFeeds (bs'.map f)) ∧
      List.Forall₂ R bs bs' := by
  have between (b c : β) (bs : List β) : joinFeeds ((b :: c :: bs).map f) =
      f b ++ '\n' :: joinFeeds ((c :: bs).map f) := joinWith_cons_cons '\n' _ _ _
  induction bs generalizing p with
  | nil => exact absurd rfl some_piece
  | cons b bs ih =>
    have first := each b List.mem_cons_self p
    cases bs with
    | nil =>
      obtain ⟨b', run, kept⟩ := first [] start (Or.inl rfl) (by simpa [joinFeeds, joinWith] using whole)
      exact ⟨[b'], run, .cons kept .nil⟩
    | cons c rest =>
      rw [between] at whole ⊢
      obtain ⟨b', run, kept⟩ := first _ start (Or.inr ⟨_, rfl⟩) whole
      obtain ⟨bs', run', same⟩ := ih (p := p ++ f b ++ ['\n'])
        (fun d hd => each d (List.mem_cons_of_mem b hd)) (Or.inr ⟨_, rfl⟩) (List.cons_ne_nil _ _)
        (by simp [whole])
      cases same with
      | cons kept' same =>
        refine ⟨_, ?_, .cons kept (.cons kept' same)⟩
        rw [between]
        refine Writes.append ?_ ((writes_char isName (by decide)).append run')
        simpa using run

variable (ready : Ready names below balanced used m)
include ready

variable (balances : ∀ callee n, below callee n → balanced n)
  (uses : ∀ n, used n → (called n ∧ n ≠ m.name) ∧ reach m.name n)
include balances uses

theorem exists_code (unreserved : ¬ called "pragma".toList)
    (start : p = [] ∨ ∃ q, p = q ++ ['\n']) (ends : u = [] ∨ ∃ v, u = '\n' :: v) {t : Text}
    (whole : full = p ++ (t ++ u)) (h : Tidy names below called t) :
    ∃ t', Writes m full p t u t' ∧ Tidy names below (fun n => called n ∧ n ≠ m.name) t' := by
  have free := isFree_of_ends ends
  have no_pragma (x y : Text) (cut : t = x ++ y) : pragma? (lineAt full (byteLen (p ++ x))) = none := by
    rw [whole, cut]
    cases found : pragma? (lineAt (p ++ (x ++ y ++ u)) (byteLen (p ++ x))) with
    | none => rfl
    | some declared =>
      have member := words_lineAt start ends x y (pragma_mem_words found)
      rw [← cut] at member
      exact (h.word_cases member).elim (absurd · unreserved) fun other => absurd rfl other.2
  obtain ⟨t', run, outcome⟩ := h.writes false ready balances whole free
    (fun _ n hn => (uses n hn).1.1)
    (fun x y cut => by rw [isFunctional, no_pragma x y cut]; exact ⟨rfl, rfl⟩) nofun
  exact ⟨t', run, outcome.tidy⟩

theorem exists_body (chain : ∀ a n, reach a m.name → used n → reach a n)
    (sub : ∀ a b, reach a b → balanced a → balanced b) (body_line : '\n' ∉ m.body)
    (start : p = [] ∨ ∃ q, p = q ++ ['\n']) (ends : u = [] ∨ ∃ v, u = '\n' :: v)
    {front name params body : Text} (differs : m.name ≠ name)
    (whole : full = p ++ ((Block.declaration front name params body).text ++ u))
    (h : (Block.declaration front name params body).Holds names below balanced reach called) :
    ∃ body', Writes m full p (Block.declaration front name params body).text u
        (Block.declaration front name params body').text ∧
      (Block.declaration front name params body').Holds names below balanced reach
        fun n => called n ∧ n ≠ m.name := by
  obtain ⟨heads, line, tidy, brackets⟩ := h
  have free := isFree_of_ends ends
  have no_feed := feed_notMem_declaration heads line
  have head : Writes m full p (front ++ (name ++ '(' :: params)) ([')'] ++ body ++ u) _ :=
    writes_of_notMem ready.isName rfl (heads.words m.name ready.named differs)
  have reads (x y : Text) (cut : body = x ++ y) :
      pragma? (lineAt full (byteLen (p ++ (front ++ (name ++ '(' :: params)) ++ [')'] ++ x))) =
        some (name, '(' :: (params ++ ')' :: trimEnd body)) := by
    have whole_line : (Block.declaration front name params body).text =
        (front ++ (name ++ '(' :: params) ++ [')'] ++ x) ++ y := by
      rw [text_declaration, cut]
      simp
    have at_line := lineAt_of_notMem start ends (whole_line ▸ no_feed)
    rw [← whole_line, ← whole] at at_line
    rw [← pragma?_of_heads heads, ← at_line]
    simp only [List.append_assoc]
  obtain ⟨body', run, outcome⟩ := tidy.writes true (u := u)
    (p := p ++ (front ++ (name ++ '(' :: params)) ++ [')']) ready balances
    (whole.trans (by rw [text_declaration]; simp)) free
    (fun h n hn => ⟨Or.inl (uses n hn).1.1, chain _ n h.2 hn⟩)
    (fun x y cut => by rw [isFunctional, reads x y cut]; simp [hasParams, Ne.symm differs])
    fun _ => body_line
  refine ⟨body', ?_, heads, outcome.feeds rfl line, outcome.tidy.mono fun n h => ?_, fun h => ?_⟩
  · rw [text_declaration, text_declaration]
    exact head.append ((writes_char ready.isName (by decide)).append run)
  · exact ⟨h.1.1.imp_left fun called => ⟨called, h.2⟩, h.1.2⟩
  · have := outcome.brackets (fun n hn => sub name n hn.2 h) [] []
    rwa [List.append_nil, List.append_nil, brackets h] at this

theorem exists_block (unreserved : ¬ called "pragma".toList)
    (chain : ∀ a n, reach a m.name → used n → reach a n)
    (sub : ∀ a b, reach a b → balanced a → balanced b) (body_line : '\n' ∉ m.body)
    (start : p = [] ∨ ∃ q, p = q ++ ['\n']) (ends : u = [] ∨ ∃ v, u = '\n' :: v) {b : Block}
    (whole : full = p ++ (b.text ++ u)) (h : b.Holds names below balanced reach called) :
    ∃ b' : Block, Writes m full p b.text u b'.text ∧ b'.declared? = b.declared? ∧
      b'.Holds names below balanced reach fun n => called n ∧ n ≠ m.name := by
  cases b with
  | code t =>
    obtain ⟨t', run, tidy⟩ := exists_code ready balances uses unreserved start ends whole h
    exact ⟨.code t', run, rfl, tidy⟩
  | line l =>
    refine ⟨.line l, ?_, rfl, h⟩
    by_cases named : m.name ∈ words l
    · obtain ⟨rest, declares⟩ := h.words m.name ready.named named
      exact writes_declared ready.isName start ends whole h.line declares
    · exact writes_of_notMem ready.isName (isFree_of_ends ends) named
  | declaration front name params body =>
    by_cases same : m.name = name
    · subst same
      have line := feed_notMem_declaration h.1 h.2.1
      refine ⟨_, writes_declared ready.isName start ends whole line (pragma?_of_heads h.1 body), rfl, h.1,
        h.2.1, h.2.2.1.mono fun n hn => ⟨?_, hn.2⟩, h.2.2.2⟩
      by_cases own : n = m.name
      · exact Or.inr own
      · exact hn.1.imp_left fun called => ⟨called, own⟩
    · obtain ⟨body', run, holds⟩ := exists_body ready balances uses chain sub body_line start ends same whole h
      exact ⟨_, run, rfl, holds⟩

end Blocks
end ShaderPass.Macro
