import ShaderPass.Dialect.Conditional
import ShaderPass.Proofs.ConstExpr.Spelling
import ShaderPass.Proofs.Define.Comments

/-! Remarks that reach the version conditions. A remark behind a condition makes it one that the version
does not decide, so it is harmless behind the conditions that the version does not decide anyway. -/
namespace ShaderPass

namespace ConstExpr

open Text

theorem Spells.isBlank_eq_false {s rest : Text} {l : Lexeme} (h : Spells s l rest) :
    ∀ c ∈ s, isBlank c = false := by
  cases h with
  | @int c more _ n digit inside _ _ =>
    intro d member
    rcases List.mem_cons.1 member with rfl | member
    · exact Layout.isBlank_of_isIdentChar (by simp [isIdentChar, Char.isAlphanum, digit])
    · exact Layout.isBlank_of_isIdentChar (inside d member)
  | @ident c more _ start inside _ =>
    intro d member
    rcases List.mem_cons.1 member with rfl | member
    · exact Layout.isBlank_of_isIdentChar (isIdentChar_of_isIdentStart start)
    · exact Layout.isBlank_of_isIdentChar (inside d member)
  | @op o _ _ =>
    have none_blank : o.symbol.toList.all (!isBlank ·) = true := by cases o <;> decide
    simpa using none_blank

theorem Spells.of_append_blank {s rest t : Text} {l : Lexeme} {d : Char}
    (h : Spells s l (rest ++ d :: t)) : Spells s l rest := by
  have free (free : isFree (rest ++ d :: t).head? = true) : isFree rest.head? = true := by
    cases rest with
    | nil => rfl
    | cons c rest => exact free
  cases h with
  | int digit inside free' numeral => exact .int digit inside (free free') numeral
  | ident start inside free' => exact .ident start inside (free free')
  | op longest =>
    refine .op fun o' found => longest o' (found.trans ?_)
    rw [← List.append_assoc]
    exact List.prefix_append _ _

theorem Lexes.of_append_blank {s t : Text} {d : Char} (blank : isBlank d = true) {ts : List Lexeme}
    (h : Lexes (s ++ d :: t) ts) : ∃ front back, ts = front ++ back ∧ Lexes s front := by
  generalize whole : s ++ d :: t = w at h
  induction h generalizing s with
  | nil => simp at whole
  | @blank c w ts blank' later ih =>
    cases s with
    | nil => exact ⟨[], ts, rfl, .nil⟩
    | cons e s =>
      obtain ⟨rfl, cut⟩ := List.cons.inj whole
      obtain ⟨front, back, rfl, lexes⟩ := ih cut
      exact ⟨front, back, rfl, .blank blank' lexes⟩
  | @lexeme x rest l ts first later ih =>
    -- the lexeme is over before the blank
    have inside : ∃ s', s = x ++ s' ∧ rest = s' ++ d :: t := by
      rcases List.append_eq_append_iff.1 whole with ⟨m, cut, tail⟩ | ⟨m, cut, tail⟩
      · cases m with
        | nil => exact ⟨[], by simpa using cut.symm, by simpa using tail.symm⟩
        | cons e m =>
          obtain ⟨rfl, -⟩ := List.cons.inj tail
          have := first.isBlank_eq_false d (by rw [cut]; simp)
          rw [blank] at this
          cases this
      · exact ⟨m, cut, tail⟩
    obtain ⟨s', rfl, rfl⟩ := inside
    obtain ⟨front, back, rfl, lexes⟩ := ih rfl
    exact ⟨l :: front, back, rfl, .lexeme first.of_append_blank lexes⟩

theorem Lexes.isBlank_of_nil {s : Text} (h : Lexes s []) : ∀ c ∈ s, isBlank c = true := by
  generalize none : ([] : List Lexeme) = ts at h
  induction h with
  | nil => simp
  | blank blank _ ih =>
    intro c member
    rcases List.mem_cons.1 member with rfl | member
    · exact blank
    · exact ih none c member
  | lexeme _ _ _ => cases none

theorem isVersionCondition_of_append {s t : Text} {d : Char} (blank : isBlank d = true)
    (some_char : ∃ c ∈ s, isBlank c = false) (h : isVersionCondition (s ++ d :: t) = true) :
    isVersionCondition s = true := by
  unfold isVersionCondition at h ⊢
  split at h
  · rename_i ts lexed
    obtain ⟨lexes, fit⟩ := lex_eq_ok_iff.1 lexed
    obtain ⟨front, back, rfl, read⟩ := lexes.of_append_blank blank
    rw [Bool.and_eq_true, List.all_append, Bool.and_eq_true] at h
    have front_fit : LiteralsFit front := fun n member => fit n (List.mem_append_left _ member)
    rw [lex_eq_ok_iff.2 ⟨read, front_fit⟩]
    have some_lexeme : front ≠ [] := by
      rintro rfl
      obtain ⟨c, member, solid⟩ := some_char
      rw [read.isBlank_of_nil c member] at solid
      cases solid
    simp [some_lexeme, h.2.1]
  · cases h

end ConstExpr

namespace Conditional

open Text Token

section Map

mutual

def Block.map (f : Text → Text) : Block → Block
  | .done => .done
  | .line t rest => .line (f t) (rest.map f)
  | .chain branches rest => .chain (branches.map f) (rest.map f)

def Chain.map (f : Text → Text) : Chain → Chain
  | .last header body close => .last (f header) (body.map f) (close.map f)
  | .more header body rest => .more (f header) (body.map f) (rest.map f)

end

def Stops.map (f : Text → Text) (stops : Stops) : Stops :=
  List.map (fun stop => (f stop.1, stop.2.map f)) stops

variable {f : Text → Text}

mutual

theorem Block.render_map (block : Block) : (block.map f).render = block.render.map f := by
  match block with
  | .done => rfl
  | .line t rest => simp [Block.map, Block.render, Block.render_map rest]
  | .chain branches rest =>
    simp [Block.map, Block.render, Chain.render_map branches, Block.render_map rest]

theorem Chain.render_map (branches : Chain) : (branches.map f).render = branches.render.map f := by
  match branches with
  | .last header body close =>
    cases close <;> simp [Chain.map, Chain.render, Block.render_map body]
  | .more header body rest =>
    simp [Chain.map, Chain.render, Block.render_map body, Chain.render_map rest]

end

theorem Block.map_append (a b : Block) : (a.append b).map f = (a.map f).append (b.map f) := by
  match a with
  | .done => rfl
  | .line t rest => simp [Block.append, Block.map, map_append rest b]
  | .chain branches rest => simp [Block.append, Block.map, map_append rest b]

section Roles

variable (role : ∀ line, roleOf (f line) = roleOf line)

include role

theorem collect_map (header : Text) (body : Block) (stops : Stops) :
    collect (f header) (body.map f) (stops.map f) =
      ((collect header body stops).1.map f, (collect header body stops).2.1.map f,
        Stops.map f (collect header body stops).2.2) := by
  induction stops generalizing header body with
  | nil => rfl
  | cons entry stops ih =>
    obtain ⟨stop, next⟩ := entry
    show collect (f header) (body.map f) ((f stop, next.map f) :: Stops.map f stops) = _
    rw [collect, collect, role, ih]
    split <;> rfl

theorem parse_map (lines : List Text) :
    parse (lines.map f) = ((parse lines).1.map f, Stops.map f (parse lines).2) := by
  induction lines with
  | nil => rfl
  | cons line lines ih =>
    rw [List.map_cons, parse, parse, role, ih]
    dsimp only
    cases roleOf line with
    | plain => rfl
    | opens =>
      dsimp only
      rw [collect_map role]
      rfl
    | continues => rfl
    | closes => rfl

omit role in
theorem settle_map (block : Block) (stops : Stops) :
    settle (block.map f) (stops.map f) = (settle block stops).map f := by
  induction stops generalizing block with
  | nil => rfl
  | cons entry stops ih =>
    obtain ⟨stop, next⟩ := entry
    show settle (block.map f) ((f stop, next.map f) :: Stops.map f stops) = _
    rw [settle, settle, ih, Block.map_append]
    rfl

theorem Block.ofLines_map (lines : List Text) :
    Block.ofLines (lines.map f) = (Block.ofLines lines).map f := by
  rw [Block.ofLines, parse_map role, Block.ofLines]
  exact settle_map _ _

end Roles

section Conditions

variable {version : Nat}

theorem Chain.isResolvable_map (decided : ∀ line, applies? version (f line) = applies? version line)
    (branches : Chain) : (branches.map f).isResolvable version = branches.isResolvable version := by
  match branches with
  | .last header body close => simp [Chain.map, Chain.isResolvable, decided]
  | .more header body rest =>
    simp [Chain.map, Chain.isResolvable, decided, Chain.isResolvable_map decided rest]

theorem Chain.select_map (decided : ∀ line, applies? version (f line) = applies? version line)
    (branches : Chain) : (branches.map f).select version = (branches.select version).map f := by
  match branches with
  | .last header body close =>
    rw [Chain.map, Chain.select, Chain.select, decided]
    split <;> rfl
  | .more header body rest =>
    rw [Chain.map, Chain.select, Chain.select, decided, Chain.select_map decided rest]
    split <;> rfl

mutual

theorem Block.resolve_map (decided : ∀ line, applies? version (f line) = applies? version line)
    (block : Block) : (block.map f).resolve version = (block.resolve version).map f := by
  match block with
  | .done => rfl
  | .line t rest =>
    rw [Block.map, Block.resolve, Block.resolve_map decided rest, Block.resolve, Block.map]
  | .chain branches rest =>
    rw [Block.map, Block.resolve, Chain.resolve_map decided branches,
      Block.resolve_map decided rest, Chain.isResolvable_map decided, Chain.select_map decided,
      Block.resolve]
    split
    · rw [Block.map_append]
    · rw [Block.map]

theorem Chain.resolve_map (decided : ∀ line, applies? version (f line) = applies? version line)
    (branches : Chain) : (branches.map f).resolve version = (branches.resolve version).map f := by
  match branches with
  | .last header body close =>
    rw [Chain.map, Chain.resolve, Block.resolve_map decided body, Chain.resolve, Chain.map]
  | .more header body rest =>
    rw [Chain.map, Chain.resolve, Block.resolve_map decided body, Chain.resolve_map decided rest,
      Chain.resolve, Chain.map]

end

end Conditions

end Map

def codeLines (t : Text) : List Text :=
  (feedLines t).filter fun line => (Directive.parse? line).isNone

theorem codeLines_joinFeeds_congr {lines lines' : List Text} {f : Text → Text}
    (same : lines'.map f = lines.map f) (unread : ∀ line, codeLines (f line) = codeLines line) :
    codeLines (joinFeeds lines') = codeLines (joinFeeds lines) := by
  have read (lines : List Text) (some_line : lines ≠ []) :
      codeLines (joinFeeds lines) = (lines.map f).flatMap codeLines := by
    rw [codeLines, feedLines_joinFeeds some_line, List.filter_flatMap, List.flatMap_map]
    simp only [unread]
    rfl
  by_cases none : lines = []
  · rw [none, List.map_nil, List.map_eq_nil_iff] at same
    rw [none, same]
  · have none' : lines' ≠ [] := by
      rintro rfl
      exact none (List.map_eq_nil_iff.1 same.symm)
    rw [read lines none, read lines' none', same]

section Exchange

variable {before after : List Text} {line line' : Text} {version : Nat}

/-- Exchanging one directive for another that plays the same part and is decided alike leaves the code
lines of every version alone. -/
theorem codeLines_downlevel_congr (free : '\n' ∉ line) (free' : '\n' ∉ line')
    (directive : (Directive.parse? line).isNone = false)
    (directive' : (Directive.parse? line').isNone = false) (role : roleOf line' = roleOf line)
    (decided : applies? version line' = applies? version line) {t t' : Text}
    (lines : feedLines t = before ++ line :: after)
    (lines' : feedLines t' = before ++ line' :: after) :
    codeLines (downlevel t' version) = codeLines (downlevel t version) := by
  -- taking the one line for the other makes the two texts the same
  let f (l : Text) : Text := if l = line' then line else l
  have roles (l : Text) : roleOf (f l) = roleOf l := by
    by_cases here : l = line'
    · rw [here, role]; simp [f]
    · simp [f, here]
  have conditions (l : Text) : applies? version (f l) = applies? version l := by
    by_cases here : l = line'
    · rw [here, decided]; simp [f]
    · simp [f, here]
  have whole : (feedLines t').map f = (feedLines t).map f := by
    have fixed : f line = line := by simp [f]
    have taken : f line' = line := by simp [f]
    rw [lines, lines', List.map_append, List.map_append, List.map_cons, List.map_cons, fixed, taken]
  have no_code {l : Text} (free : '\n' ∉ l) (directive : (Directive.parse? l).isNone = false) :
      codeLines l = [] := by
    rw [codeLines, feedLines, splitOn_eq_singleton free, List.filter_cons_of_neg (by simp [directive])]
    rfl
  have unread (l : Text) : codeLines (f l) = codeLines l := by
    by_cases here : l = line'
    · rw [here, no_code free' directive']
      simpa [f] using no_code free directive
    · simp [f, here]
  refine codeLines_joinFeeds_congr (f := f) ?_ unread
  rw [← Block.render_map, ← Block.resolve_map conditions, ← Block.ofLines_map roles, whole,
    Block.ofLines_map roles, Block.resolve_map conditions, Block.render_map]

end Exchange

section Remark

variable {line line' gap c args : Text} {name : String}
  (parsed : Directive.parse? line = some (name, args))
  (parsed' : Directive.parse? line' = some (name, args ++ (gap ++ note c)))

include parsed parsed'

theorem roleOf_remark : roleOf line' = roleOf line := by
  unfold roleOf
  rw [parsed, parsed']
  by_cases conditional : name = "if" ∨ name = "ifdef" ∨ name = "ifndef" ∨ name = "elif" ∨
      name = "else" ∨ name = "endif"
  · rcases conditional with rfl | rfl | rfl | rfl | rfl | rfl <;> rfl
  · simp only [not_or] at conditional
    simp [conditional]

theorem applies?_remark (version : Nat) (blank : ∀ d ∈ gap, isBlank d = true)
    (some_gap : args ≠ [] → gap ≠ []) (trimmed : trim args = args)
    (open_condition : name = "if" ∨ name = "elif" →
      args ≠ [] ∧ ConstExpr.isVersionCondition args = false) :
    applies? version line' = applies? version line := by
  unfold applies?
  rw [parsed, parsed']
  by_cases conditional : name = "if" ∨ name = "elif"
  · obtain ⟨some_args, undecided⟩ := open_condition conditional
    obtain ⟨g, gap, rfl⟩ := List.exists_cons_of_ne_nil (some_gap some_args)
    have some_char : ∃ d ∈ args, isBlank d = false := by
      by_contra none
      have all : ∀ d ∈ args, isBlank d = true := by
        intro d member
        cases solid : isBlank d with
        | true => rfl
        | false => exact absurd ⟨d, member, solid⟩ none
      rw [trim, trimStart_eq_nil all] at trimmed
      exact some_args trimmed.symm
    have remarked : ConstExpr.isVersionCondition (args ++ (g :: gap ++ note c)) = false := by
      cases version_only : ConstExpr.isVersionCondition (args ++ (g :: gap ++ note c)) with
      | false => rfl
      | true =>
        rw [ConstExpr.isVersionCondition_of_append (blank g List.mem_cons_self) some_char
          version_only] at undecided
        cases undecided
    rcases conditional with rfl | rfl <;> simp only [undecided, remarked, Bool.false_eq_true, if_false]
  · simp only [not_or] at conditional
    by_cases other : name = "else"
    · subst other
      rfl
    · simp [conditional, other]

end Remark

/-- What a remark behind a directive does. It stays where it is when comments are stripped. The scan
for defines takes the defines that it names for part of a condition, and otherwise reads what it read
without the remark; so does the resolution of version conditions where the version did not decide. -/
theorem remark_behind_directive {a body returns r c : Text} (h : Remarked a body returns r c)
    {name : String} {args : Text} (parsed : Directive.parse? (lastLine body) = some (name, args)) :
    let stripped := stripComments (a ++ (body ++ (returns ++ r)))
    let remarked := stripComments (a ++ (body ++ (remark c ++ (returns ++ r))))
    (∃ front rest, stripped = front ++ (body ++ (returns ++ rest)) ∧
      remarked = front ++ (body ++ (remark c ++ (returns ++ rest)))) ∧
    (name ∈ Define.conditionalNames → ∀ define ∈ Condition.identifiers c,
      define ∈ Define.names (Define.scan remarked)) ∧
    ((name ∈ Define.conditionalNames → Condition.identifiers c = []) →
      (∀ rest, Directive.pragma? (lastLine body) ≠ some ("define-meta", rest)) →
        Define.scan remarked = Define.scan stripped) ∧
    ∀ version, (name = "if" ∨ name = "elif" →
        args ≠ [] ∧ ConstExpr.isVersionCondition args = false) →
      codeLines (downlevel remarked version) = codeLines (downlevel stripped version) := by
  intro stripped remarked
  obtain ⟨before, line, after, same, free, lines, lines'⟩ := h.exists_lines
  obtain ⟨gap, blank, some_gap, read⟩ := Directive.exists_parse?_remark h.only_returns c parsed
  have parsed_line : Directive.parse? (line ++ returns) = some (name, args) := by
    rw [same, Directive.parse?_append_returns h.only_returns, parsed]
  have parsed_remark : Directive.parse? (line ++ (remark c ++ returns)) =
      some (name, args ++ (gap ++ note c)) := by rw [same, read]
  refine ⟨?_, ?_, Define.scan_remarked h parsed, ?_⟩
  · obtain ⟨front, rest, plain, with_remark, -⟩ := h.exists_stripped
    exact ⟨front, rest, plain, with_remark⟩
  · intro conditional define named
    have tests : define ∈ Define.tested (line ++ (remark c ++ returns)) := by
      rw [Define.tested, parsed_remark]
      simp only [conditional, if_true]
      exact Define.mem_identifiers_remark blank named
    rw [Define.scan_eq_foldl]
    exact Define.mem_names_foldl_scanLine
      (Or.inr ⟨_, by rw [lines']; exact List.mem_append_right _ List.mem_cons_self, tests⟩)
  · intro version open_condition
    have no_return : '\n' ∉ returns := fun feed => absurd (h.only_returns _ feed) (by decide)
    refine codeLines_downlevel_congr ?_ ?_ ?_ ?_ (roleOf_remark parsed_line parsed_remark) ?_ lines lines'
    · simp [free, no_return]
    · simp [free, remark, h.one_line, no_return]
    · rw [parsed_line]; rfl
    · rw [parsed_remark]; rfl
    · exact applies?_remark parsed_line parsed_remark version blank some_gap
        (Directive.trim_of_parse? parsed_line) open_condition

/-- A remark without names, behind a condition that the version does not decide and in front of a
carriage return. -/
theorem remark_behind_directive_silent :
    let r := "\nint a;\n#endif".toList
    let stripped := stripComments ("#if A > 1".toList ++ (['\r'] ++ r))
    let remarked := stripComments ("#if A > 1".toList ++ (remark "== 2".toList ++ (['\r'] ++ r)))
    remarked = "#if A > 1 // == 2\r\nint a;\n#endif".toList ∧
      Define.scan remarked = Define.scan stripped ∧
      Define.names (Define.scan stripped) = ["A"] ∧
      ∀ version, codeLines (downlevel remarked version) = codeLines (downlevel stripped version) := by
  intro r stripped remarked
  have remarkable : Remarked [] "#if A > 1".toList ['\r'] r "== 2".toList :=
    ⟨by decide +kernel, by simp, by decide, by decide⟩
  have parsed : Directive.parse? (lastLine "#if A > 1".toList) = some ("if", "A > 1".toList) := by
    decide +kernel
  obtain ⟨-, -, scanned, resolved⟩ := remark_behind_directive remarkable parsed
  refine ⟨by decide +kernel, ?_, by decide +kernel, fun version => ?_⟩
  · exact scanned (fun _ => by decide +kernel) (by
      have no_pragma : Directive.pragma? (lastLine "#if A > 1".toList) = none := by decide +kernel
      intro rest
      rw [no_pragma]
      exact nofun)
  · exact resolved version fun _ => ⟨by decide, by decide +kernel⟩

/-- A remark that names a define makes it one of the shader, and one behind a version condition keeps
the version from deciding it. -/
theorem not_remark_harmless :
    (Remarked [] "#if A".toList [] "\n#endif".toList "B".toList ∧
      Define.scan (stripComments "#if A // B\n#endif".toList) ≠
        Define.scan (stripComments "#if A\n#endif".toList)) ∧
    Remarked [] "#if __VERSION__ >= 300".toList [] "\nint a;\n#endif".toList "new".toList ∧
      codeLines (downlevel (stripComments "#if __VERSION__ >= 300 // new\nint a;\n#endif".toList) 100) ≠
        codeLines (downlevel (stripComments "#if __VERSION__ >= 300\nint a;\n#endif".toList) 100) :=
  ⟨⟨⟨by decide +kernel, nofun, by decide, by decide⟩, by decide +kernel⟩,
    ⟨by decide +kernel, nofun, by decide, by decide⟩, by decide +kernel⟩

end Conditional

end ShaderPass
