import ShaderPass.Define
import ShaderPass.Proofs.Text.Trimming

/-! What the lines of a text make known: every define that a line tests is listed. Neither the blanks
in front of a directive nor a carriage return behind it matter. -/
namespace ShaderPass

namespace Text

theorem trimStart_blank_append {b : Text} (blank : ∀ c ∈ b, isBlank c = true) (t : Text) :
    trimStart (b ++ t) = trimStart t :=
  List.dropWhile_append_of_pos blank

theorem trim_append_blank {b : Text} (blank : ∀ c ∈ b, isBlank c = true) (t : Text) :
    trim (t ++ b) = trim t := by
  rw [← trim_trimEnd, trimEnd, trimEndWhile_append_of_pos blank]
  exact trim_trimEnd t

theorem spanIdent_append {s : Text} (free : isFree s.head? = true) (t : Text) :
    spanIdent (t ++ s) = ((spanIdent t).1, (spanIdent t).2 ++ s) := by
  unfold spanIdent
  induction t with
  | nil =>
    cases s with
    | nil => rfl
    | cons c s =>
      have plain : isIdentChar c = false := by simpa [isFree] using free
      simp [plain]
  | cons c t ih =>
    rw [Prod.mk.injEq] at ih
    by_cases ident : isIdentChar c = true <;> simp [ident, ih.1, ih.2]

end Text

namespace Directive

open Text

theorem parse?_blank_append {b : Text} (blank : ∀ c ∈ b, isBlank c = true) (line : Text) :
    parse? (b ++ line) = parse? line := by
  rw [parse?, trimStart_blank_append blank, parse?]

theorem parse?_append_blank {b : Text} (blank : ∀ c ∈ b, isBlank c = true) (free : isFree b.head? = true)
    (line : Text) : parse? (line ++ b) = parse? line := by
  have words (rest : Text) :
      (spanIdent (trimStart (rest ++ b))).1 = (spanIdent (trimStart rest)).1 ∧
      trim (spanIdent (trimStart (rest ++ b))).2 = trim (spanIdent (trimStart rest)).2 := by
    rcases blank_or_exists rest with front | ⟨a, c, s, rfl, front, solid⟩
    · rw [trimStart_blank_append front, trimStart_eq_nil front, trimStart_eq_nil blank]
      exact ⟨rfl, rfl⟩
    · rw [List.append_assoc, List.cons_append, trimStart_append_cons front solid,
        trimStart_append_cons front solid, ← List.cons_append, spanIdent_append free]
      exact ⟨rfl, trim_append_blank blank _⟩
  rcases blank_or_exists line with front | ⟨a, c, s, rfl, front, solid⟩
  · unfold parse?
    rw [trimStart_blank_append front, trimStart_eq_nil front, trimStart_eq_nil blank]
  · unfold parse?
    rw [List.append_assoc, List.cons_append, trimStart_append_cons front solid,
      trimStart_append_cons front solid]
    by_cases hash : c = '#'
    · subst hash
      simp only [(words s).1, (words s).2]
    · simp [hash]

theorem parse?_append_returns {line returns : Text} (only : ∀ d ∈ returns, d = '\r') :
    parse? (line ++ returns) = parse? line := by
  refine parse?_append_blank (fun d member => by rw [only d member]; decide) ?_ line
  cases returns with
  | nil => rfl
  | cons d returns =>
    rw [only d List.mem_cons_self]
    rfl

theorem parse?_dropReturn (line : Text) : parse? (dropReturn line) = parse? line := by
  unfold dropReturn
  split
  · rename_i last
    obtain ⟨s, rfl⟩ := List.getLast?_eq_some_iff.1 last
    rw [List.dropLast_concat, parse?_append_returns fun d member => List.mem_singleton.1 member]
  · rfl

end Directive

namespace Define

def tested (line : Text) : List String :=
  match Directive.parse? line with
  | some (name, condition) => if name ∈ conditionalNames then Condition.identifiers condition else []
  | none => []

theorem tested_of_conditional {line : Text} {name : String} {condition : Text}
    (parsed : Directive.parse? line = some (name, condition)) (conditional : name ∈ conditionalNames) :
    tested line = Condition.identifiers condition := by
  rw [tested, parsed]
  exact if_pos conditional

theorem tested_of_parse? {line line' : Text} (same : Directive.parse? line = Directive.parse? line') :
    tested line = tested line' := by
  rw [tested, same, tested]

abbrev names (defines : List Define) : List String :=
  defines.map Define.name

theorem names_noteUse (enclosing : List String) (condition : Text) (defines : List Define)
    (name : String) : names (noteUse enclosing condition defines name) =
      Table.addKey (names defines) name := by
  unfold noteUse
  apply Table.map_upsert Define.name
  · intro d
    split <;> rfl
  · rfl

theorem names_noteLine (stack : Condition.Stack) (defines : List Define) (line : Text) :
    names (noteLine stack defines line) = (tested line).foldl Table.addKey (names defines) := by
  have uses (enclosing : List String) (condition : Text) (tests : List String) :
      names (tests.foldl (noteUse enclosing condition) defines) =
        tests.foldl Table.addKey (names defines) := by
    induction tests generalizing defines with
    | nil => rfl
    | cons name tests ih => rw [List.foldl_cons, ih, names_noteUse, List.foldl_cons]
  unfold noteLine tested
  cases Directive.parse? line with
  | none => rfl
  | some directive =>
    obtain ⟨name, condition⟩ := directive
    dsimp only
    split
    · exact uses _ _ _
    · rfl

@[simp] theorem setProperty_name (d : Define) (property : String × Option Text) :
    (setProperty d property).name = d.name := by
  unfold setProperty
  split <;> rfl

theorem foldl_setProperty_name (properties : List (String × Option Text)) (d : Define) :
    (properties.foldl setProperty d).name = d.name := by
  induction properties generalizing d with
  | nil => rfl
  | cons property properties ih => rw [List.foldl_cons, ih, setProperty_name]

theorem mem_names_applyMeta {defines : List Define} {name : String} (known : name ∈ names defines)
    (args : Text) : name ∈ names (applyMeta defines args) := by
  unfold applyMeta
  dsimp only
  split
  · exact known
  · have kept (d : Define) := foldl_setProperty_name (properties (Text.spanIdent args).2) d
    rw [names, Table.map_upsert Define.name (String.ofList (Text.spanIdent args).1) kept (kept _),
      Table.mem_addKey]
    exact Or.inl known

theorem mem_names_scanLine {defines : List Define} {stack : Condition.Stack} {line : Text}
    {name : String} (known : name ∈ names defines ∨ name ∈ tested line) :
    name ∈ names (scanLine (defines, stack) line).1 := by
  have noted : name ∈ names (noteLine stack defines line) := by
    rw [names_noteLine, Table.mem_foldl_addKey]
    exact known
  unfold scanLine
  dsimp only
  split
  · exact mem_names_applyMeta noted _
  · exact noted

theorem mem_names_foldl_scanLine {lines : List Text} {state : List Define × Condition.Stack}
    {name : String} (known : name ∈ names state.1 ∨ ∃ line ∈ lines, name ∈ tested line) :
    name ∈ names (lines.foldl scanLine state).1 := by
  induction lines generalizing state with
  | nil => simpa using known
  | cons line lines ih =>
    rw [List.foldl_cons]
    apply ih
    rcases known with before | ⟨line', member, tests⟩
    · exact Or.inl (mem_names_scanLine (Or.inl before))
    · rcases List.mem_cons.1 member with rfl | later
      · exact Or.inl (mem_names_scanLine (Or.inr tests))
      · exact Or.inr ⟨line', later, tests⟩

theorem mem_names_scan {t line : Text} (member : line ∈ Text.lines t) {name : String}
    (tests : name ∈ tested line) : name ∈ names (scan t) :=
  mem_names_foldl_scanLine (Or.inr ⟨line, member, tests⟩)

end Define

namespace Condition.Stack

theorem mem_identifiers {stack : Stack} {name : String} :
    name ∈ stack.identifiers ↔ name ∈ stack.flatten := by
  simp [identifiers, List.mem_flatten]

theorem mem_flatten_update {stack : Stack} {line : Text} {name : String}
    (member : name ∈ (stack.update line).flatten) :
    name ∈ stack.flatten ∨ name ∈ Define.tested line := by
  unfold update at member
  split at member
  case h_1 condition parsed | h_2 condition parsed | h_3 condition parsed =>
    rw [Define.tested_of_conditional parsed (by decide)]
    exact (List.mem_append.1 member).symm
  case h_4 condition parsed =>
    rw [Define.tested_of_conditional parsed (by decide)]
    cases stack with
    | nil => exact Or.inr (by simpa using member)
    | cons frame outer =>
      rw [List.flatten_cons, List.mem_append, Table.mem_foldl_addKey] at member
      rw [List.flatten_cons, List.mem_append]
      rcases member with (inside | tested) | outside
      · exact Or.inl (Or.inl inside)
      · exact Or.inr tested
      · exact Or.inl (Or.inr outside)
  case h_5 _ parsed =>
    obtain ⟨frame, later, named⟩ := List.mem_flatten.1 member
    exact Or.inl (List.mem_flatten.2 ⟨frame, List.mem_of_mem_drop later, named⟩)
  case h_6 => exact Or.inl member

end Condition.Stack

end ShaderPass
