import ShaderPass.Proofs.Declaration.LayoutText
import ShaderPass.Proofs.Subpass.Collection
import ShaderPass.Proofs.Text.Lines
import ShaderPass.Text.Numeral

/-! What the declarations of a subpass statement introduce: in every dialect the same names, and for
each of them the number of the statement's attachment. -/
namespace ShaderPass.Subpass

open Compile

inductive Introduction where
  | declaration (key : Text) (number : Nat) (name : Text)
  | define (name value : Text)
  deriving Repr, DecidableEq

namespace Introduction

def name : Introduction → Text
  | declaration _ _ name => name
  | define name _ => name

def read? (line : Text) : Option Introduction :=
  match Text.fields line with
  | [directive, name, value] =>
    if directive = "#define".toList then some (define name value) else none
  | layout :: _ :: number :: rest => do
    let key ← Text.after? "layout(".toList layout
    let n ← natOfDigits? 10 (← Text.before? [')'] number)
    let name ← Text.before? [';'] (← rest.getLast?)
    return declaration key n name
  | _ => none

/-- Stands for the attachment of number `n`: by its layout, by the builtin array of the last colors,
or as a name for a variable of that number which is introduced beside it. -/
inductive Carries (beside : List Introduction) (n : Nat) : Introduction → Prop
  | location (name : Text) : Carries beside n (declaration "location".toList n name)
  | input (name : Text) : Carries beside n (declaration "input_attachment_index".toList n name)
  | fetch (name : Text) : Carries beside n (define name s!"gl_LastFragData[{n}]".toList)
  | same {name other : Text} (introduced : declaration "location".toList n other ∈ beside) :
    Carries beside n (define name other)

end Introduction

/-- The names that a color statement gives a shader: its own, and one more for the old value of what is
both read and written. -/
def Statement.introduces (s : Statement) : List Text :=
  if s.access = .readWrite then [s.name.toList, (s.name ++ "_input").toList] else [s.name.toList]

structure Statement.Worded (s : Statement) : Prop where
  name : Text.IsField s.name.toList
  precision : ∀ p ∈ s.precision, Text.IsField p.toList

theorem worded_of_mem_declared {t : Text} {s : Statement} (member : s ∈ declared t) : s.Worded := by
  obtain ⟨⟨make, i⟩, place, rfl⟩ := List.mem_map.1 member
  obtain ⟨line, -, accepted⟩ := List.mem_filterMap.1 (List.fst_mem_of_mem_zipIdx place)
  simp only [Statement.accepted?, Option.bind_eq_bind, Option.bind_eq_some_iff,
    Option.ite_none_right_eq_some, Option.some.injEq] at accepted
  obtain ⟨⟨_, args⟩, -, -, -, -, -, ⟨access, precision, name⟩, arguments, -, rfl⟩ := accepted
  have words {w : String} (listed : w ∈ (Text.fields args).map String.ofList) :
      Text.IsField w.toList := by
    obtain ⟨v, field, rfl⟩ := List.mem_map.1 listed
    rw [String.toList_ofList]
    exact Text.isField_of_mem_fields field
  unfold arguments? at arguments
  split at arguments
  · rename_i a p n given
    obtain ⟨_, -, same⟩ := Option.map_eq_some_iff.1 arguments
    obtain ⟨rfl, rfl, rfl⟩ : _ ∧ some p = precision ∧ n = name := by simpa using same
    exact ⟨words (by simp [given]), fun q hq => words (by simp_all)⟩
  · rename_i a n given
    obtain ⟨_, -, same⟩ := Option.map_eq_some_iff.1 arguments
    obtain ⟨rfl, rfl, rfl⟩ : _ ∧ none = precision ∧ n = name := by simpa using same
    exact ⟨words (by simp [given]), by simp⟩
  · cases arguments

theorem isField_digits (n : Nat) : Text.IsField (toString n).toList := by
  rw [Nat.toString_eq_repr, Nat.toList_repr]
  refine ⟨Nat.toDigits_ne_nil, fun c hc => Layout.isBlank_of_isIdentChar ?_⟩
  have := Nat.isDigit_of_mem_toDigits (by decide) (by decide) hc
  simp [isIdentChar, Char.isAlphanum, this]

theorem natOfDigits?_toString (n : Nat) : natOfDigits? 10 (toString n).toList = some n := by
  rw [Nat.toString_eq_repr, Nat.toList_repr, natOfDigits?, if_neg (by simp),
    Layout.digitsFrom?_of_isDigit, Nat.ofDigitChars_ten_toDigits]
  exact fun c hc => Nat.isDigit_of_mem_toDigits (by decide) (by decide) hc

def declarationWords (key : Text) (s : Statement) (qualifier type name : Text) : List Text :=
  ["layout(".toList ++ key, ['='], (toString s.index).toList ++ [')'], qualifier] ++
    (s.precision.map String.toList).toList ++ [s.component.mark.toList ++ type, name ++ [';']]

theorem toString_string (s : String) : toString s = s := rfl

theorem toList_output (s : Statement) (qualifier : String) :
    (s.output qualifier).toList = Text.joinWith [' ']
      (declarationWords "location".toList s qualifier.toList "vec4".toList s.name.toList) := by
  unfold Statement.output Statement.precisionMark declarationWords
  cases s.precision <;> simp [Text.joinWith, toString_string]

theorem toList_input (s : Statement) (name : String) :
    (s.input name).toList = Text.joinWith [' '] (declarationWords "input_attachment_index".toList s
      "uniform".toList "subpassInput".toList name.toList) := by
  unfold Statement.input Statement.precisionMark declarationWords
  cases s.precision <;> simp [Text.joinWith, toString_string]

theorem before?_append (s t : Text) : Text.before? t (s ++ t) = some s :=
  Text.before?_eq_some_iff.2 rfl

theorem after?_append (s t : Text) : Text.after? s (s ++ t) = some t :=
  Text.after?_eq_some_iff.2 rfl

theorem isField_of_mem_declarationWords {s : Statement} (h : s.Worded)
    {key qualifier type name : Text} (key_word : ∀ c ∈ key, isBlank c = false)
    (qualifier_word : Text.IsField qualifier) (type_word : Text.IsField type)
    (name_word : Text.IsField name) {w : Text}
    (member : w ∈ declarationWords key s qualifier type name) : Text.IsField w := by
  have mark : ∀ c ∈ s.component.mark.toList, isBlank c = false := by
    cases s.component <;> exact Text.isBlank_of_all (by decide)
  simp only [declarationWords, List.mem_append, List.mem_cons, List.not_mem_nil, or_false,
    Option.mem_toList, Option.map_eq_some_iff] at member
  rcases member with ((rfl | rfl | rfl | rfl) | ⟨p, hp, rfl⟩) | rfl | rfl
  · have layout : Text.IsField "layout(".toList := by decide
    exact layout.append key_word
  · exact by decide
  · exact (isField_digits s.index).append (Text.isBlank_of_all (by decide))
  · exact qualifier_word
  · exact h.precision p hp
  · refine ⟨by simp [type_word.1], fun c hc => ?_⟩
    exact (List.mem_append.1 hc).elim (mark c) (type_word.2 c)
  · exact name_word.append (Text.isBlank_of_all (by decide))

namespace Introduction

theorem read?_declaration {s : Statement} (h : s.Worded) {key qualifier type name : Text}
    (key_word : ∀ c ∈ key, isBlank c = false) (qualifier_word : Text.IsField qualifier)
    (type_word : Text.IsField type) (name_word : Text.IsField name) :
    read? (Text.joinWith [' '] (declarationWords key s qualifier type name)) =
      some (declaration key s.index name) := by
  rw [read?, Text.fields_joinWith fun w hw =>
    isField_of_mem_declarationWords h key_word qualifier_word type_word name_word hw]
  unfold declarationWords
  cases s.precision with
  | none =>
    simp only [List.cons_append, List.nil_append, Option.map_none, Option.toList_none,
      after?_append, before?_append, natOfDigits?_toString, Option.bind_eq_bind, Option.bind_some,
      List.getLast?_cons_cons, List.getLast?_singleton]
    rfl
  | some p =>
    simp only [List.cons_append, List.nil_append, Option.map_some, Option.toList_some,
      after?_append, before?_append, natOfDigits?_toString, Option.bind_eq_bind, Option.bind_some,
      List.getLast?_cons_cons, List.getLast?_singleton]
    rfl

theorem read?_define {name value : Text} (name_word : Text.IsField name)
    (value_word : Text.IsField value) :
    read? (Text.joinWith [' '] ["#define".toList, name, value]) = some (define name value) := by
  have words : ∀ w ∈ ["#define".toList, name, value], Text.IsField w := by
    simp only [List.mem_cons, List.not_mem_nil, or_false]
    rintro w (rfl | rfl | rfl)
    · exact by decide
    · exact name_word
    · exact value_word
  rw [read?, Text.fields_joinWith words]
  exact if_pos rfl

end Introduction

/-- Lines that introduce the names of a statement, each with the statement's number. -/
def Introduces (s : Statement) (lines : List String) : Prop :=
  ∃ introductions : List Introduction,
    lines.map (fun line => Introduction.read? line.toList) = introductions.map some ∧
    (∀ i ∈ introductions, i.Carries introductions s.index) ∧
    (introductions.map Introduction.name).Perm s.introduces

theorem introduces_one {s : Statement} {line : String} {i : Introduction}
    (single : s.access ≠ .readWrite) (read : Introduction.read? line.toList = some i)
    (carries : i.Carries [i] s.index) (named : i.name = s.name.toList) : Introduces s [line] := by
  refine ⟨[i], by simp [read], by simpa using carries, ?_⟩
  simp [Statement.introduces, single, named]

theorem introduces_two {s : Statement} {first second : String} {i j : Introduction}
    (read : Introduction.read? first.toList = some i) (read' : Introduction.read? second.toList = some j)
    (carries : i.Carries [i, j] s.index) (carries' : j.Carries [i, j] s.index)
    (named : [i.name, j.name].Perm s.introduces) : Introduces s [first, second] :=
  ⟨[i, j], by simp [read, read'], by simpa using ⟨carries, carries'⟩, named⟩

section Dialects

open Introduction

theorem isField_fetch (n : Nat) : Text.IsField s!"gl_LastFragData[{n}]".toList := by
  have front : Text.IsField "gl_LastFragData[".toList := by decide
  have := (front.append (isField_digits n).2).append (w := [']']) (Text.isBlank_of_all (by decide))
  simpa [toString_string] using this

variable {s : Statement} (h : s.Worded)

include h

theorem read?_output (qualifier : String) (word : Text.IsField qualifier.toList) :
    read? (s.output qualifier).toList = some (declaration "location".toList s.index s.name.toList) := by
  rw [toList_output]
  exact read?_declaration h (Text.isBlank_of_all (by decide)) word (by decide) h.name

theorem read?_input {name : String} (word : Text.IsField name.toList) :
    read? (s.input name).toList =
      some (declaration "input_attachment_index".toList s.index name.toList) := by
  rw [toList_input]
  exact read?_declaration h (Text.isBlank_of_all (by decide)) (by decide) (by decide) word

theorem isField_input : Text.IsField (s.name ++ "_input").toList := by
  rw [String.toList_append]
  exact h.name.append (Text.isBlank_of_all (by decide))

theorem read?_same : read? s!"#define {s.name}_input {s.name}".toList =
    some (define (s.name ++ "_input").toList s.name.toList) := by
  rw [← read?_define (isField_input h) h.name]
  simp [Text.joinWith, toString_string]

theorem read?_fetch : read? s!"#define {s.name} gl_LastFragData[{s.index}]".toList =
    some (define s.name.toList s!"gl_LastFragData[{s.index}]".toList) := by
  rw [← read?_define h.name (isField_fetch s.index)]
  simp [Text.joinWith, toString_string]

theorem read?_oldFetch : read? s!"#define {s.name}_input gl_LastFragData[{s.index}]".toList =
    some (define (s.name ++ "_input").toList s!"gl_LastFragData[{s.index}]".toList) := by
  rw [← read?_define (isField_input h) (isField_fetch s.index)]
  simp [Text.joinWith, toString_string]

theorem introduces_renderAttachment : Introduces s s.renderAttachment := by
  unfold Statement.renderAttachment
  have out := read?_output h "out" (by decide)
  cases access : s.access with
  | read => exact introduces_one (by simp [access]) (read?_input h h.name) (.input _) rfl
  | write => exact introduces_one (by simp [access]) out (.location _) rfl
  | readWrite =>
    apply introduces_two (read?_input h (isField_input h)) out (.input _) (.location _)
    simpa [Statement.introduces, access, Introduction.name] using List.Perm.swap _ _ _

theorem introduces_renderInOut (color : s.attachment = .color) : Introduces s s.renderInOut := by
  unfold Statement.renderInOut
  have out := read?_output h "out" (by decide)
  have inOut := read?_output h "inout" (by decide)
  rw [color]
  cases access : s.access with
  | read => exact introduces_one (by simp [access]) inOut (.location _) rfl
  | write => exact introduces_one (by simp [access]) out (.location _) rfl
  | readWrite =>
    apply introduces_two inOut (read?_same h) (.location _) (.same List.mem_cons_self)
    simp [Statement.introduces, access, Introduction.name]

theorem introduces_renderFetch (color : s.attachment = .color) : Introduces s s.renderFetch := by
  unfold Statement.renderFetch
  have out := read?_output h "out" (by decide)
  rw [color]
  cases access : s.access with
  | read => exact introduces_one (by simp [access]) (read?_fetch h) (.fetch _) rfl
  | write => exact introduces_one (by simp [access]) out (.location _) rfl
  | readWrite =>
    apply introduces_two out (read?_oldFetch h) (.location _) (.fetch _)
    simp [Statement.introduces, access, Introduction.name]

theorem introduces_render (color : s.attachment = .color) (version : Nat) :
    Introduces s (s.render version) := by
  unfold Statement.render
  split
  · exact introduces_renderAttachment h
  · split
    · exact introduces_renderInOut h color
    · exact introduces_renderFetch h color

theorem feed_notMem_output (qualifier : String) (word : Text.IsField qualifier.toList) :
    '\n' ∉ (s.output qualifier).toList := by
  rw [toList_output]
  apply Text.feed_notMem_joinWith
  intro w member
  exact isField_of_mem_declarationWords h (Text.isBlank_of_all (by decide)) word (by decide) h.name member

theorem feed_notMem_input {name : String} (word : Text.IsField name.toList) :
    '\n' ∉ (s.input name).toList := by
  rw [toList_input]
  apply Text.feed_notMem_joinWith
  intro w member
  exact isField_of_mem_declarationWords h (Text.isBlank_of_all (by decide)) (by decide) (by decide)
    word member

theorem feed_notMem_render {version : Nat} {line : String} (member : line ∈ s.render version) :
    '\n' ∉ line.toList := by
  have out := feed_notMem_output h "out" (by decide)
  have inOut := feed_notMem_output h "inout" (by decide)
  have name : '\n' ∉ s.name.toList := fun feed => nomatch h.name.2 _ feed
  have number : '\n' ∉ Nat.toDigits 10 s.index := by
    rw [← Nat.toList_repr, ← Nat.toString_eq_repr]
    exact fun feed => nomatch (isField_digits s.index).2 _ feed
  unfold Statement.render at member
  split at member
  · unfold Statement.renderAttachment at member
    split at member <;> simp only [List.mem_cons, List.not_mem_nil, or_false] at member
    · exact member ▸ feed_notMem_input h h.name
    · exact member ▸ out
    · rcases member with rfl | rfl
      · exact feed_notMem_input h (isField_input h)
      · exact out
  · have fetched : '\n' ∉ s.depthStencil.toList := by
      unfold Statement.depthStencil
      split <;> simp [toString_string, name]
    split at member
    · unfold Statement.renderInOut at member
      split at member <;> simp only [List.mem_cons, List.not_mem_nil, or_false] at member
      · exact member ▸ out
      · exact member ▸ inOut
      · rcases member with rfl | rfl
        · exact inOut
        · simp [toString_string, name]
      · exact member ▸ fetched
    · unfold Statement.renderFetch at member
      split at member <;> simp only [List.mem_cons, List.not_mem_nil, or_false] at member
      · exact member ▸ out
      · simp [member, toString_string, name, number]
      · rcases member with rfl | rfl
        · exact out
        · simp [toString_string, name, number]
      · exact member ▸ fetched

end Dialects

theorem feed_notMem_preamble {statements : List Statement} {line : String}
    (member : line ∈ preamble statements) : '\n' ∉ line.toList := by
  unfold preamble at member
  simp only [List.mem_append, List.mem_ite_nil_right, List.mem_singleton] at member
  rcases member with (⟨-, rfl⟩ | ⟨-, rfl⟩) | ⟨-, rfl⟩ <;> decide +kernel

theorem Statement.render_ne_nil (s : Statement) (version : Nat) : s.render version ≠ [] := by
  unfold Statement.render Statement.renderAttachment Statement.renderInOut Statement.renderFetch
  split
  · split <;> exact List.cons_ne_nil _ _
  · split <;> split <;> exact List.cons_ne_nil _ _

theorem feedLines_render {statements : List Statement} (some_statement : statements ≠ [])
    (worded : ∀ s ∈ statements, s.Worded) (version : Nat) :
    Text.feedLines (render statements version) =
      ((if version < 450 then preamble statements else []) ++
        statements.flatMap fun s => s.render version).map String.toList := by
  apply Text.splitOn_joinWith
  · obtain ⟨s, rest, rfl⟩ := List.exists_cons_of_ne_nil some_statement
    simp [s.render_ne_nil version]
  · intro piece member
    obtain ⟨line, among, rfl⟩ := List.mem_map.1 member
    rcases List.mem_append.1 among with front | declared
    · split at front
      · exact feed_notMem_preamble front
      · cases front
    · obtain ⟨s, known, rendered⟩ := List.mem_flatMap.1 declared
      exact feed_notMem_render (worded s known) rendered

/-- Expansion in every dialect. The well-formed statements are numbered by their lines. Without any the
text stays as it is; otherwise statement lines are blanked, every anchor becomes the rendering of the
statements in their order, and the other lines stay. In all renderings a color statement introduces the
same names, each with its own number. -/
theorem expand_attachments (t : Text) (version : Nat) {r s : Report} {output : Text}
    (expanded : (expand t version).runWith r = (.ok output, s)) :
    ((collect t).runWith r).1 = .ok (declared t) ∧
    (∀ line, (Statement.accepted? line).isSome → isStatement line = true ∧ isAnchor line = false) ∧
    (declared t).map Statement.index = List.range (declared t).length ∧
    (declared t = [] → output = t) ∧
    (declared t ≠ [] → ∃ (ordered : List Statement) (pieces : List Text),
      ordered.Perm (declared t) ∧ ordered.Pairwise Statement.Before ∧
      List.Forall₂ (Replaces (render ordered version)) (Text.feedLines t) pieces ∧
      output = Text.joinFeeds pieces ∧
      ∀ v, Text.feedLines (render ordered v) =
        ((if v < 450 then preamble ordered else []) ++
          ordered.flatMap fun s => s.render v).map String.toList) ∧
    ∀ s ∈ declared t, s.attachment = .color → ∀ v, Introduces s (s.render v) := by
  have worded {s : Statement} (member : s ∈ declared t) := worded_of_mem_declared member
  refine ⟨runWith_collect_of_expand expanded, fun line => isStatement_of_accepted?,
    map_index_declared t, ?_, ?_,
    fun s member color v => introduces_render (worded member) color v⟩
  · intro none
    rcases expand_cases expanded with ⟨-, same⟩ | ⟨some_statement, -⟩
    · exact same
    · exact absurd none some_statement
  · intro some_statement
    rcases expand_cases expanded with ⟨none, -⟩ | ⟨-, pieces, joined, replaced⟩
    · exact absurd none some_statement
    · have permuted := List.mergeSort_perm (declared t) Statement.precedes
      refine ⟨_, pieces, permuted, pairwise_mergeSort _, replaced, joined, fun v => ?_⟩
      apply feedLines_render
      · intro none
        rw [none] at permuted
        exact some_statement permuted.symm.eq_nil
      · exact fun s member => worded (permuted.mem_iff.1 member)

/-- An output and one that is read too, with a malformed statement between them. -/
theorem expand_attachments_mixed :
    let t := ("#pragma subpass\n#pragma subpassColor out a\n#pragma subpassDepth out d\n" ++
      "#pragma isubpassColor inout highp c").toList
    (declared t).map (fun s => (s.name, s.index)) = [("a", 0), ("c", 1)] ∧
    ∃ output s, (expand t 300).runWith Report.quiet = (.ok output, s) ∧
      (∃ (ordered : List Statement) (pieces : List Text),
        ordered.Perm (declared t) ∧ ordered.Pairwise Statement.Before ∧
        List.Forall₂ (Replaces (render ordered 300)) (Text.feedLines t) pieces ∧
        output = Text.joinFeeds pieces) ∧
      ∀ s ∈ declared t, s.attachment = .color → ∀ v, Introduces s (s.render v) := by
  intro t
  have named : (declared t).map (fun s => (s.name, s.index)) = [("a", 0), ("c", 1)] := by
    decide +kernel
  have returns : (outcome (expand t 300)).isSome = true := by decide +kernel
  rcases run : (expand t 300).runWith Report.quiet with ⟨result, s⟩
  rw [outcome, run] at returns
  cases result with
  | error failure => cases returns
  | ok output =>
    obtain ⟨-, -, -, -, lines, introduces⟩ := expand_attachments t 300 run
    have some_statement : declared t ≠ [] := by
      intro none
      rw [none] at named
      cases named
    obtain ⟨ordered, pieces, permuted, sorted, replaced, joined, -⟩ := lines some_statement
    exact ⟨named, output, s, rfl, ⟨ordered, pieces, permuted, sorted, replaced, joined⟩, introduces⟩

end ShaderPass.Subpass
