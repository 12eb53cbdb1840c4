import Mathlib.Data.List.Induction
import ShaderPass.Proofs.Macro.Regular
import ShaderPass.Proofs.Text.Rewording

/-! What a further literal macro changes. Values are expanded with the macros known at their declaration,
and read once more where they are put in place: so the new macro shows in those that mention it. -/
namespace ShaderPass.Macro

open ShaderPass.Text

section Words

variable {s t : Text} {f g : Text → Text}

theorem mapWords_append (free : isFree t.head? = true) (f : Text → Text) (s : Text) :
    mapWords f (s ++ t) = mapWords f s ++ mapWords f t := by
  cases t with
  | nil => rw [List.append_nil, mapWords_nil, List.append_nil]
  | cons c t =>
    have plain : isIdentChar c = false := by simpa [isFree] using free
    rw [mapWords_append_cons plain, mapWords_cons plain]

theorem isFree_mapWords (free : isFree t.head? = true) (f : Text → Text) :
    isFree (mapWords f t).head? = true := by
  cases t with
  | nil => rw [mapWords_nil]; rfl
  | cons c t =>
    have plain : isIdentChar c = false := by simpa [isFree] using free
    rw [mapWords_cons plain]
    exact isFree_cons plain

theorem mapWords_mapWords (f g : Text → Text) (t : Text) :
    mapWords g (mapWords f t) = mapWords (fun w => mapWords g (f w)) t := by
  induction t using word_induction with
  | nil => rw [mapWords_nil, mapWords_nil, mapWords_nil]
  | char c t plain ih => rw [mapWords_cons plain, mapWords_cons plain, mapWords_cons plain, ih]
  | word w t isWord free ih =>
    rw [mapWords_word isWord free, mapWords_word isWord free, mapWords_append (isFree_mapWords free f), ih]

theorem words_mapWords (f : Text → Text) (t : Text) :
    words (mapWords f t) = (words t).flatMap fun w => words (f w) := by
  induction t using word_induction with
  | nil => rw [mapWords_nil]; rfl
  | char c t plain ih => rw [mapWords_cons plain, words_cons plain, words_cons plain, ih]
  | word w t isWord free ih =>
    rw [mapWords_word isWord free, words_append (isFree_mapWords free f), words_append_word isWord free, ih,
      List.flatMap_cons]

theorem mapWords_congr (same : ∀ w ∈ words t, f w = g w) : mapWords f t = mapWords g t := by
  induction t using word_induction with
  | nil => rw [mapWords_nil, mapWords_nil]
  | char c t plain ih =>
    rw [words_cons plain] at same
    rw [mapWords_cons plain, mapWords_cons plain, ih same]
  | word w t isWord free ih =>
    rw [words_append_word isWord free] at same
    rw [mapWords_word isWord free, mapWords_word isWord free, same w List.mem_cons_self,
      ih fun v hv => same v (List.mem_cons_of_mem _ hv)]

theorem mapWords_id (t : Text) : mapWords (fun w => w) t = t := by
  induction t using word_induction with
  | nil => rw [mapWords_nil]
  | char c t plain ih => rw [mapWords_cons plain, ih]
  | word w t isWord free ih => rw [mapWords_word isWord free, ih]

theorem mapWords_joinFeeds (f : Text → Text) (ts : List Text) :
    mapWords f (joinFeeds ts) = joinFeeds (ts.map (mapWords f)) := by
  induction ts with
  | nil => exact mapWords_nil f
  | cons t ts ih =>
    cases ts with
    | nil => rfl
    | cons u ts =>
      have plain : isIdentChar '\n' = false := by decide
      rw [List.map_cons, List.map_cons, joinFeeds, joinFeeds, joinWith_cons_cons, joinWith_cons_cons,
        mapWords_append_cons plain]
      exact congrArg (mapWords f t ++ '\n' :: ·) ih

theorem eq_mapWords_of_reworded {u : Text} (h : Reworded (fun w _ r => r = f w) t u) : u = mapWords f t := by
  induction h with
  | nil => exact (mapWords_nil f).symm
  | char plain _ ih => rw [mapWords_cons plain, ← ih]
  | word isWord free same _ ih => rw [mapWords_word isWord free, ← ih, same]

theorem replaceWord_eq_mapWords {name : Text} (isWord : IsWord name) (t value : Text) :
    replaceWord t name value = mapWords (fun w => if w = name then value else w) t :=
  eq_mapWords_of_reworded (reworded_replaceWord isWord t value)

theorem replaceWord_of_notMem {name : Text} (isWord : IsWord name) (absent : name ∉ words t)
    (value : Text) : replaceWord t name value = t := by
  have kept : ∀ w ∈ words t, (if w = name then value else w) = w := by
    intro w member
    refine if_neg ?_
    rintro rfl
    exact absent member
  rw [replaceWord_eq_mapWords isWord, mapWords_congr kept, mapWords_id]

theorem mem_words_replaceWord {name : Text} (isWord : IsWord name) {value w : Text}
    (member : w ∈ words (replaceWord t name value)) :
    w ∈ words t ∨ name ∈ words t ∧ w ∈ words value := by
  rw [replaceWord_eq_mapWords isWord, words_mapWords, List.mem_flatMap] at member
  obtain ⟨v, listed, inside⟩ := member
  split at inside
  · rename_i same
    exact Or.inr ⟨same ▸ listed, inside⟩
  · rw [words_of_isWord (isWord_of_mem_words listed), List.mem_singleton] at inside
    exact Or.inl (inside ▸ listed)

end Words

section Declaring

def declare (known : List Literal) (m : Literal) : List Literal :=
  known ++ [⟨m.name, substitute known m.value⟩]

theorem substitute_declare (known : List Literal) (m : Literal) (t : Text) :
    substitute (declare known m) t = replaceWord (substitute known t) m.name (substitute known m.value) := by
  rw [substitute, declare, List.foldl_append]
  rfl

/-- Whether a text comes to name a macro: as it is expanded with the macros in `known`, or through the
value of one in `later` that it comes to name. -/
inductive Mentions (known later : List Literal) (name : Text) : Text → Prop where
  | here {t : Text} : name ∈ words (substitute known t) → Mentions known later name t
  | through {t : Text} {m : Literal} : m ∈ later → m.name ∈ words (substitute known t) →
    Mentions known later name m.value → Mentions known later name t

variable {known later later' : List Literal} {name t : Text} {m : Literal}

theorem Mentions.mono (h : Mentions known later name t) (sub : later ⊆ later') :
    Mentions known later' name t := by
  induction h with
  | here named => exact .here named
  | through listed named _ ih => exact .through (sub listed) named ih

theorem Mentions.trans (h : Mentions known later m.name t) (listed : m ∈ later)
    (next : Mentions known later name m.value) : Mentions known later name t := by
  induction h with
  | here named => exact .through listed named next
  | through other named _ ih => exact .through other named ih

theorem not_mentions {texts : List Text} (closed : ∀ t ∈ texts, name ∉ words (substitute known t) ∧
      ∀ m ∈ later, m.name ∈ words (substitute known t) → m.value ∈ texts) (member : t ∈ texts) :
    ¬ Mentions known later name t := by
  intro h
  induction h with
  | here named => exact (closed _ member).1 named
  | through listed named _ ih => exact ih ((closed _ member).2 _ listed named)

theorem mentions_of_mem_words (names : ∀ m ∈ later, IsWord m.name)
    (member : name ∈ words (substitute (later.foldl declare known) t)) :
    Mentions known later name t := by
  induction later using List.reverseRecOn generalizing name t with
  | nil => exact .here member
  | append_singleton later m ih =>
    have before : ∀ m ∈ later, IsWord m.name := fun m hm => names m (List.mem_append_left _ hm)
    have listed : m ∈ later ++ [m] := List.mem_append_right _ List.mem_cons_self
    rw [List.foldl_append, List.foldl_cons, List.foldl_nil, substitute_declare] at member
    rcases mem_words_replaceWord (names m listed) member with stays | ⟨named, inside⟩
    · exact (ih before stays).mono (List.subset_append_left _ _)
    · exact ((ih before named).mono (List.subset_append_left _ _)).trans listed
        ((ih before inside).mono (List.subset_append_left _ _))

/-- A macro that is declared before others changes nothing in a text that does not come to name it. -/
theorem substitute_of_not_mentions (isWord : IsWord m.name) (names : ∀ m ∈ later, IsWord m.name)
    (other : ¬ Mentions known later m.name t) :
    substitute (later.foldl declare (declare known m)) t = substitute (later.foldl declare known) t := by
  induction later using List.reverseRecOn generalizing t with
  | nil =>
    refine (substitute_declare known m t).trans ?_
    exact replaceWord_of_notMem isWord (fun named => other (.here named)) _
  | append_singleton later l ih =>
    have before : ∀ m ∈ later, IsWord m.name := fun m hm => names m (List.mem_append_left _ hm)
    have listed : l ∈ later ++ [l] := List.mem_append_right _ List.mem_cons_self
    have same := ih before fun mentions => other (mentions.mono (List.subset_append_left _ _))
    rw [List.foldl_append, List.foldl_append, List.foldl_cons, List.foldl_cons, List.foldl_nil,
      List.foldl_nil, substitute_declare, substitute_declare, same]
    by_cases named : l.name ∈ words (substitute (later.foldl declare known) t)
    · -- The value is put in place, so it does not name the macro either.
      have reached := (mentions_of_mem_words before named).mono (List.subset_append_left later [l])
      rw [ih before fun mentions => other (reached.trans listed (mentions.mono (List.subset_append_left _ _)))]
    · rw [replaceWord_of_notMem (names l listed) named, replaceWord_of_notMem (names l listed) named]

end Declaring

section Lines

/-- The literal macros that lines declare, with their values as they are written. -/
def written : List Text → List Literal
  | [] => []
  | line :: lines =>
    match pragma? line with
    | some (name, rest) =>
      if hasParams rest then written lines
      else
        have := length_continued_le (trim rest) lines
        ⟨name, trim (continued (trim rest) lines).1⟩ :: written (continued (trim rest) lines).2
    | none => written lines
termination_by lines => lines.length
decreasing_by all_goals simp only [List.length_cons]; omega

/-- The literal macros that lines declare, with their values expanded. -/
def literals (lines : List Text) : List Literal :=
  (scanLiterals [] lines).1

def ordinary (lines : List Text) : List Text :=
  (scanLiterals [] lines).2

/-- Whether a value continues behind a line, in front of which one does or does not. -/
def goesOn (continuing : Bool) (line : Text) : Bool :=
  if continuing then (trim line).getLast? = some '\\'
  else (pragma? line).any fun (_, rest) => !hasParams rest && (trim rest).getLast? = some '\\'

variable {known : List Literal} {lines after : List Text} {line name rest : Text}

theorem scanLiterals_other (other : ∀ name rest, pragma? line = some (name, rest) → hasParams rest = true) :
    scanLiterals known (line :: lines) =
      ((scanLiterals known lines).1, line :: (scanLiterals known lines).2) := by
  rw [scanLiterals]
  split
  · rename_i name rest found
    rw [if_pos (other name rest found)]
  · rfl

theorem scanLiterals_value (found : pragma? line = some (name, rest)) (plain : hasParams rest = false) :
    scanLiterals known (line :: lines) =
      ((scanLiterals (declare known ⟨name, trim (continued (trim rest) lines).1⟩)
          (continued (trim rest) lines).2).1,
        List.replicate (lines.length - (continued (trim rest) lines).2.length + 1) [] ++
          (scanLiterals (declare known ⟨name, trim (continued (trim rest) lines).1⟩)
            (continued (trim rest) lines).2).2) := by
  rw [scanLiterals, found]
  simp only [plain]
  rfl

theorem written_other (other : ∀ name rest, pragma? line = some (name, rest) → hasParams rest = true) :
    written (line :: lines) = written lines := by
  rw [written]
  split
  · rename_i name rest found
    rw [if_pos (other name rest found)]
  · rfl

theorem written_value (found : pragma? line = some (name, rest)) (plain : hasParams rest = false) :
    written (line :: lines) = ⟨name, trim (continued (trim rest) lines).1⟩ ::
      written (continued (trim rest) lines).2 := by
  rw [written, found]
  simp only [plain]
  rfl

theorem written_nil : written [] = [] := by
  rw [written]

theorem ordinary_nil : ordinary [] = [] := by
  rw [ordinary, scanLiterals]

theorem lines_induction {motive : List Text → Prop} (nil : motive [])
    (other : ∀ line lines, (∀ name rest, pragma? line = some (name, rest) → hasParams rest = true) →
      motive lines → motive (line :: lines))
    (value : ∀ line lines name rest, pragma? line = some (name, rest) → hasParams rest = false →
      motive (continued (trim rest) lines).2 → motive (line :: lines)) (lines : List Text) :
    motive lines := by
  fun_induction written lines with
  | case1 => exact nil
  | case2 line lines name rest found params ih =>
    refine other line lines (fun name' rest' found' => ?_) ih
    rw [found] at found'
    cases found'
    exact params
  | case3 line lines name rest found plain _ ih =>
    exact value line lines name rest found (Bool.not_eq_true _ ▸ plain) ih
  | case4 line lines none ih =>
    refine other line lines (fun name rest found => ?_) ih
    rw [none] at found
    cases found

theorem scanLiterals_eq (known : List Literal) (lines : List Text) :
    scanLiterals known lines = ((written lines).foldl declare known, ordinary lines) := by
  unfold ordinary
  induction lines using lines_induction generalizing known with
  | nil => rw [scanLiterals, scanLiterals, written_nil, List.foldl_nil]
  | other line lines plain ih =>
    rw [scanLiterals_other plain, scanLiterals_other plain, written_other plain, ih]
  | value line lines name rest found plain ih =>
    rw [scanLiterals_value found plain, scanLiterals_value found plain, written_value found plain,
      ih (declare known _), ih (declare [] _), List.foldl_cons]

theorem ordinary_other (other : ∀ name rest, pragma? line = some (name, rest) → hasParams rest = true) :
    ordinary (line :: lines) = line :: ordinary lines := by
  rw [ordinary, scanLiterals_other other, ordinary]

theorem ordinary_value (found : pragma? line = some (name, rest)) (plain : hasParams rest = false) :
    ordinary (line :: lines) =
      List.replicate (lines.length - (continued (trim rest) lines).2.length + 1) [] ++
        ordinary (continued (trim rest) lines).2 := by
  rw [ordinary, scanLiterals_value found plain, scanLiterals_eq]

theorem goesOn_other (other : ∀ name rest, pragma? line = some (name, rest) → hasParams rest = true) :
    goesOn false line = false := by
  unfold goesOn
  cases found : pragma? line with
  | none => rfl
  | some declared => simp [other declared.1 declared.2 found]

theorem goesOn_value (found : pragma? line = some (name, rest)) (plain : hasParams rest = false) :
    goesOn false line = decide ((trim rest).getLast? = some '\\') := by
  simp [goesOn, found, plain]

theorem continued_of_ne {value : Text} (ends : value.getLast? ≠ some '\\') (lines : List Text) :
    continued value lines = (value, lines) := by
  rw [continued.eq_def, if_neg ends]

theorem getLast?_continued (value next : Text) :
    (trimEnd value ++ ' ' :: trim next).getLast? = some '\\' ↔ (trim next).getLast? = some '\\' := by
  cases h : trim next with
  | nil => simp
  | cons c t => simp [List.getLast?_cons_cons]

theorem continued_append {value : Text} {lines : List Text}
    (closed : lines.foldl goesOn (value.getLast? = some '\\') = false) (after : List Text) :
    continued value (lines ++ after) =
        ((continued value lines).1, (continued value lines).2 ++ after) ∧
      (continued value lines).2.foldl goesOn false = false := by
  induction lines generalizing value with
  | nil =>
    have ends : value.getLast? ≠ some '\\' := of_decide_eq_false closed
    rw [List.nil_append, continued_of_ne ends, continued_of_ne ends]
    exact ⟨rfl, rfl⟩
  | cons next lines ih =>
    by_cases ends : value.getLast? = some '\\'
    · rw [List.cons_append, continued.eq_def, continued.eq_def value (next :: lines), if_pos ends, if_pos ends]
      refine ih ?_
      rw [← closed, List.foldl_cons, decide_eq_true ends, goesOn, if_pos rfl]
      simp only [getLast?_continued]
    · rw [continued_of_ne ends, continued_of_ne ends]
      rw [decide_eq_false ends] at closed
      exact ⟨rfl, closed⟩

theorem lines_append {before : List Text} (closed : before.foldl goesOn false = false) (after : List Text) :
    written (before ++ after) = written before ++ written after ∧
      ordinary (before ++ after) = ordinary before ++ ordinary after := by
  induction before using lines_induction with
  | nil =>
    rw [written_nil, ordinary_nil]
    exact ⟨rfl, rfl⟩
  | other line lines other ih =>
    rw [List.foldl_cons, goesOn_other other] at closed
    rw [List.cons_append, written_other other, written_other other, ordinary_other other, ordinary_other other,
      (ih closed).1, (ih closed).2]
    exact ⟨rfl, rfl⟩
  | value line lines name rest found plain ih =>
    rw [List.foldl_cons, goesOn_value found plain] at closed
    obtain ⟨split, closed⟩ := continued_append closed after
    rw [List.cons_append, written_value found plain, written_value found plain, ordinary_value found plain,
      ordinary_value found plain, split, (ih closed).1, (ih closed).2, List.length_append, List.length_append,
      Nat.add_sub_add_right, List.append_assoc]
    exact ⟨rfl, rfl⟩

theorem literals_eq (lines : List Text) : literals lines = (written lines).foldl declare [] := by
  rw [literals, scanLiterals_eq]

theorem isWord_of_mem_written {m : Literal} (member : m ∈ written lines) : IsWord m.name := by
  induction lines using lines_induction with
  | nil =>
    rw [written_nil] at member
    cases member
  | other line lines other ih =>
    rw [written_other other] at member
    exact ih member
  | value line lines name rest found plain ih =>
    rw [written_value found plain] at member
    rcases List.mem_cons.1 member with rfl | member
    · exact isWord_of_pragma? found
    · exact ih member

theorem isWord_of_mem_foldl {ms known : List Literal} (known_names : ∀ m ∈ known, IsWord m.name)
    (names : ∀ m ∈ ms, IsWord m.name) : ∀ m ∈ ms.foldl declare known, IsWord m.name := by
  induction ms generalizing known with
  | nil => exact known_names
  | cons m ms ih =>
    refine ih (fun l member => ?_) fun l member => names l (List.mem_cons_of_mem m member)
    rcases List.mem_append.1 member with old | new
    · exact known_names l old
    · rw [List.mem_singleton.1 new]
      exact names m List.mem_cons_self

theorem isWord_of_mem_literals {m : Literal} (member : m ∈ literals lines) : IsWord m.name := by
  rw [literals_eq] at member
  have none : ∀ m ∈ ([] : List Literal), IsWord m.name := fun _ listed => absurd listed List.not_mem_nil
  exact isWord_of_mem_foldl none (fun _ => isWord_of_mem_written) m member

theorem substitute_eq_mapWords {macros : List Literal} (names : ∀ m ∈ macros, IsWord m.name) (t : Text) :
    substitute macros t = mapWords (substitute macros) t := by
  induction macros using List.reverseRecOn with
  | nil => exact (mapWords_id t).symm
  | append_singleton macros m ih =>
    have step (t : Text) : substitute (macros ++ [m]) t =
        mapWords (fun w => if w = m.name then m.value else w) (substitute macros t) := by
      rw [substitute, List.foldl_append,
        ← replaceWord_eq_mapWords (names m (List.mem_append_right _ List.mem_cons_self))]
      rfl
    rw [step, ih fun l hl => names l (List.mem_append_left _ hl), mapWords_mapWords]
    exact mapWords_congr fun w _ => (step w).symm

theorem expandLiterals_eq (t : Text) : expandLiterals t =
    joinFeeds ((ordinary (feedLines t)).map (mapWords (substitute (literals (feedLines t))))) := by
  rw [← mapWords_joinFeeds, ← substitute_eq_mapWords fun _ => isWord_of_mem_literals]
  rfl

structure Entry (line name : Text) : Prop where
  one_line : '\n' ∉ line
  declares : ∃ rest, pragma? line = some (name, rest) ∧ hasParams rest = false ∧
    (trim rest).getLast? ≠ some '\\'

theorem Entry.exists_written (entry : Entry line name) (after : List Text) :
    ordinary (line :: after) = [] :: ordinary after ∧
      ∃ value, written (line :: after) = ⟨name, value⟩ :: written after := by
  obtain ⟨rest, found, plain, ends⟩ := entry.declares
  rw [ordinary_value found plain, written_value found plain, continued_of_ne ends, Nat.sub_self]
  exact ⟨rfl, _, rfl⟩

/-- A declaration of a literal macro that is added to a text leaves the other lines as they are, and changes
what is put in place of those words only that come to name the new macro: as they are expanded with the
macros declared in front of it, or through the value of one declared behind it. -/
theorem expandLiterals_insert {t line name : Text} {before after : List Text}
    (whole : feedLines t = before ++ after) (closed : before.foldl goesOn false = false)
    (entry : Entry line name) :
    expandLiterals t = joinFeeds ((ordinary before ++ ordinary after).map
      (mapWords (substitute (literals (before ++ after))))) ∧
    expandLiterals (joinFeeds (before ++ line :: after)) =
      joinFeeds ((ordinary before ++ [] :: ordinary after).map
        (mapWords (substitute (literals (before ++ line :: after))))) ∧
    ∀ w, ¬ Mentions (literals before) (written after) name w →
      substitute (literals (before ++ line :: after)) w = substitute (literals (before ++ after)) w := by
  obtain ⟨blank, value, adds⟩ := entry.exists_written after
  have lines : feedLines (joinFeeds (before ++ line :: after)) = before ++ line :: after := by
    have old : ∀ l ∈ before ++ after, '\n' ∉ l := by
      rw [← whole]
      exact fun l => notMem_of_mem_splitOn
    refine splitOn_joinWith (by simp) fun l member => ?_
    rcases List.mem_append.1 member with front | behind
    · exact old l (List.mem_append_left _ front)
    · rcases List.mem_cons.1 behind with rfl | behind
      · exact entry.one_line
      · exact old l (List.mem_append_right _ behind)
  refine ⟨?_, ?_, fun w other => ?_⟩
  · rw [expandLiterals_eq, whole, (lines_append closed after).2]
  · rw [expandLiterals_eq, lines, (lines_append closed (line :: after)).2, blank]
  · have isWord : IsWord name := by
      obtain ⟨rest, found, -⟩ := entry.declares
      exact isWord_of_pragma? found
    rw [literals_eq, literals_eq (before ++ after), (lines_append closed (line :: after)).1,
      (lines_append closed after).1, adds, List.foldl_append, List.foldl_append, List.foldl_cons]
    rw [literals_eq] at other
    have names : ∀ m ∈ written after, IsWord m.name := fun _ => isWord_of_mem_written
    exact substitute_of_not_mentions isWord names other

/-- A macro that is declared anew later keeps its first value in the values expanded before. -/
theorem expandLiterals_insert_redefined :
    expandLiterals (joinFeeds ["#pragma define A 1".toList, "#pragma define M A + B".toList,
      "#pragma define A 2".toList, "#pragma define B 3".toList, "int x = M;".toList]) =
        joinFeeds [[], [], [], [], "int x = 1 + 3;".toList] ∧
    substitute (literals ["#pragma define A 1".toList, "#pragma define M A + B".toList,
      "#pragma define A 2".toList, "#pragma define B 3".toList, "int x = M;".toList]) ['M'] =
    substitute (literals ["#pragma define A 1".toList, "#pragma define M A + B".toList,
      "#pragma define B 3".toList, "int x = M;".toList]) ['M'] := by
  have entry : Entry "#pragma define A 2".toList ['A'] :=
    ⟨by decide, " 2".toList, by decide +kernel⟩
  have whole : feedLines (joinFeeds ["#pragma define A 1".toList, "#pragma define M A + B".toList,
      "#pragma define B 3".toList, "int x = M;".toList]) =
        ["#pragma define A 1".toList, "#pragma define M A + B".toList] ++
          ["#pragma define B 3".toList, "int x = M;".toList] := by
    decide +kernel
  obtain ⟨-, changed, same⟩ := expandLiterals_insert whole (by decide +kernel) entry
  refine ⟨changed.trans (by decide +kernel), same _ ?_⟩
  have closed : ∀ t ∈ [['M'], ['3']], ['A'] ∉ words (substitute
      (literals ["#pragma define A 1".toList, "#pragma define M A + B".toList]) t) ∧
      ∀ m ∈ written ["#pragma define B 3".toList, "int x = M;".toList],
        m.name ∈ words (substitute
          (literals ["#pragma define A 1".toList, "#pragma define M A + B".toList]) t) →
        m.value ∈ [['M'], ['3']] := by
    decide +kernel
  exact not_mentions closed List.mem_cons_self

/-- A macro that a value names is put in place in it, although it is declared behind it. -/
theorem not_expandLiterals_insert :
    expandLiterals (joinFeeds ["#pragma define M N + 1".toList, "int x = M;".toList]) =
        joinFeeds [[], "int x = N + 1;".toList] ∧
      expandLiterals (joinFeeds ["#pragma define M N + 1".toList, "#pragma define N 2".toList,
        "int x = M;".toList]) = joinFeeds [[], [], "int x = 2 + 1;".toList] := by
  decide +kernel

end Lines

end ShaderPass.Macro
