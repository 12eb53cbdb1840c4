import ShaderPass.Proofs.Define.Scanning
import ShaderPass.Proofs.Macro.Tidy
import ShaderPass.Proofs.Token.Comments

/-! Remarks that reach the scan for defines. A remark behind a condition is searched like the condition
itself, so it is harmless if it names no define. -/
namespace ShaderPass

namespace Text

theorem isFree_blank_append {gap : Text} (blank : ∀ c ∈ gap, isBlank c = true) {t : Text}
    (free : isFree t.head? = true) : isFree (gap ++ t).head? = true := by
  cases gap with
  | nil => exact free
  | cons c gap => exact isFree_cons (Macro.isIdentChar_of_isBlank (blank c List.mem_cons_self))

theorem words_trimEnd (t : Text) : words (trimEnd t) = words t := by
  obtain ⟨b, cut, blank⟩ := exists_trimEndWhile isBlank t
  have tail : words b = [] := by
    have := Macro.words_of_blank blank []
    rwa [List.append_nil] at this
  conv => rhs; rw [cut]
  have free := isFree_blank_append blank (t := []) rfl
  rw [List.append_nil] at free
  rw [words_append free, tail, List.append_nil, trimEnd]

def note (c : Text) : Text :=
  '/' :: trimEnd ('/' :: ' ' :: c)

theorem words_note (c : Text) : words (note c) = words c := by
  rw [note, words_cons (by decide), words_trimEnd, words_cons (by decide), words_cons (by decide)]

theorem exists_of_mem_wordOffsets {name t : Text} (isName : IsWord name) {n : Nat}
    (member : n ∈ wordOffsets t name) : ∃ x y, t = x ++ (name ++ y) ∧ n = byteLen x := by
  obtain ⟨x, y, cut, rfl, -, -⟩ := standsAt_of_mem_wordOffsets isName member
  exact ⟨x, y, cut, rfl⟩

end Text

namespace Directive

open Text

theorem exists_parse?_append {line s : Text} (free : isFree s.head? = true)
    (free_trimmed : isFree (trimStart s).head? = true) {name : String} {args : Text}
    (parsed : parse? line = some (name, args)) :
    ∃ rest, trim rest = args ∧ parse? (line ++ s) = some (name, trim (rest ++ s)) := by
  rcases blank_or_exists line with blank | ⟨b, c, x, rfl, blank, solid⟩
  · rw [parse?, trimStart_eq_nil blank] at parsed
    cases parsed
  rw [parse?, trimStart_append_cons blank solid] at parsed
  rw [List.append_assoc, List.cons_append, parse?, trimStart_append_cons blank solid]
  split at parsed
  · rename_i rest hash
    obtain ⟨rfl, rfl⟩ := List.cons.inj hash
    obtain ⟨rfl, rfl⟩ := Prod.mk.inj (Option.some.inj parsed)
    rcases blank_or_exists x with blank | ⟨b', d, y, rfl, blank, solid⟩
    · refine ⟨[], by rw [trimStart_eq_nil blank]; rfl, ?_⟩
      have nothing : spanIdent (trimStart s) = ([], trimStart s) := spanIdent_append free_trimmed []
      rw [trimStart_eq_nil blank]
      simp only [trimStart_blank_append blank, nothing, trim_trimStart, List.nil_append]
      rfl
    · refine ⟨_, rfl, ?_⟩
      rw [trimStart_append_cons blank solid]
      simp only [List.append_assoc, List.cons_append, trimStart_append_cons blank solid]
      rw [← List.cons_append, spanIdent_append free]
      rfl
  · cases parsed

theorem trim_of_parse? {line : Text} {name : String} {args : Text}
    (parsed : parse? line = some (name, args)) : trim args = args := by
  unfold parse? at parsed
  split at parsed
  · obtain ⟨-, rfl⟩ := Prod.mk.inj (Option.some.inj parsed)
    exact trim_trim _
  · cases parsed

theorem exists_parse?_remark {line returns : Text} (only : ∀ d ∈ returns, d = '\r') (c : Text)
    {name : String} {args : Text} (parsed : parse? line = some (name, args)) :
    ∃ gap, (∀ d ∈ gap, isBlank d = true) ∧ (args ≠ [] → gap ≠ []) ∧
      parse? (line ++ (remark c ++ returns)) = some (name, args ++ (gap ++ note c)) := by
  rw [← List.append_assoc, parse?_append_returns only]
  have trimmed : trimStart (remark c) = '/' :: '/' :: ' ' :: c :=
    trimStart_append_cons (b := [' ']) (List.forall_mem_singleton.2 (by decide)) (by decide) _
  obtain ⟨rest, rfl, read⟩ := exists_parse?_append (s := remark c) rfl (by rw [trimmed]; rfl) parsed
  have args : trim (rest ++ remark c) = trimStart (rest ++ [' ']) ++ note c := by
    have := trim_append_cons (c := '/') (by decide) (rest ++ [' ']) ('/' :: ' ' :: c)
    rwa [List.append_assoc] at this
  rcases blank_or_exists rest with blank | ⟨b, d, x, rfl, blank, solid⟩
  · have nothing : trimStart (rest ++ [' ']) = [] := by
      rw [trimStart_blank_append blank]
      rfl
    have empty : trim rest = [] := by rw [trim, trimStart_eq_nil blank]; rfl
    exact ⟨[], by simp, fun some_args => absurd empty some_args, by rw [read, args, nothing, empty]; rfl⟩
  · obtain ⟨b', cut, blank'⟩ := exists_trimEndWhile isBlank (d :: x)
    have whole : trimStart (b ++ d :: x ++ [' ']) = trim (b ++ d :: x) ++ (b' ++ [' ']) := by
      rw [List.append_assoc, List.cons_append, trimStart_append_cons blank solid, trim,
        trimStart_append_cons blank solid, trimEnd, ← List.append_assoc, ← cut, List.cons_append]
    refine ⟨b' ++ [' '], ?_, fun _ => by simp, by rw [read, args, whole, List.append_assoc]⟩
    intro e member
    rcases List.mem_append.1 member with member | member
    · exact blank' e member
    · rw [List.mem_singleton.1 member]
      decide

end Directive

namespace Define

open Text

def comparesNumber (t : Text) : Bool :=
  (comparisons.findSome? fun op => after? op (trimStart t)).any fun rest =>
    (trimStart rest).head?.any Char.isDigit

section Remark

variable {gap z : Text} (blank : ∀ c ∈ gap, isBlank c = true) (some_blank : gap ≠ [])

include blank in
theorem head?_trimStart_remark (t : Text) :
    (trimStart (t ++ (gap ++ '/' :: z))).head?.any Char.isDigit =
      (trimStart t).head?.any Char.isDigit := by
  rcases blank_or_exists t with none | ⟨b, d, y, rfl, blank', solid⟩
  · rw [trimStart_blank_append none, trimStart_append_cons blank (by decide), trimStart_eq_nil none]
    rfl
  · rw [List.append_assoc, List.cons_append, trimStart_append_cons blank' solid,
      trimStart_append_cons blank' solid]
    rfl

include blank some_blank in
theorem after?_remark {op : Text} (no_blank : ∀ c ∈ op, isBlank c = false) (t : Text) :
    after? op (t ++ (gap ++ '/' :: z)) = (after? op t).map (· ++ (gap ++ '/' :: z)) := by
  obtain ⟨g, gap, rfl⟩ := List.exists_cons_of_ne_nil some_blank
  have hg := blank g List.mem_cons_self
  induction op generalizing t with
  | nil => simp [after?]
  | cons o op ih =>
    cases t with
    | nil =>
      have differs : o ≠ g := by
        rintro rfl
        rw [no_blank o List.mem_cons_self] at hg
        cases hg
      simp [after?, List.isPrefixOf, differs]
    | cons d t =>
      have rest := ih (fun c hc => no_blank c (List.mem_cons_of_mem _ hc)) t
      by_cases same : o = d
      · simpa [after?, List.isPrefixOf, same] using rest
      · simp [after?, List.isPrefixOf, same]

include blank some_blank in
theorem comparesNumber_remark (t : Text) :
    comparesNumber (t ++ (gap ++ '/' :: z)) = comparesNumber t := by
  rcases blank_or_exists t with none | ⟨b, d, y, rfl, blank', solid⟩
  · rw [comparesNumber, trimStart_blank_append none, trimStart_append_cons blank (by decide),
      comparesNumber, trimStart_eq_nil none]
    rfl
  · rw [comparesNumber, List.append_assoc, List.cons_append, trimStart_append_cons blank' solid,
      comparesNumber, trimStart_append_cons blank' solid, ← List.cons_append]
    have each : ∀ op ∈ comparisons, after? op (d :: y ++ (gap ++ '/' :: z)) =
        (after? op (d :: y)).map (· ++ (gap ++ '/' :: z)) := by
      intro op listed
      refine after?_remark blank some_blank ?_ (d :: y)
      have none_blank : comparisons.all (·.all (!isBlank ·)) = true := by decide
      simpa using List.all_eq_true.1 none_blank op listed
    have found (ops : List Text) (listed : ops ⊆ comparisons) :
        (ops.findSome? fun op => after? op (d :: y ++ (gap ++ '/' :: z))) =
          (ops.findSome? fun op => after? op (d :: y)).map (· ++ (gap ++ '/' :: z)) := by
      induction ops with
      | nil => rfl
      | cons op ops ih =>
        rw [List.findSome?_cons, List.findSome?_cons, each op (listed List.mem_cons_self),
          ih fun _ hop => listed (List.mem_cons_of_mem _ hop)]
        cases after? op (d :: y) <;> rfl
    rw [found comparisons (List.Subset.refl _)]
    cases comparisons.findSome? fun op => after? op (d :: y) with
    | none => rfl
    | some rest => exact head?_trimStart_remark blank rest

include blank some_blank in
theorem isComparedToNumber_remark {condition name : Text} (isName : IsWord name)
    (absent : name ∉ words z) :
    isComparedToNumber (condition ++ (gap ++ '/' :: z)) name = isComparedToNumber condition name := by
  have free := isFree_blank_append blank (t := '/' :: z) rfl
  have offsets : wordOffsets (condition ++ (gap ++ '/' :: z)) name = wordOffsets condition name := by
    have nothing : name ∉ words (gap ++ '/' :: z) := by
      rwa [Macro.words_of_blank blank, words_cons (by decide)]
    rw [wordOffsets, wordOffsetsFrom_append isName free, (wordOffsetsFrom_eq_nil isName _).2 nothing,
      List.append_nil, wordOffsets]
  unfold isComparedToNumber
  rw [offsets, Bool.eq_iff_iff, List.any_eq_true, List.any_eq_true]
  refine exists_congr fun n => and_congr_right fun member => ?_
  obtain ⟨x, y, rfl, rfl⟩ := exists_of_mem_wordOffsets isName member
  have before : takeBytes (byteLen x) (x ++ (name ++ y) ++ (gap ++ '/' :: z)) =
      takeBytes (byteLen x) (x ++ (name ++ y)) := by
    rw [List.append_assoc, takeBytes_byteLen_append, takeBytes_byteLen_append]
  have after (t : Text) : dropBytes (byteLen x + byteLen name) (x ++ (name ++ t)) = t := by
    rw [← byteLen_append, ← List.append_assoc, dropBytes_byteLen_append]
  have behind := comparesNumber_remark (z := z) blank some_blank y
  unfold comparesNumber at behind
  dsimp only
  rw [before, List.append_assoc, List.append_assoc, after, after, behind]

end Remark

/-- A remark that names no define adds none to a condition and changes the type of none. -/
structure Unheard (condition condition' : Text) : Prop where
  identifiers : Condition.identifiers condition' = Condition.identifiers condition
  type : ∀ name ∈ Condition.identifiers condition,
    inferredType condition' name = inferredType condition name

theorem words_remark {condition gap : Text} (blank : ∀ d ∈ gap, isBlank d = true) (c : Text) :
    words (condition ++ (gap ++ note c)) = words condition ++ words c := by
  rw [words_append (isFree_blank_append blank (t := note c) rfl), Macro.words_of_blank blank,
    words_note]

theorem mem_identifiers_remark {condition gap c : Text} (blank : ∀ d ∈ gap, isBlank d = true)
    {define : String} (named : define ∈ Condition.identifiers c) :
    define ∈ Condition.identifiers (condition ++ (gap ++ note c)) := by
  rw [Condition.identifiers, ← words, List.mem_eraseDups] at named ⊢
  rw [words_remark blank, List.filter_append, List.map_append]
  exact List.mem_append_right _ named

theorem unheard_remark {c condition gap : Text} (silent : Condition.identifiers c = [])
    (blank : ∀ d ∈ gap, isBlank d = true) (some_blank : condition ≠ [] → gap ≠ []) :
    Unheard condition (condition ++ (gap ++ note c)) := by
  have none : ((words c).filter fun word =>
      word.head?.any isIdentStart && !Condition.isReserved word) = [] := by
    cases found : (words c).filter fun word =>
        word.head?.any isIdentStart && !Condition.isReserved word with
    | nil => rfl
    | cons word rest =>
      have : String.ofList word ∈ Condition.identifiers c := by
        rw [Condition.identifiers, List.mem_eraseDups]
        exact List.mem_map.2 ⟨word, by rw [← words, found]; exact List.mem_cons_self, rfl⟩
      rw [silent] at this
      cases this
  constructor
  · rw [Condition.identifiers, ← words, words_remark blank, List.filter_append, none, List.append_nil,
      Condition.identifiers, words]
  · intro name known
    rw [Condition.identifiers, List.mem_eraseDups] at known
    obtain ⟨word, listed, rfl⟩ := List.mem_map.1 known
    obtain ⟨member, tested⟩ := List.mem_filter.1 listed
    have isName : IsWord word := isWord_of_mem_words member
    have some_condition : condition ≠ [] := by
      rintro rfl
      cases member
    have absent : word ∉ words (trimEnd ('/' :: ' ' :: c)) := by
      rw [words_trimEnd, words_cons (by decide), words_cons (by decide)]
      intro remarked
      have := none ▸ List.mem_filter.2 ⟨remarked, tested⟩
      cases this
    rw [inferredType, inferredType, String.toList_ofList, note,
      isComparedToNumber_remark blank (some_blank some_condition) isName absent]

theorem foldl_noteUse_of_unheard {condition condition' : Text} (same : Unheard condition condition')
    (enclosing : List String) (defines : List Define) :
    (Condition.identifiers condition').foldl (noteUse enclosing condition') defines =
      (Condition.identifiers condition).foldl (noteUse enclosing condition) defines := by
  have uses (names : List String) (known : names ⊆ Condition.identifiers condition)
      (defines : List Define) : names.foldl (noteUse enclosing condition') defines =
        names.foldl (noteUse enclosing condition) defines := by
    induction names generalizing defines with
    | nil => rfl
    | cons name names ih =>
      rw [List.foldl_cons, List.foldl_cons, ih fun _ later => known (List.mem_cons_of_mem _ later),
        noteUse, same.type name (known List.mem_cons_self), noteUse]
  rw [same.identifiers, uses _ (List.Subset.refl _)]

section Line

variable {line line' : Text} {name : String} {args args' : Text}
  (parsed : Directive.parse? line = some (name, args))
  (parsed' : Directive.parse? line' = some (name, args'))
  (unheard : name ∈ conditionalNames → Unheard args args')

include parsed parsed' unheard

theorem noteLine_of_unheard (stack : Condition.Stack) (defines : List Define) :
    noteLine stack defines line' = noteLine stack defines line := by
  unfold noteLine
  rw [parsed, parsed']
  dsimp only
  split
  · exact foldl_noteUse_of_unheard (unheard ‹_›) _ _
  · rfl

theorem update_of_unheard (stack : Condition.Stack) : stack.update line' = stack.update line := by
  unfold Condition.Stack.update
  rw [parsed, parsed']
  by_cases conditional : name ∈ conditionalNames
  · have same := (unheard conditional).identifiers
    have : name = "if" ∨ name = "ifdef" ∨ name = "ifndef" ∨ name = "elif" := by
      simpa [conditionalNames] using conditional
    rcases this with rfl | rfl | rfl | rfl <;> simp only [same]
  · have other : name ≠ "if" ∧ name ≠ "ifdef" ∧ name ≠ "ifndef" ∧ name ≠ "elif" := by
      simpa [conditionalNames] using conditional
    by_cases closes : name = "endif"
    · subst closes
      rfl
    · simp [other, closes]

theorem scanLine_of_unheard (plain : ∀ rest, Directive.pragma? line ≠ some ("define-meta", rest))
    (plain' : ∀ rest, Directive.pragma? line' ≠ some ("define-meta", rest))
    (state : List Define × Condition.Stack) : scanLine state line' = scanLine state line := by
  have declared {line : Text} (plain : ∀ rest, Directive.pragma? line ≠ some ("define-meta", rest)) :
      scanLine state line = (noteLine state.2 state.1 line, state.2.update line) := by
    unfold scanLine
    dsimp only
    split
    · exact absurd ‹_› (plain _)
    · rfl
  rw [declared plain, declared plain', noteLine_of_unheard parsed parsed' unheard,
    update_of_unheard parsed parsed' unheard]

end Line

theorem scanLine_of_parse? {line line' : Text} (same : Directive.parse? line' = Directive.parse? line)
    (state : List Define × Condition.Stack) : scanLine state line' = scanLine state line := by
  have pragma' : Directive.pragma? line' = Directive.pragma? line := by
    rw [Directive.pragma?, same, Directive.pragma?]
  unfold scanLine noteLine Condition.Stack.update
  rw [pragma', same]

theorem scan_eq_foldl (t : Text) : scan t = ((feedLines t).foldl scanLine ([], [])).1 := by
  have lines (pieces : List Text) (state : List Define × Condition.Stack) :
      (linesOf pieces).foldl scanLine state = pieces.foldl scanLine state := by
    fun_induction linesOf pieces generalizing state with
    | case1 => rfl
    | case2 last empty => rw [List.isEmpty_iff.1 empty]; rfl
    | case3 last _ => rfl
    | case4 piece pieces _ ih =>
      rw [List.foldl_cons, List.foldl_cons, ih, scanLine_of_parse? (Directive.parse?_dropReturn piece)]
  rw [scan, Text.lines, lines]

theorem ne_meta_remark {line line' gap c args : Text} {name : String}
    (blank : ∀ d ∈ gap, isBlank d = true) (parsed : Directive.parse? line = some (name, args))
    (parsed' : Directive.parse? line' = some (name, args ++ (gap ++ note c)))
    (plain : ∀ rest, Directive.pragma? line ≠ some ("define-meta", rest)) (rest : Text) :
    Directive.pragma? line' ≠ some ("define-meta", rest) := by
  unfold Directive.pragma? at plain ⊢
  rw [parsed] at plain
  rw [parsed']
  by_cases isPragma : name = "pragma"
  · subst isPragma
    have stops : (gap ++ note c).head?.any Directive.isPragmaChar = false := by
      cases gap with
      | nil => rfl
      | cons d gap =>
        have hd := blank d List.mem_cons_self
        have hyphen : d ≠ '-' := by rintro rfl; cases hd
        simp [Directive.isPragmaChar, Macro.isIdentChar_of_isBlank hd, hyphen]
    have word : (args ++ (gap ++ note c)).takeWhile Directive.isPragmaChar =
        args.takeWhile Directive.isPragmaChar := by
      clear plain parsed parsed'
      induction args with
      | nil =>
        cases behind : gap ++ note c with
        | nil => rfl
        | cons d t =>
          rw [behind] at stops
          exact List.takeWhile_cons_of_neg (by simpa using stops)
      | cons d args ih => rw [List.cons_append, List.takeWhile_cons, List.takeWhile_cons, ih]
    intro declares
    simp only [word, Option.some.injEq, Prod.mk.injEq] at declares
    exact plain _ (congrArg some (Prod.ext declares.1 rfl))
  · simp [isPragma]

end Define

namespace Token

open Text

theorem Remarked.exists_lines {a body returns r c : Text} (h : Remarked a body returns r c) :
    ∃ before line after, (∀ s, Directive.parse? (line ++ s) = Directive.parse? (lastLine body ++ s)) ∧
      '\n' ∉ line ∧
      feedLines (stripComments (a ++ (body ++ (returns ++ r)))) = before ++ (line ++ returns) :: after ∧
      feedLines (stripComments (a ++ (body ++ (remark c ++ (returns ++ r))))) =
        before ++ (line ++ (remark c ++ returns)) :: after := by
  obtain ⟨front, rest, plain, remarked, ends, blank⟩ := h.exists_stripped
  obtain ⟨before, after, lines⟩ := exists_feedLines (front ++ body) ends
  have free : '\n' ∉ returns := fun feed => absurd (h.only_returns _ feed) (by decide)
  have free_remark : '\n' ∉ remark c ++ returns := by simp [remark, h.one_line, free]
  refine ⟨before, lastLine (front ++ body), after, ?_, notMem_lastLine _, ?_, ?_⟩
  · intro s
    by_cases feed : '\n' ∈ body
    · rw [lastLine_append_of_mem feed]
    · have whole := lastLine_append_of_notMem feed []
      rw [List.nil_append] at whole
      rw [lastLine_append_of_notMem feed, whole, List.append_assoc,
        Directive.parse?_blank_append fun d member => isBlank_of_isTokenBlank (blank d member)]
      rfl
  · rw [plain, ← lines _ free, List.append_assoc]
  · rw [remarked, ← lines _ free_remark, List.append_assoc, List.append_assoc]

end Token

namespace Define

open Text Token

theorem scan_remarked {a body returns r c : Text} (h : Remarked a body returns r c) {name : String}
    {args : Text} (parsed : Directive.parse? (lastLine body) = some (name, args))
    (silent : name ∈ conditionalNames → Condition.identifiers c = [])
    (plain : ∀ rest, Directive.pragma? (lastLine body) ≠ some ("define-meta", rest)) :
    scan (stripComments (a ++ (body ++ (remark c ++ (returns ++ r))))) =
      scan (stripComments (a ++ (body ++ (returns ++ r)))) := by
  obtain ⟨before, line, after, same, -, lines, remarked⟩ := h.exists_lines
  obtain ⟨gap, blank, some_gap, read⟩ := Directive.exists_parse?_remark h.only_returns c parsed
  have parsed_line : Directive.parse? (line ++ returns) = some (name, args) := by
    rw [same, Directive.parse?_append_returns h.only_returns, parsed]
  have parsed_remark : Directive.parse? (line ++ (remark c ++ returns)) =
      some (name, args ++ (gap ++ note c)) := by rw [same, read]
  have plain_line : ∀ rest, Directive.pragma? (line ++ returns) ≠ some ("define-meta", rest) := by
    intro rest
    have := plain rest
    unfold Directive.pragma? at this ⊢
    rwa [parsed_line, ← parsed]
  have scanned := scanLine_of_unheard parsed_line parsed_remark
    (fun conditional => unheard_remark (silent conditional) blank some_gap) plain_line
    (ne_meta_remark blank parsed_line parsed_remark plain_line)
  rw [scan_eq_foldl, scan_eq_foldl, lines, remarked, List.foldl_append, List.foldl_append,
    List.foldl_cons, List.foldl_cons, scanned]

end Define

end ShaderPass
