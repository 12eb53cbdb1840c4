import ShaderPass.Proofs.Define.Scanning
import ShaderPass.Proofs.Macro.Regular

/-! Declarations of several lines, joined into one each. The other lines stay what they are, unless a blank
line at the end of a declaration takes its line feed along. -/
namespace ShaderPass.Macro

open ShaderPass.Text

section Heading

theorem paren_notMem_of_blank {b : Text} (blank : ∀ c ∈ b, isBlank c = true) : '(' ∉ b := by
  intro member
  cases blank _ member

theorem exists_of_parse? {l args : Text} {name : String} (h : Directive.parse? l = some (name, args)) :
    ∃ w w' a, l = w ++ '#' :: (w' ++ (name.toList ++ a)) ∧ (∀ c ∈ w, isBlank c = true) ∧
      (∀ c ∈ w', isBlank c = true) ∧ trim a = args := by
  unfold Directive.parse? at h
  split at h
  · rename_i rest visible
    obtain ⟨rfl, rfl⟩ := Prod.mk.inj (Option.some.inj h)
    have start : l = l.takeWhile isBlank ++ '#' :: rest := by
      rw [← visible]
      exact List.takeWhile_append_dropWhile.symm
    have words : rest = rest.takeWhile isBlank ++ ((trimStart rest).takeWhile isIdentChar ++
        (trimStart rest).dropWhile isIdentChar) := by
      rw [List.takeWhile_append_dropWhile]
      exact List.takeWhile_append_dropWhile.symm
    refine ⟨l.takeWhile isBlank, rest.takeWhile isBlank, (trimStart rest).dropWhile isIdentChar, ?_,
      List.all_eq_true.1 List.all_takeWhile, List.all_eq_true.1 List.all_takeWhile, rfl⟩
    rw [String.toList_ofList]
    exact start.trans (congrArg (l.takeWhile isBlank ++ '#' :: ·) words)
  · cases h

theorem exists_of_directive_pragma? {l args : Text} {name : String} (no_paren : '(' ∉ name.toList)
    (h : Directive.pragma? l = some (name, args)) :
    ∃ front d b, l = front ++ (d ++ (args ++ b)) ∧ '(' ∉ front ∧ (∀ c ∈ d, isBlank c = true) ∧
      (∀ c ∈ b, isBlank c = true) ∧ (d = [] → ∀ c s, args = c :: s → Directive.isPragmaChar c = false) := by
  unfold Directive.pragma? at h
  split at h
  · rename_i r parsed
    obtain ⟨rfl, rfl⟩ := Prod.mk.inj (Option.some.inj h)
    obtain ⟨w, w', a, rfl, blank, blank', rfl⟩ := exists_of_parse? parsed
    obtain ⟨v, v', around, front, behind⟩ := exists_trim a
    obtain ⟨d, b, cut, gap, tail⟩ := exists_trim ((trim a).dropWhile Directive.isPragmaChar)
    have words : trim a = (trim a).takeWhile Directive.isPragmaChar ++
        (d ++ (trim ((trim a).dropWhile Directive.isPragmaChar) ++ b)) := by
      rw [← cut]
      exact List.takeWhile_append_dropWhile.symm
    rw [words] at around
    rw [String.toList_ofList] at no_paren
    refine ⟨w ++ '#' :: (w' ++ ("pragma".toList ++ (v ++ (trim a).takeWhile Directive.isPragmaChar))), d,
      b ++ v', ?_, ?_, gap, ?_, ?_⟩
    · conv => lhs; rw [around]
      simp only [List.append_assoc, List.cons_append]
    · have none : '(' ∉ "pragma".toList := by decide
      simp only [List.mem_append, List.mem_cons, not_or]
      exact ⟨paren_notMem_of_blank blank, by decide, paren_notMem_of_blank blank', none,
        paren_notMem_of_blank front, no_paren⟩
    · intro c member
      exact (List.mem_append.1 member).elim (tail c) (behind c)
    · rintro rfl c s same
      have stop := List.head?_dropWhile_not Directive.isPragmaChar (trim a)
      rw [cut, same] at stop
      exact stop
  · cases h

theorem exists_of_declares {l name rest : Text} (h : pragma? l = some (name, rest)) :
    ∃ front b, l = front ++ (name ++ (rest ++ b)) ∧ (∀ c ∈ b, isBlank c = true) ∧ '(' ∉ front ∧
      ∃ f c, front = f ++ [c] ∧ isIdentChar c = false := by
  have named := isWord_of_pragma? h
  unfold pragma? at h
  split at h
  · rename_i args found
    have words : name ++ rest = args := by
      split at h
      rename_i name' rest' split_args
      split at h
      · cases h
      · obtain ⟨rfl, rfl⟩ := Prod.mk.inj (Option.some.inj h)
        obtain ⟨rfl, rfl⟩ := Prod.mk.inj split_args
        exact List.takeWhile_append_dropWhile
    obtain ⟨front, d, b, rfl, no_paren, gap, blank, adjoin⟩ :=
      exists_of_directive_pragma? (by decide) found
    refine ⟨front ++ d, b, ?_, blank, ?_, ?_⟩
    · rw [← words, List.append_assoc, List.append_assoc]
    · rw [List.mem_append, not_or]
      exact ⟨no_paren, paren_notMem_of_blank gap⟩
    · rcases List.eq_nil_or_concat d with rfl | ⟨d, c, rfl⟩
      · obtain ⟨c, s, rfl⟩ := List.exists_cons_of_ne_nil named.1
        have plain := adjoin rfl c (s ++ rest) words.symm
        rw [Directive.isPragmaChar, named.2 c List.mem_cons_self] at plain
        cases plain
      · refine ⟨front ++ d, c, ?_, isIdentChar_of_isBlank (gap c (by simp))⟩
        rw [List.concat_eq_append, List.append_assoc]
  · cases h

structure Heading (front name : Text) : Prop where
  isName : IsWord name
  no_paren : '(' ∉ front
  ends : ∃ f c, front = f ++ [c] ∧ isIdentChar c = false
  reads : ∀ s, pragma? (front ++ (name ++ '(' :: s)) = some (name, '(' :: trimEnd s)

theorem exists_heading {l : Text} (h : isFunctional l = true) :
    ∃ front name s, l = front ++ (name ++ '(' :: s) ∧ Heading front name := by
  obtain ⟨⟨name, rest⟩, found, params⟩ := (Option.any_eq_true _ _).1 h
  obtain ⟨rest, rfl⟩ := List.head?_eq_some_iff.1 (of_decide_eq_true params)
  obtain ⟨front, b, rfl, -, no_paren, ends⟩ := exists_of_declares found
  have isName := isWord_of_pragma? found
  refine ⟨front, name, rest ++ b, by simp, isName, no_paren, ends, ?_⟩
  obtain ⟨o, parsed⟩ := pragma?_append delimits_opening (front ++ name)
  have own : pragma? (front ++ name ++ '(' :: (rest ++ b)) = some (name, '(' :: rest) := by
    rw [← found]
    simp
  rw [parsed] at own
  obtain ⟨⟨name', r⟩, rfl, same⟩ := Option.map_eq_some_iff.1 own
  obtain ⟨rfl, list⟩ := Prod.mk.inj same
  -- Only one parenthesis is read when nothing follows it.
  have alone := parsed []
  obtain ⟨front', b', cut, -⟩ := exists_of_declares alone
  have none : (front ++ name').count '(' = 0 := by
    rw [List.count_eq_zero, List.mem_append, not_or]
    refine ⟨no_paren, fun member => ?_⟩
    cases isName.2 _ member
  have parens := congrArg (List.count '(') cut
  rw [List.count_append, none] at parens
  cases r with
  | nil =>
    intro s
    rw [← List.append_assoc, parsed]
    rfl
  | cons c r =>
    obtain rfl : c = '(' := (List.cons.inj list).1
    simp at parens
    omega

def declared? (line : Text) : Option Text :=
  match pragma? line with
  | some (name, rest) => if hasParams rest then some name else none
  | none => none

theorem isFunctional_eq (line : Text) : isFunctional line = (declared? line).isSome := by
  unfold isFunctional declared?
  cases pragma? line with
  | none => rfl
  | some declared => cases params : hasParams declared.2 <;> simp [params]

theorem Heading.declared {front name : Text} (h : Heading front name) (s : Text) :
    declared? (front ++ (name ++ '(' :: s)) = some name := by
  rw [declared?, h.reads]
  rfl

theorem Heading.isFunctional {front name : Text} (h : Heading front name) (s : Text) :
    isFunctional (front ++ (name ++ '(' :: s)) = true := by
  rw [isFunctional_eq, h.declared]
  rfl

end Heading

section Outside

def carriesOn (line : Text) : Bool :=
  (trimEnd line).getLast? = some '\\'

/-- The lines that belong to no declaration with parameters; one may go on in front of them. -/
def outside (continuing : Bool) : List Text → List Text
  | [] => []
  | line :: lines =>
    if continuing || isFunctional line then outside (carriesOn line) lines
    else line :: outside false lines

/-- Whether a blank line at the end of a declaration draws a line into it that belongs to none. -/
def swallows (continuing : Bool) : List Text → Bool
  | [] => false
  | line :: lines =>
    if continuing || isFunctional line then
      continuing && line.all isBlank &&
          lines.head?.any (fun next => !next.isEmpty && !isFunctional next) ||
        swallows (carriesOn line) lines
    else swallows false lines

def startedBy (continuing : Bool) (line : Text) : List Text :=
  if continuing then [] else (declared? line).toList

/-- The macros that lines declare; a declaration may go on in front of them. -/
def declared (continuing : Bool) : List Text → List Text
  | [] => []
  | line :: lines =>
    startedBy continuing line ++ declared ((continuing || isFunctional line) && carriesOn line) lines

def blank (line : Text) : Text :=
  if isFunctional line then [] else line

def blanked (t : Text) : List Text :=
  (feedLines t).map blank

variable {continuing : Bool} {l q t : Text} {lines : List Text}

theorem endedLines_append (free : '\n' ∉ l) (t : Text) :
    endedLines (l ++ '\n' :: t) = (l ++ ['\n']) :: endedLines t := by
  induction l with
  | nil => simp [endedLines]
  | cons c l ih =>
    rw [List.mem_cons, not_or] at free
    rw [List.cons_append, endedLines, if_neg (Ne.symm free.1), ih free.2]
    rfl

theorem endedLines_line (free : '\n' ∉ l) : endedLines l = if l = [] then [] else [l] := by
  induction l with
  | nil => rfl
  | cons c l ih =>
    rw [List.mem_cons, not_or] at free
    rw [endedLines, if_neg (Ne.symm free.1), ih free.2]
    split
    · rename_i empty
      split at empty
      · rename_i nil
        rw [nil]
        rfl
      · cases empty
    · rename_i found
      split at found
      · cases found
      · obtain ⟨rfl, rfl⟩ := List.cons.inj found
        rfl

theorem isFunctional_append_blank {b : Text} (blank : ∀ c ∈ b, isBlank c = true) (l : Text) :
    isFunctional (l ++ b) = isFunctional l := by
  have free : isFree b.head? = true := by
    cases b with
    | nil => rfl
    | cons c b => exact isFree_cons (isIdentChar_of_isBlank (blank c List.mem_cons_self))
  rw [isFunctional, pragma?, Directive.pragma?, Directive.parse?_append_blank blank free]
  rfl

theorem getLast?_trimStart {c : Char} (solid : isBlank c = false) (t : Text) :
    (trimStart t).getLast? = some c ↔ t.getLast? = some c := by
  rcases blank_or_exists t with blank | ⟨b, d, s, rfl, blank, first⟩
  · rw [trimStart_eq_nil blank]
    refine iff_of_false nofun fun last => ?_
    rw [blank c (List.mem_of_getLast? last)] at solid
    cases solid
  · rw [trimStart_append_cons blank first, List.getLast?_append, Option.or_of_isSome (by simp)]

def stem (continuing : Bool) (l : Text) : Text :=
  trimEnd (trimEndWhile (· = '\\') (if continuing then trimStart (trimEnd l) else trimEnd l))

theorem joinLines_cons {e : Text} (blank : ∀ c ∈ e, isBlank c = true) (continuing : Bool) (l : Text)
    (lines : List Text) : joinLines continuing ((l ++ e) :: lines) =
      if (continuing || isFunctional l) && carriesOn l then
        stem continuing l ++ breakMark ++ joinLines true lines
      else (if continuing then trimStart (l ++ e) else l ++ e) ++ joinLines false lines := by
  have shorter : trimEnd (l ++ e) = trimEnd l := trimEndWhile_append_of_pos blank l
  have reads : isFunctional (trimEnd l) = isFunctional l := by
    obtain ⟨b, whole, trailing⟩ := exists_trimEndWhile isBlank l
    conv => rhs; rw [whole]
    exact (isFunctional_append_blank trailing _).symm
  unfold stem carriesOn
  rw [joinLines, shorter]
  cases continuing with
  | true => simp only [Bool.true_or, if_true, getLast?_trimStart (show isBlank '\\' = false by decide)]
  | false => simp only [Bool.false_or, Bool.false_eq_true, if_false, reads]

structure Opens (name q : Text) : Prop where
  line : '\n' ∉ q
  reads : ∀ s, declared? (q ++ s) = some name

theorem Opens.append {name s : Text} (h : Opens name q) (free : '\n' ∉ s) : Opens name (q ++ s) := by
  refine ⟨List.not_mem_append h.line free, fun s' => ?_⟩
  rw [List.append_assoc]
  exact h.reads _

theorem mem_of_mem_trimEndWhile {p : Char → Bool} {c : Char} (member : c ∈ trimEndWhile p t) : c ∈ t := by
  obtain ⟨b, whole, -⟩ := exists_trimEndWhile p t
  rw [whole]
  exact List.mem_append_left b member

theorem mem_of_mem_trimStart {c : Char} (member : c ∈ trimStart t) : c ∈ t :=
  (List.dropWhile_suffix isBlank).subset member

theorem feed_notMem_stem (free : '\n' ∉ l) (continuing : Bool) : '\n' ∉ stem continuing l := by
  intro member
  have inside := mem_of_mem_trimEndWhile (mem_of_mem_trimEndWhile member)
  split at inside
  · exact free (mem_of_mem_trimEndWhile (mem_of_mem_trimStart inside))
  · exact free (mem_of_mem_trimEndWhile inside)

theorem opens_stem {name : Text} (free : '\n' ∉ l) (h : declared? l = some name) :
    Opens name (stem false l) := by
  refine ⟨feed_notMem_stem free false, fun s => ?_⟩
  obtain ⟨front, name', rest, rfl, heading⟩ := exists_heading (by rw [isFunctional_eq, h]; rfl)
  obtain rfl : name' = name := Option.some.inj ((heading.declared rest).symm.trans h)
  have trims : trimEnd (front ++ (name' ++ '(' :: rest)) = (front ++ name') ++ '(' :: trimEnd rest := by
    rw [← List.append_assoc]
    exact trimEndWhile_append_cons (by decide) _ _
  have shape : stem false (front ++ (name' ++ '(' :: rest)) =
      (front ++ name') ++ '(' :: trimEnd (trimEndWhile (· = '\\') (trimEnd rest)) := by
    rw [stem, if_neg Bool.false_ne_true, trims, trimEndWhile_append_cons (by decide)]
    exact trimEndWhile_append_cons (by decide) _ _
  rw [shape, List.append_assoc, List.append_assoc]
  exact heading.declared _

variable {P : Text → Prop}

/-- What stands on the line in front of the lines to come: nothing, or a declaration that they go on with. If
it is over, the next line must bear to be drawn into it. -/
inductive Pending (P : Text → Prop) (lines : List Text) : Bool → Text → Prop where
  | none : Pending P lines false []
  | opened {continuing : Bool} {name q : Text} : Opens name q → P name → (continuing = false →
      lines.head?.any (fun next => !next.isEmpty && !isFunctional next) = false) →
    Pending P lines continuing q

theorem Pending.line (h : Pending P lines continuing q) : '\n' ∉ q := by
  cases h with
  | none => exact List.not_mem_nil
  | opened opens => exact opens.line

theorem Pending.reads (h : Pending P lines continuing q) (inside : (continuing || isFunctional l) = true)
    (known : ∀ n ∈ startedBy continuing l, P n) :
    ∃ name, P name ∧ declared? (q ++ if continuing then trimStart l else l) = some name := by
  cases h with
  | none =>
    obtain ⟨name, declares⟩ := Option.isSome_iff_exists.1 ((isFunctional_eq l).symm.trans inside)
    exact ⟨name, known name (by rw [startedBy, declares]; exact List.mem_singleton_self name), declares⟩
  | opened opens declared => exact ⟨_, declared, opens.reads _⟩

theorem Pending.opens (h : Pending P lines continuing q) (inside : (continuing || isFunctional l) = true)
    (known : ∀ n ∈ startedBy continuing l, P n) (free : '\n' ∉ l) :
    ∃ name, P name ∧ Opens name (q ++ (stem continuing l ++ breakMark)) := by
  have mark : '\n' ∉ breakMark := by decide
  cases h with
  | none =>
    obtain ⟨name, declares⟩ := Option.isSome_iff_exists.1 ((isFunctional_eq l).symm.trans inside)
    exact ⟨name, known name (by rw [startedBy, declares]; exact List.mem_singleton_self name),
      (opens_stem free declares).append mark⟩
  | opened opens declared =>
    exact ⟨_, declared, opens.append (List.not_mem_append (feed_notMem_stem free continuing) mark)⟩

/-- What joining leaves of lines: those that are kept, and definitions of macros that satisfy `P`. A
definition may have taken the place of an empty line. -/
inductive Joins (P : Text → Prop) : List Text → List Text → Prop where
  | nil : Joins P [] []
  | definition {name x : Text} {kept lines : List Text} : declared? x = some name → P name →
      Joins P kept lines → Joins P kept (x :: lines)
  | other {x : Text} {kept lines : List Text} : isFunctional x = false → Joins P kept lines →
      Joins P (x :: kept) (x :: lines)
  | replaced {name x : Text} {kept lines : List Text} : declared? x = some name → P name →
      Joins P kept lines → Joins P ([] :: kept) (x :: lines)

section Joins

variable {kept : List Text}

theorem Joins.sublist (h : Joins P kept lines) : kept.Sublist (lines.map blank) := by
  induction h with
  | nil => exact .slnil
  | definition _ _ _ ih => exact ih.cons _
  | other plain _ ih =>
    rw [List.map_cons, blank, plain]
    exact ih.cons_cons _
  | replaced declares _ _ ih =>
    rw [List.map_cons, blank, isFunctional_eq, declares]
    exact ih.cons_cons _

theorem Joins.only (h : Joins P kept lines) : ∀ l ∈ lines.map blank, l ∈ kept ∨ l = [] := by
  have empty {name x : Text} (declares : declared? x = some name) : blank x = [] := by
    rw [blank, isFunctional_eq, declares]
    rfl
  induction h with
  | nil => exact nofun
  | definition declares _ _ ih => exact List.forall_mem_cons.2 ⟨Or.inr (empty declares), ih⟩
  | other plain _ ih =>
    refine List.forall_mem_cons.2 ⟨Or.inl ?_, fun l member => (ih l member).imp_left (List.mem_cons_of_mem _)⟩
    rw [blank, plain]
    exact List.mem_cons_self
  | replaced declares _ _ ih =>
    refine List.forall_mem_cons.2 ⟨Or.inr (empty declares), fun l member => ?_⟩
    exact (ih l member).imp_left (List.mem_cons_of_mem _)

theorem Joins.names (h : Joins P kept lines) : ∀ n ∈ lines.filterMap declared?, P n := by
  induction h with
  | nil => exact nofun
  | definition declares known _ ih =>
    rw [List.filterMap_cons_some declares]
    exact List.forall_mem_cons.2 ⟨known, ih⟩
  | other plain _ ih =>
    rw [isFunctional_eq, Option.isSome_eq_false_iff, Option.isNone_iff_eq_none] at plain
    rwa [List.filterMap_cons_none plain]
  | replaced declares known _ ih =>
    rw [List.filterMap_cons_some declares]
    exact List.forall_mem_cons.2 ⟨known, ih⟩

end Joins

theorem Pending.other {ls : List Text} (h : Pending P (l :: lines) false q) (other : isFunctional l = false)
    (later : Joins P kept ls) : Joins P (l :: kept) ((q ++ l) :: ls) := by
  cases h with
  | none => exact .other other later
  | opened opens known glued =>
    have empty := glued rfl
    rw [List.head?_cons, Option.any_some, other, Bool.not_false, Bool.and_true, Bool.not_eq_false'] at empty
    rw [List.isEmpty_iff.1 empty]
    exact .replaced (opens.reads []) known later

theorem feed_notMem_end (free : '\n' ∉ q) (line : '\n' ∉ l) :
    '\n' ∉ q ++ if continuing then trimStart l else l := by
  refine List.not_mem_append free ?_
  split
  · exact fun member => line (mem_of_mem_trimStart member)
  · exact line

theorem trimStart_append_feed (visible : ¬ (continuing && l.all isBlank) = true) :
    (if continuing then trimStart (l ++ ['\n']) else l ++ ['\n']) =
      (if continuing then trimStart l else l) ++ ['\n'] := by
  cases continuing with
  | false => rfl
  | true =>
    rcases blank_or_exists l with blank | ⟨b, c, s, rfl, blank, solid⟩
    · exact absurd (List.all_eq_true.2 blank) (by simpa using visible)
    · rw [if_pos rfl, if_pos rfl, List.append_assoc, List.cons_append, trimStart_append_cons blank solid,
        trimStart_append_cons blank solid, List.cons_append]

theorem joinLines_last (free : '\n' ∉ l) (continuing : Bool) :
    joinLines continuing (endedLines l) = joinLines continuing [l] := by
  rw [endedLines_line free]
  split
  · rename_i nil
    subst nil
    cases continuing <;> rfl
  · rfl

theorem joins_last (free : '\n' ∉ l) (pending : Pending P [l] continuing q)
    (known : ∀ n ∈ startedBy continuing l, P n) :
    Joins P (outside continuing [l]) (feedLines (q ++ joinLines continuing (endedLines l))) := by
  have none : ∀ c ∈ ([] : Text), isBlank c = true := nofun
  have whole := joinLines_cons none continuing l []
  rw [List.append_nil, joinLines, joinLines, List.append_nil, List.append_nil] at whole
  rw [joinLines_last free, whole, outside]
  by_cases inside : (continuing || isFunctional l) = true
  · rw [if_pos inside, inside, Bool.true_and, outside]
    split
    · obtain ⟨name, declared, opens⟩ := pending.opens inside known free
      have reads := opens.reads []
      rw [List.append_nil] at reads
      rw [feedLines, splitOn_eq_singleton opens.line]
      exact .definition reads declared .nil
    · obtain ⟨name, declared, reads⟩ := pending.reads inside known
      rw [feedLines, splitOn_eq_singleton (feed_notMem_end pending.line free)]
      exact .definition reads declared .nil
  · rw [if_neg inside, outside]
    obtain ⟨rfl, other⟩ : continuing = false ∧ isFunctional l = false := by simpa using inside
    rw [other, Bool.false_or, Bool.false_and, if_neg Bool.false_ne_true, if_neg Bool.false_ne_true, feedLines,
      splitOn_eq_singleton (List.not_mem_append pending.line free)]
    exact pending.other other .nil

theorem joins_joinLines (some_line : lines ≠ []) (free : ∀ l ∈ lines, '\n' ∉ l)
    (pending : Pending P lines continuing q) (kept : swallows continuing lines = false)
    (known : ∀ n ∈ declared continuing lines, P n) : Joins P (outside continuing lines)
      (feedLines (q ++ joinLines continuing (endedLines (joinFeeds lines)))) := by
  induction lines generalizing continuing q with
  | nil => exact absurd rfl some_line
  | cons l lines ih =>
    have line := free l List.mem_cons_self
    have rest : ∀ m ∈ lines, '\n' ∉ m := fun m hm => free m (List.mem_cons_of_mem l hm)
    rw [declared, List.forall_mem_append] at known
    obtain ⟨own, later⟩ := known
    cases lines with
    | nil => exact joins_last line pending own
    | cons m lines =>
      have ih {continuing : Bool} {q : Text} := @ih continuing q (List.cons_ne_nil m lines) rest
      have ended {x : Text} (free : '\n' ∉ x) (t : Text) :
          feedLines (x ++ ['\n'] ++ t) = x :: feedLines t := by
        rw [List.append_assoc, List.singleton_append]
        exact splitOn_append_cons free t
      rw [joinFeeds, joinWith_cons_cons, endedLines_append line,
        joinLines_cons (List.forall_mem_singleton.2 (by decide)), outside]
      by_cases inside : (continuing || isFunctional l) = true
      · rw [if_pos inside, inside, Bool.true_and]
        rw [swallows, if_pos inside, Bool.or_eq_false_iff] at kept
        rw [inside, Bool.true_and] at later
        cases goes_on : carriesOn l with
        | true =>
          rw [goes_on] at kept later
          obtain ⟨name, declared, opens⟩ := pending.opens inside own line
          rw [if_pos rfl, ← List.append_assoc]
          exact ih (.opened opens declared fun stops => absurd stops.symm Bool.false_ne_true) kept.2 later
        | false =>
          rw [goes_on] at kept later
          rw [if_neg Bool.false_ne_true]
          by_cases gone : (continuing && l.all isBlank) = true
          · -- The line feed goes with the blank line.
            rw [gone, Bool.true_and] at kept
            rw [Bool.and_eq_true, List.all_eq_true] at gone
            obtain ⟨rfl, blank⟩ := gone
            have feed : ∀ c ∈ ['\n'], isBlank c = true := List.forall_mem_singleton.2 (by decide)
            have nothing : trimStart (l ++ ['\n']) = [] :=
              (trimStart_blank_append blank _).trans (trimStart_eq_nil feed)
            rw [if_pos rfl, nothing, List.nil_append]
            cases pending with
            | opened opens declared => exact ih (.opened opens declared fun _ => kept.1) kept.2 later
          · obtain ⟨name, declared, reads⟩ := pending.reads inside own
            have feed : (if continuing then trimStart (l ++ ['\n']) else l ++ ['\n']) =
                (if continuing then trimStart l else l) ++ ['\n'] := trimStart_append_feed gone
            have free : '\n' ∉ q ++ if continuing then trimStart l else l := feed_notMem_end pending.line line
            rw [feed, ← List.append_assoc, ← List.append_assoc, ended free]
            exact .definition reads declared (ih .none kept.2 later)
      · obtain ⟨rfl, other⟩ : continuing = false ∧ isFunctional l = false := by simpa using inside
        rw [swallows, if_neg inside] at kept
        rw [other, Bool.false_or, Bool.false_and] at later
        rw [if_neg inside, other, Bool.false_or, Bool.false_and, if_neg Bool.false_ne_true,
          if_neg Bool.false_ne_true, ← List.append_assoc, ← List.append_assoc,
          ended (List.not_mem_append pending.line line)]
        have := ih .none kept later
        exact pending.other other this

end Outside

end ShaderPass.Macro
