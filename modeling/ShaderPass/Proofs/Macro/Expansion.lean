import Mathlib.Data.List.Basic
import ShaderPass.Proofs.Diagnostic.Outcome
import ShaderPass.Proofs.Macro.Regular

/-! The expansion of macros with parameters is complete for regular texts. It goes through the text once
for each macro and never reads again what it wrote in the place of a call, so calls may stay in others. -/
namespace ShaderPass.Macro

open ShaderPass.Text ShaderPass.Bracket

section Run

open Compile

/-- `x` returns under every report and does nothing to it but adding messages. It returns what satisfies
`P`, unless it reports a macro that refers to itself. -/
def Achieves (x : Compile α) (P : α → Prop) : Prop :=
  ∀ r, ∃ a s new, x.runWith r = (.ok a, s) ∧ s.messages = r.messages ++ new ∧
    ((∀ d ∈ new, d.code ≠ .recursiveMacro) → P a)

theorem achieves_pure {P : α → Prop} {a : α} (h : P a) : Achieves (pure a) P :=
  fun r => ⟨a, r, [], rfl, (List.append_nil _).symm, fun _ => h⟩

theorem achieves_warn (code : Code) (message : String) :
    Achieves (warn code message) fun _ => code ≠ .recursiveMacro :=
  fun _ => ⟨(), _, _, rfl, record_messages _ _, fun h => h _ (List.mem_singleton_self _)⟩

theorem Achieves.bind {x : Compile α} {f : α → Compile β} {P : α → Prop} {Q : β → Prop}
    (first : Achieves x P) (next : ∀ a, Achieves (f a) fun b => P a → Q b) : Achieves (x >>= f) Q := by
  intro r
  obtain ⟨a, s, new, run, messages, reached⟩ := first r
  obtain ⟨b, s', later, run', messages', reached'⟩ := next a s
  refine ⟨b, s', new ++ later, ?_, by rw [messages', messages, List.append_assoc], fun h => ?_⟩
  · rw [runWith_bind, run]
    exact run'
  · exact reached' (fun d hd => h d (List.mem_append_right _ hd))
      (reached fun d hd => h d (List.mem_append_left _ hd))

theorem Achieves.mono {x : Compile α} {P Q : α → Prop} (h : Achieves x P) (sub : ∀ a, P a → Q a) :
    Achieves x Q := by
  intro r
  obtain ⟨a, s, new, run, messages, reached⟩ := h r
  exact ⟨a, s, new, run, messages, fun none => sub a (reached none)⟩

theorem achieves_forM {f : α → Compile PUnit} (h : ∀ a, Achieves (f a) fun _ => True) (as : List α) :
    Achieves (as.forM f) fun _ => True := by
  induction as with
  | nil => exact achieves_pure trivial
  | cons a as ih => exact (h a).bind fun _ => ih.mono fun _ _ _ => trivial

inductive Step (full name : Text) : Text → Prop where
  | missing : find? full name = none → Step full name full
  | pass {m : Functional} : find? full name = some m → containsWord m.body m.name = false →
      Step full name (pending m full 0 [] full)

theorem achieves_expandCalls (m : Functional) (t : Text) :
    Achieves (expandCalls m t) fun t' => t' = pending m t 0 [] t := by
  refine Achieves.bind (achieves_forM (fun call => ?_) _) fun _ =>
    achieves_pure fun _ => splice_select m t
  split
  · exact achieves_pure trivial
  · exact (achieves_warn _ _).mono fun _ _ => trivial

theorem achieves_expandNamed (full name : Text) :
    Achieves (expandNamed full name) (Step full name) := by
  unfold expandNamed
  split
  · rename_i missing
    exact achieves_pure (.missing missing)
  · rename_i m found
    split
    · exact (achieves_warn _ _).bind fun _ => achieves_pure fun other => absurd rfl other
    · rename_i plain
      exact (achieves_expandCalls m full).mono fun _ same =>
        same ▸ .pass found (Bool.not_eq_true _ ▸ plain)

variable {t full : Text} {called : Text → Prop} {blocks : List Block}

theorem Stage.step (stage : Stage t called blocks full) (unreserved : ¬ Declares t "pragma".toList)
    (declared : ∀ n, Declares t n ↔ some n ∈ blocks.map Block.declared?) {name full' : Text}
    (next : ∀ n, called n → n ≠ name → Before t name n) (step : Step full name full') :
    ∃ blocks', Stage t (fun n => called n ∧ n ≠ name) blocks' full' ∧
      blocks'.map Block.declared? = blocks.map Block.declared? := by
  cases step with
  | missing missing => exact ⟨blocks, stage.skip (declared name).1 missing, rfl⟩
  | pass found plain => exact stage.pass unreserved (fun n => (declared n).2) next found plain

theorem mem_order {n : Text} (h : Declares t n) : n ∈ order t := by
  obtain ⟨line, member, m, parsed⟩ := h
  obtain ⟨rest, -, -, found, params, -⟩ := pragma?_of_parse? parsed
  exact List.mem_filterMap.2 ⟨line, member, by rw [found]; exact if_pos params⟩

theorem before_of_order {past rest : List Text} {name n : Text} (whole : order t = past ++ name :: rest)
    (declares : Declares t n) (new : n ∉ past) (other : n ≠ name) : Before t name n := by
  have listed := mem_order declares
  rw [Before, whole, List.idxOf_append_of_notMem new, List.idxOf_cons_ne _ other.symm]
  -- The order lists a macro once for each declaration, and the first of them counts.
  by_cases again : name ∈ past
  · rw [List.idxOf_append_of_mem again]
    have := List.idxOf_lt_length_of_mem again
    omega
  · rw [List.idxOf_append_of_notMem again, List.idxOf_cons_self]
    omega

theorem achieves_steps (unreserved : ¬ Declares t "pragma".toList) {past names : List Text}
    (whole : order t = past ++ names) (full : Text) :
    Achieves (names.foldlM expandNamed full) fun full' => ∀ blocks,
      Stage t (fun n => Declares t n ∧ n ∉ past) blocks full →
      (∀ n, Declares t n ↔ some n ∈ blocks.map Block.declared?) →
      ∃ blocks', Stage t (fun n => Declares t n ∧ n ∉ order t) blocks' full' := by
  induction names generalizing past full with
  | nil =>
    rw [List.append_nil] at whole
    exact achieves_pure fun blocks stage _ => ⟨blocks, whole ▸ stage⟩
  | cons name names ih =>
    rw [List.foldlM_cons]
    refine (achieves_expandNamed full name).bind fun full' =>
      (ih (List.append_cons .. ▸ whole) full').mono ?_
    intro full'' later step blocks stage declared
    obtain ⟨blocks', stage', same⟩ := stage.step unreserved declared
      (fun n called other => before_of_order whole called.1 called.2 other) step
    have only : (fun n => (Declares t n ∧ n ∉ past) ∧ n ≠ name) =
        fun n => Declares t n ∧ n ∉ past ++ [name] := by
      funext n
      simp only [List.mem_append, List.mem_singleton, not_or, and_assoc]
    exact later blocks' (only ▸ stage') (same.symm ▸ declared)

theorem Stage.blank (stage : Stage t called blocks full) (none : ∀ n, ¬ called n) {n : Text}
    (declared : Declares t n) :
    n ∉ words (joinFeeds ((feedLines full).map fun line => if isFunctional line then [] else line)) := by
  rw [joinFeeds, words_joinWith (by decide)]
  intro member
  obtain ⟨_, listed, inside⟩ := List.mem_flatMap.1 member
  obtain ⟨line, known, rfl⟩ := List.mem_map.1 listed
  rw [stage.whole, feedLines_joinFeeds (by simpa using stage.some_block)] at known
  obtain ⟨_, among, known⟩ := List.mem_flatMap.1 known
  obtain ⟨b, block, rfl⟩ := List.mem_map.1 among
  have holds := stage.holds b block
  split at inside
  · cases inside
  rename_i kept
  cases b with
  | declaration front name params body =>
    rw [feedLines, splitOn_eq_singleton (feed_notMem_declaration holds.1 holds.2.1),
      List.mem_singleton] at known
    refine kept ?_
    rw [known, isFunctional, pragma?_of_heads holds.1]
    rfl
  | line l =>
    rw [Block.text, feedLines, splitOn_eq_singleton holds.line, List.mem_singleton] at known
    subst known
    obtain ⟨rest, declares⟩ := holds.words n declared inside
    refine kept ?_
    rw [isFunctional, declares]
    rfl
  | code lines =>
    rcases holds.word_cases (words_subset_of_mem_feedLines known inside) with called | other
    · exact none n called
    · exact other.1 declared

end Run

section Complete

/-- A call of a macro: its name as a whole word, blanks, and a list in parentheses that closes. -/
def HasCall (t name : Text) : Prop :=
  ∃ before blanks list, t = before ++ (name ++ (blanks ++ '(' :: list)) ∧
    isFree before.getLast? = true ∧ (∀ c ∈ blanks, isBlank c = true) ∧
    (closeParen? 0 ('(' :: list)).isSome = true

theorem HasCall.mem_words {t name : Text} (h : HasCall t name) (isName : IsWord name) :
    name ∈ words t := by
  obtain ⟨before, blanks, list, rfl, free, spaces, -⟩ := h
  have own : name ∈ words (name ++ (blanks ++ '(' :: list)) := by
    rw [words_append_word isName (isFree_list spaces list)]
    exact List.mem_cons_self
  rcases List.eq_nil_or_concat before with rfl | ⟨before, c, rfl⟩
  · exact own
  · rw [List.concat_eq_append] at free ⊢
    have plain : isIdentChar c = false := by simpa [isFree] using free
    rw [List.append_assoc, List.singleton_append, words_append_cons plain]
    exact List.mem_append_right _ own

def joined (t : Text) : Text :=
  joinLines false (endedLines t)

/-- The expansion of a regular text that does not report a macro that refers to itself leaves no name of
a macro, so no call. -/
theorem expandFunctionals_complete (t : Text) (r : Report) (regular : Regular (joined t))
    (unreported : ∀ d ∈ ((expandFunctionals t).runWith r).2.messages.drop r.messages.length,
      d.code ≠ .recursiveMacro) :
    ∃ result, ((expandFunctionals t).runWith r).1 = .ok result ∧
      ∀ n, Declares (joined t) n → containsWord result n = false ∧ ¬ HasCall result n := by
  obtain ⟨blocks, stage, declared⟩ := regular.stage
  have run : Achieves (expandFunctionals t) fun result => ∀ n, Declares (joined t) n → n ∉ words result := by
    refine (achieves_steps regular.unreserved (List.nil_append (order (joined t))).symm (joined t)).bind
      fun full => achieves_pure ?_
    intro later n declares
    obtain ⟨blocks', final⟩ := later blocks (by simpa using stage) declared
    exact final.blank (fun n called => called.2 (mem_order called.1)) declares
  obtain ⟨result, s, new, run, messages, reached⟩ := run r
  rw [run, messages, List.drop_left] at unreported
  refine ⟨result, by rw [run], fun n declares => ?_⟩
  have isName := isWord_of_declares declares
  have absent := reached unreported n declares
  refine ⟨?_, fun call => absent (call.mem_words isName)⟩
  rwa [← Bool.not_eq_true, containsWord_iff_mem_words isName]

end Complete

section Layered

variable {called : Text → Prop} {t : Text}

def layered : Text :=
  joinFeeds ["#pragma define S(x) x*x".toList, "#pragma define D(x) S(x)+x".toList,
    "#pragma define T(x) (x)".toList, "float a = T(D(1));".toList]

theorem declares_layered {n : Text} : Declares layered n ↔ n ∈ [['S'], ['D'], ['T']] := by
  have listed : order layered = [['S'], ['D'], ['T']] := by decide +kernel
  have declared : ∀ n ∈ [['S'], ['D'], ['T']], Declares layered n := by decide +kernel
  exact ⟨fun h => listed ▸ mem_order h, declared n⟩

theorem uses_layered {a b : Text} (declared : Declares layered a) (h : Uses layered a b) :
    a = ['D'] ∧ b = ['S'] := by
  have all : ∀ a ∈ [['S'], ['D'], ['T']], ∀ b ∈ [['S'], ['D'], ['T']],
      Uses layered a b → a = ['D'] ∧ b = ['S'] := by decide +kernel
  exact all a (declares_layered.1 declared) b (declares_layered.1 h.1) h

theorem reaches_layered {n : Text} (h : Reaches layered ['D'] n) : n ∈ [['D'], ['S']] := by
  induction h with
  | refl => decide
  | tail _ used ih =>
    have declared : ∀ n ∈ [['D'], ['S']], n ∈ [['S'], ['D'], ['T']] := by decide
    simp [uses_layered (declares_layered.2 (declared _ ih)) used]

theorem below_layered : Below layered ['T'] ['D'] := by
  refine ⟨fun n inner outer => ?_, fun n reached line member m parsed => ?_⟩
  · rcases Relation.ReflTransGen.cases_head outer with rfl | ⟨c, used, -⟩
    · exact absurd (reaches_layered inner.reaches) (by decide)
    · exact absurd (uses_layered (declares_layered.2 (by decide)) used.1).1 (by decide)
  · have nests : ∀ n ∈ [['D'], ['S']], ∀ line ∈ feedLines layered,
        (Functional.parse? n line).all (fun m => nested [] m.body) = true := by decide +kernel
    have := nests n (reaches_layered reached) line member
    rwa [parsed] at this

theorem heads_layered {name : Text} (declares : Declares layered name) :
    Heads (Declares layered) "#pragma define ".toList name ['x'] := by
  have all : ∀ name ∈ [['S'], ['D'], ['T']],
      '\n' ∉ "#pragma define ".toList ++ (name ++ ['(', 'x']) ∧
      pragma? ("#pragma define ".toList ++ (name ++ ['(', 'x']) ++ [')']) = some (name, ['(', 'x', ')']) ∧
      ∀ n ∈ [['S'], ['D'], ['T']], n ≠ name →
        n ∉ words ("#pragma define ".toList ++ (name ++ ['(', 'x'])) := by decide +kernel
  obtain ⟨line, reads, words⟩ := all name (declares_layered.1 declares)
  exact ⟨line, reads, by decide, fun n h => words n (declares_layered.1 h)⟩

theorem plain_layered (others : ∀ w ∈ words t, w ∉ [['S'], ['D'], ['T']] ∧ w ≠ "pragma".toList) :
    Tidy (Declares layered) (Below layered) called t :=
  .of_words fun w listed => (others w listed).imp_left fun other declares =>
    other (declares_layered.1 declares)

theorem call_layered {name inner : Text} (declares : Declares layered name) (known : called name)
    (nests : nested [] inner = true)
    (inside : Tidy (Declares layered) (Below layered) (fun n => called n ∧ Below layered name n) inner)
    (free : isFree t.head? = true) (rest : Tidy (Declares layered) (Below layered) called t) :
    Tidy (Declares layered) (Below layered) called (name ++ '(' :: (inner ++ ')' :: t)) :=
  have none : ∀ c ∈ ([] : Text), isBlank c = true := nofun
  Tidy.call (isWord_of_declares declares) known none nests inside free rest

theorem regular_layered : Regular layered := by
  have s : Declares layered ['S'] := declares_layered.2 (by decide)
  have d : Declares layered ['D'] := declares_layered.2 (by decide)
  have t : Declares layered ['T'] := declares_layered.2 (by decide)
  have body : Tidy (Declares layered) (Below layered) (Declares layered) " S(x)+x".toList :=
    .char (c := ' ') (by decide)
      (call_layered s s (by decide) (plain_layered (t := ['x']) (by decide)) (by decide)
        (plain_layered (t := ['+', 'x']) (by decide)))
  have inner : Tidy (Declares layered) (Below layered)
      (fun n => Declares layered n ∧ Below layered ['T'] n) "D(1)".toList :=
    call_layered d ⟨d, below_layered⟩ (by decide) (plain_layered (t := ['1']) (by decide)) (by decide) .nil
  have code : Tidy (Declares layered) (Below layered) (Declares layered) "float a = T(D(1));".toList :=
    Tidy.append (s := "float a =".toList) (t := " T(D(1));".toList) (plain_layered (by decide))
      (.char (c := ' ') (by decide) (call_layered t t (by decide) inner (by decide)
        (plain_layered (t := [';']) (by decide)))) (by decide)
  refine ⟨fun h => absurd (declares_layered.1 h) (by decide),
    [.declaration "#pragma define ".toList ['S'] ['x'] " x*x".toList,
      .declaration "#pragma define ".toList ['D'] ['x'] " S(x)+x".toList,
      .declaration "#pragma define ".toList ['T'] ['x'] " (x)".toList,
      .code "float a = T(D(1));".toList], List.cons_ne_nil _ _, by decide +kernel, ?_⟩
  simp only [List.forall_mem_cons, Block.Regular, List.not_mem_nil, false_implies, implies_true, and_true]
  exact ⟨⟨heads_layered s, by decide, plain_layered (by decide)⟩, ⟨heads_layered d, by decide, body⟩,
    ⟨heads_layered t, by decide, plain_layered (by decide)⟩, code⟩

theorem expandFunctionals_complete_layered :
    Regular (joined layered) ∧
    (∀ d ∈ ((expandFunctionals layered).runWith {}).2.messages.drop ({} : Report).messages.length,
      d.code ≠ .recursiveMacro) ∧
    ∃ result, ((expandFunctionals layered).runWith {}).1 = .ok result ∧
      ∀ n, Declares (joined layered) n → containsWord result n = false ∧ ¬ HasCall result n := by
  have regular : Regular (joined layered) := by
    have same : joined layered = layered := by decide +kernel
    exact same ▸ regular_layered
  have unreported : ∀ d ∈ ((expandFunctionals layered).runWith {}).2.messages.drop
      ({} : Report).messages.length, d.code ≠ .recursiveMacro := by
    have run : (expandFunctionals layered).runWith {} = (.ok "\n\n\nfloat a = (1*1+1);".toList, {}) := by
      decide +kernel
    rw [run]
    exact nofun
  exact ⟨regular, unreported, expandFunctionals_complete layered {} regular unreported⟩

end Layered

section Incomplete

/-- The expansion of a text reports nothing and leaves a call of a macro that the text declares. -/
def LeavesCall (t name : Text) : Prop :=
  ∃ result, (expandFunctionals t).runWith {} = (.ok result, {}) ∧ Declares (joined t) name ∧
    HasCall result name

/-- Calls stay where a macro is called in its own list, where a name has no list behind it, as an argument
or in front of another call, and where a body in a list opens another one. -/
theorem not_expandFunctionals_complete :
    LeavesCall "#pragma define F(x) x\nfloat y = F(F(1));".toList ['F'] ∧
    LeavesCall "#pragma define F(x) x\n#pragma define C(f) f(1)\nC(F)".toList ['F'] ∧
    LeavesCall "#pragma define F(x) x\n#pragma define E()\nF E()(2)".toList ['F'] ∧
    LeavesCall "#pragma define P(x) (\n#pragma define F(x) x\n#pragma define Q(x) )\nF(P(1))Q(1)".toList
      ['F'] := by
  have blank {blanks : Text} (h : blanks.all isBlank = true) : ∀ c ∈ blanks, isBlank c = true :=
    List.all_eq_true.1 h
  refine ⟨⟨"\nfloat y = F(1);".toList, ?_, ?_, "\nfloat y = ".toList, [], "1);".toList, ?_, ?_, blank ?_, ?_⟩,
    ⟨"\n\nF(1)".toList, ?_, ?_, "\n\n".toList, [], "1)".toList, ?_, ?_, blank ?_, ?_⟩,
    ⟨"\n\nF (2)".toList, ?_, ?_, "\n\n".toList, [' '], "2)".toList, ?_, ?_, blank ?_, ?_⟩,
    ⟨"\n\n\nF(())".toList, ?_, ?_, "\n\n\n".toList, [], "())".toList, ?_, ?_, blank ?_, ?_⟩⟩
  all_goals decide +kernel

end Incomplete
end ShaderPass.Macro
