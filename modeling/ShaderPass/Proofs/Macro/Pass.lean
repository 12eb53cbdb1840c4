import ShaderPass.Proofs.Macro.Tidy

/-! One pass of the expansion: it replaces the calls of one macro. In a tidy text it finds each of them,
and what it writes in their place is tidy and calls the macro no more. -/
namespace ShaderPass.Macro

open ShaderPass.Text ShaderPass.Bracket

section Scan

variable {m : Functional} {full : Text}

def Call.edit (m : Functional) (t : Text) (call : Call) : Edit :=
  ⟨call.start, call.stop, call.expansion m t⟩

theorem at?_start {n : Nat} {call : Call} (found : Call.at? m full n = some call) :
    call.start = n ∧ n ≤ call.stop := by
  unfold Call.at? at found
  dsimp only at found
  split at found
  · cases found
  split at found
  · obtain ⟨inner, -, same⟩ := Option.bind_eq_some_iff.1 found
    cases same
    exact ⟨rfl, by dsimp only; omega⟩
  · cases found

theorem mem_select {last : Nat} {starts : List Nat} {call : Call}
    (member : call ∈ Call.select m full last starts) : call.start ∈ starts ∧ call.start ≤ call.stop := by
  induction starts generalizing last with
  | nil => cases member
  | cons n starts ih =>
    rw [Call.select] at member
    split at member
    · exact (ih member).imp_left (List.mem_cons_of_mem _)
    · split at member
      · rename_i first found
        rcases List.mem_cons.1 member with rfl | member
        · obtain ⟨rfl, le⟩ := at?_start found
          exact ⟨List.mem_cons_self, le⟩
        · exact (ih member).imp_left (List.mem_cons_of_mem _)
      · exact (ih member).imp_left (List.mem_cons_of_mem _)

theorem pairwise_select {last : Nat} {starts : List Nat} (ascending : starts.Pairwise (· < ·)) :
    (Call.select m full last starts).Pairwise fun a b => a.start < b.start := by
  induction starts generalizing last with
  | nil => exact .nil
  | cons n starts ih =>
    obtain ⟨first, rest⟩ := List.pairwise_cons.1 ascending
    rw [Call.select]
    split
    · exact ih rest
    · split
      · rename_i call found
        refine List.pairwise_cons.2 ⟨fun later member => ?_, ih rest⟩
        rw [(at?_start found).1]
        exact first _ (mem_select member).1
      · exact ih rest

theorem select_append {last : Nat} {starts : List Nat}
    (none : ∀ n ∈ starts, Call.at? m full n = none) (later : List Nat) :
    Call.select m full last (starts ++ later) = Call.select m full last later := by
  induction starts with
  | nil => rfl
  | cons n starts ih =>
    have rest := ih fun k hk => none k (List.mem_cons_of_mem _ hk)
    rw [List.cons_append, Call.select, none n List.mem_cons_self, rest]
    split <;> rfl

/-- What the pass of `m` over `full` writes for `rest`, which follows `p`; the last call ended at offset
`last`. -/
def pending (m : Functional) (full : Text) (last : Nat) (p rest : Text) : Text :=
  spliceFrom (byteLen p) rest
    ((Call.select m full last (wordOffsetsFrom m.name none 0 (byteLen p) rest)).map (Call.edit m full))

theorem pending_nil (isName : IsWord m.name) (last : Nat) (p : Text) : pending m full last p [] = [] := by
  rw [pending, wordOffsetsFrom_nil isName]
  rfl

theorem splice_select (m : Functional) (t : Text) :
    splice t ((Call.select m t 0 (wordOffsets t m.name)).map (Call.edit m t)) = pending m t 0 [] t := by
  rw [splice_eq_spliceFrom, dropBytes_zero]
  · rfl
  · rw [List.pairwise_map]
    exact (pairwise_select (pairwise_wordOffsetsFrom _ _ _ _ _).2).imp Nat.le_of_lt

theorem spliceFrom_append {edits : List Edit} {offset : Nat} {s : Text}
    (later : ∀ e ∈ edits, offset + byteLen s ≤ e.start ∧ e.start ≤ e.stop) (t : Text) :
    spliceFrom offset (s ++ t) edits = s ++ spliceFrom (offset + byteLen s) t edits := by
  cases edits with
  | nil => rfl
  | cons e edits =>
    obtain ⟨start, stop⟩ := later e List.mem_cons_self
    rw [spliceFrom, spliceFrom, takeBytes_append_of_le (by omega), dropBytes_append_of_le (by omega),
      Nat.sub_sub, Nat.sub_sub]
    simp only [List.append_assoc]

def Writes (m : Functional) (full p t u written : Text) : Prop :=
  ∀ last ≤ byteLen p, ∃ last' ≤ byteLen (p ++ t),
    pending m full last p (t ++ u) = written ++ pending m full last' (p ++ t) u

variable {p s t u s' t' : Text}

theorem Writes.append (first : Writes m full p s (t ++ u) s') (second : Writes m full (p ++ s) t u t') :
    Writes m full p (s ++ t) u (s' ++ t') := by
  intro last le
  obtain ⟨middle, le', run⟩ := first last le
  obtain ⟨last', le'', run'⟩ := second middle le'
  refine ⟨last', by rwa [List.append_assoc] at le'', ?_⟩
  rw [List.append_assoc, run, run', List.append_assoc, List.append_assoc]

theorem writes_nil (m : Functional) (full p u : Text) : Writes m full p [] u [] :=
  fun last le => ⟨last, by rwa [List.append_nil], by rw [List.append_nil]; rfl⟩

theorem writes_of_offsets {starts : List Nat}
    (split : wordOffsetsFrom m.name none 0 (byteLen p) (t ++ u) =
      starts ++ wordOffsetsFrom m.name none 0 (byteLen (p ++ t)) u)
    (none : ∀ n ∈ starts, Call.at? m full n = none) : Writes m full p t u t := by
  intro last le
  refine ⟨last, by rw [byteLen_append]; omega, ?_⟩
  rw [pending, split, select_append none, spliceFrom_append, pending, byteLen_append]
  intro e member
  obtain ⟨call, selected, rfl⟩ := List.mem_map.1 member
  obtain ⟨start, stop⟩ := mem_select selected
  rw [← byteLen_append]
  exact ⟨(pairwise_wordOffsetsFrom _ _ _ _ _).1 _ start, stop⟩

theorem at?_call {blanks inner : Text} (spaces : ∀ c ∈ blanks, isBlank c = true)
    (balanced : nested [] inner = true)
    (whole : full = p ++ (m.name ++ (blanks ++ '(' :: (inner ++ ')' :: u))))
    (undeclared : ((pragma? (lineAt full (byteLen p))).any fun (name, _) => name = m.name) = false) :
    Call.at? m full (byteLen p) = some {
      start := byteLen p
      stop := byteLen (p ++ (m.name ++ (blanks ++ '(' :: (inner ++ [')']))))
      args := splitArgs inner
      inBody := isFunctional (lineAt full (byteLen p)) } := by
  have rest : dropBytes (byteLen p + byteLen m.name) full = blanks ++ '(' :: (inner ++ ')' :: u) := by
    rw [whole, ← byteLen_append, ← List.append_assoc p, dropBytes_byteLen_append]
  have front : (blanks ++ '(' :: (inner ++ ')' :: u)).takeWhile isBlank = blanks := by
    rw [List.takeWhile_append_of_pos spaces, List.takeWhile_cons_of_neg (by decide), List.append_nil]
  have args : ('(' :: (inner ++ ')' :: u)).take (inner.length + 1) = '(' :: inner := by
    rw [List.take_succ_cons, List.take_left]
  have list : ('(' :: (inner ++ ')' :: u)).take (inner.length + 1 + 1) = '(' :: (inner ++ [')']) := by
    have : ((inner ++ [')']) ++ u).take (inner ++ [')']).length = inner ++ [')'] := List.take_left
    rw [List.length_append, List.length_singleton, List.append_assoc, List.singleton_append] at this
    rw [List.take_succ_cons, this]
  unfold Call.at?
  simp only [undeclared, rest, front, List.drop_left, List.head?_cons, closeParen?_list balanced, args,
    list, byteLen_append, Nat.add_assoc, Bool.false_eq_true, if_false, if_true, Option.bind_eq_bind,
    Option.bind_some, List.drop_succ_cons, List.drop_zero]
  rfl

variable (isName : IsWord m.name)
include isName

theorem writes_self (free : isFree u.head? = true)
    (none : ∀ n ∈ wordOffsetsFrom m.name none 0 (byteLen p) t, Call.at? m full n = none) :
    Writes m full p t u t := by
  refine writes_of_offsets ?_ none
  rw [wordOffsetsFrom_append isName free, byteLen_append]

theorem writes_of_notMem (free : isFree u.head? = true) (absent : m.name ∉ words t) :
    Writes m full p t u t := by
  apply writes_self isName free
  rw [(wordOffsetsFrom_eq_nil isName _).2 absent]
  exact nofun

theorem writes_char {c : Char} (plain : isIdentChar c = false) : Writes m full p [c] u [c] := by
  have none : ∀ n ∈ ([] : List Nat), Call.at? m full n = none := nofun
  refine writes_of_offsets ?_ none
  rw [List.singleton_append, wordOffsetsFrom_char isName plain, byteLen_append]
  rfl

theorem writes_call {blanks inner : Text} {call : Call} (absent : m.name ∉ words inner)
    (spaces : ∀ c ∈ blanks, isBlank c = true) (free : isFree u.head? = true)
    (found : Call.at? m full (byteLen p) = some call)
    (stop : call.stop = byteLen (p ++ (m.name ++ (blanks ++ '(' :: (inner ++ [')']))))) :
    Writes m full p (m.name ++ (blanks ++ '(' :: (inner ++ [')']))) u (call.expansion m full) := by
  intro last le
  refine ⟨call.stop, Nat.le_of_eq stop, ?_⟩
  have no_more : m.name ∉ words (blanks ++ '(' :: (inner ++ [')'])) := by
    rw [words_of_blank spaces, words_cons (by decide), words_append_cons (by decide)]
    simpa [words, runs] using absent
  have own : wordOffsetsFrom m.name none 0 (byteLen p) (m.name ++ (blanks ++ '(' :: (inner ++ [')']))) =
      [byteLen p] := by
    rw [wordOffsetsFrom_word isName isName (isFree_list spaces _), if_pos rfl,
      (wordOffsetsFrom_eq_nil isName _).2 no_more]
    rfl
  have length : byteLen (m.name ++ (blanks ++ '(' :: (inner ++ [')']))) = call.stop - byteLen p := by
    rw [stop, byteLen_append p]
    omega
  rw [pending, wordOffsetsFrom_append isName free, own, List.singleton_append, Call.select,
    if_neg (by omega), found, List.map_cons, spliceFrom]
  dsimp only [Call.edit]
  rw [(at?_start found).1, Nat.sub_self, takeBytes_zero, List.nil_append, ← length,
    dropBytes_byteLen_append, ← byteLen_append, pending, ← stop]

end Scan
variable {names : Text → Prop} {below : Text → Text → Prop} {balanced used P : Text → Prop}
  {m : Functional} {t t' : Text}

section Expansion

/-- A macro that a pass can expand: its body uses the macros in `used`, itself not among them. What its
body uses may stand where it may itself, and around what may stand in its lists. -/
structure Ready (names : Text → Prop) (below : Text → Text → Prop) (balanced used : Text → Prop)
    (m : Functional) : Prop where
  isName : IsWord m.name
  named : names m.name
  apart : ¬ below m.name m.name
  tidy : Tidy names below used m.body
  unused : ¬ used m.name
  params : ∀ n, used n → n ∉ m.params
  inside : ∀ outer n, below outer m.name → used n → below outer n
  around : ∀ n inner, used n → below m.name inner → below n inner
  balanced : balanced m.name → nested [] m.body = true

structure Outcome (names : Text → Prop) (below : Text → Text → Prop) (balanced P : Text → Prop)
    (name : Text) (inBody : Bool) (t t' : Text) : Prop where
  tidy : Tidy names below (fun n => P n ∧ n ≠ name) t'
  free : isFree t.head? = true → isFree t'.head? = true
  brackets : (∀ n, P n → balanced n) → ∀ stack u, nested stack (t' ++ u) = nested stack (t ++ u)
  feeds : inBody = true → '\n' ∉ t → '\n' ∉ t'

theorem notMem_mapWords {c : Char} {f : Text → Text} (kept : ∀ w, c ∉ w → c ∉ f w) {t : Text}
    (absent : c ∉ t) : c ∉ mapWords f t := by
  induction t using word_induction with
  | nil => rw [mapWords_nil]; exact absent
  | char d t plain ih =>
    rw [List.mem_cons, not_or] at absent
    rw [mapWords_cons plain, List.mem_cons, not_or]
    exact ⟨absent.1, ih absent.2⟩
  | word w t isWord free ih =>
    rw [List.mem_append, not_or] at absent
    rw [mapWords_word isWord free, List.mem_append, not_or]
    exact ⟨kept w absent.1, ih absent.2⟩

def argument (params args : List Text) (word : Text) : Text :=
  match params.idxOf? word with
  | some i => args.getD i []
  | none => word

theorem substituteParams_eq (params args : List Text) (body : Text) :
    substituteParams params args body = mapWords (argument params args) body :=
  rfl

theorem argument_of_notMem {params : List Text} {w : Text} (absent : w ∉ params) (args : List Text) :
    argument params args w = w := by
  rw [argument, List.idxOf?_eq_none_iff.2 absent]

theorem argument_cases (params args : List Text) (w : Text) :
    argument params args w = w ∨ argument params args w ∈ args ∨ argument params args w = [] := by
  unfold argument
  split
  · rename_i i _
    rw [List.getD_eq_getElem?_getD]
    cases found : args[i]? with
    | none => exact Or.inr (Or.inr rfl)
    | some a => exact Or.inr (Or.inl (List.mem_of_getElem? found))
  · exact Or.inl rfl

theorem feed_notMem_substituteParams {params args : List Text} {body : Text} (line : '\n' ∉ body)
    (arg_lines : ∀ a ∈ args, '\n' ∉ a) : '\n' ∉ substituteParams params args body := by
  rw [substituteParams_eq]
  refine notMem_mapWords (fun w absent => ?_) line
  rcases argument_cases params args w with same | given | missing
  · rwa [same]
  · exact arg_lines _ given
  · rw [missing]
    exact List.not_mem_nil

theorem nested_argument (params : List Text) {args : List Text} (nests : ∀ a ∈ args, nested [] a = true)
    {w : Text} (isWord : IsWord w) : nested [] (argument params args w) = true := by
  rcases argument_cases params args w with same | given | missing
  · rw [same]
    exact nested_of_isWord isWord
  · exact nests _ given
  · rw [missing]
    rfl

theorem nested_substituteParams (params : List Text) {args : List Text} {body : Text}
    (nests : nested [] body = true) (args_nest : ∀ a ∈ args, nested [] a = true) :
    nested [] (substituteParams params args body) = true := by
  have := nested_mapWords (fun w isWord => nested_argument params args_nest isWord) body [] []
  rwa [List.append_nil, List.append_nil, nests] at this

theorem Ready.substituteParams (ready : Ready names below balanced used m) {args : List Text}
    (tidy : ∀ a ∈ args, Tidy names below (fun n => P n ∧ below m.name n) a)
    (nests : ∀ a ∈ args, nested [] a = true) (closed : ∀ n, used n → P n) :
    Tidy names below (fun n => P n ∧ n ≠ m.name) (substituteParams m.params args m.body) := by
  have apart (n : Text) (h : P n ∧ below m.name n) : P n ∧ n ≠ m.name :=
    ⟨h.1, fun same => ready.apart (same ▸ h.2)⟩
  have put (w : Text) : argument m.params args w = w ∨
      Tidy names below (fun n => P n ∧ below m.name n) (argument m.params args w) := by
    rcases argument_cases m.params args w with same | given | missing
    · exact Or.inl same
    · exact Or.inr (tidy _ given)
    · exact Or.inr (missing ▸ .nil)
  rw [substituteParams_eq]
  exact (ready.tidy.mapWords (Q := fun n => P n ∧ n ≠ m.name)
    (fun n h => argument_of_notMem (ready.params n h) args) put (fun w => nested_argument _ nests)
    (fun n h => ⟨closed n h, fun same => ready.unused (same ▸ h)⟩) apart
    fun outer n h inner => ready.around outer n h inner.2).1

theorem lineIndent_blank (t : Text) (n : Nat) : ∀ c ∈ lineIndent t n, isBlank c = true := by
  intro c member
  have := List.all_eq_true.1 List.all_takeWhile c member
  rw [Bool.or_eq_true, decide_eq_true_eq, decide_eq_true_eq] at this
  rcases this with rfl | rfl <;> decide

theorem feed_blank (full : Text) (n : Nat) : ∀ c ∈ '\n' :: lineIndent full n, isBlank c = true :=
  List.forall_mem_cons.2 ⟨by decide, lineIndent_blank full n⟩

theorem feed_notMem_expansion {call : Call} (inBody : call.inBody = true) (body : '\n' ∉ m.body)
    (args : ∀ a ∈ call.args, '\n' ∉ a) (full : Text) : '\n' ∉ call.expansion m full := by
  rw [Call.expansion, if_pos inBody]
  exact feed_notMem_substituteParams body args

theorem nested_expansion {call : Call} (body : nested [] m.body = true)
    (args : ∀ a ∈ call.args, nested [] a = true) (full : Text) :
    nested [] (call.expansion m full) = true := by
  have nests := nested_substituteParams m.params body args
  unfold Call.expansion
  dsimp only
  split
  · exact nests
  · have := nested_putBreaks (fun c hc => isPlain_of_isBlank (feed_blank full call.start c hc))
      (Macro.substituteParams m.params call.args m.body) [] []
    rwa [← replaceAll_breakMark, List.append_nil, List.append_nil, nests] at this

theorem Ready.expansion (ready : Ready names below balanced used m) {call : Call}
    (tidy : ∀ a ∈ call.args, Tidy names below (fun n => P n ∧ below m.name n) a)
    (nests : ∀ a ∈ call.args, nested [] a = true) (closed : ∀ n, used n → P n) (full : Text) :
    Tidy names below (fun n => P n ∧ n ≠ m.name) (call.expansion m full) := by
  have body := ready.substituteParams tidy nests closed
  unfold Call.expansion
  dsimp only
  split
  · exact body
  · rw [replaceAll_breakMark]
    exact body.putBreaks (List.cons_ne_nil _ _) (feed_blank full call.start)

end Expansion
section Pass

variable {inBody : Bool} {w name blanks inner inner' e : Text}

theorem Outcome.nil (name : Text) : Outcome names below balanced P name inBody [] [] :=
  ⟨.nil, id, fun _ _ _ => rfl, fun _ => id⟩

theorem Outcome.char {c : Char} (plain : isIdentChar c = false)
    (h : Outcome names below balanced P name inBody t t') :
    Outcome names below balanced P name inBody (c :: t) (c :: t') where
  tidy := .char plain h.tidy
  free := id
  brackets sub stack u := by simp only [List.cons_append, nested, h.brackets sub]
  feeds body absent := by
    rw [List.mem_cons, not_or] at absent ⊢
    exact ⟨absent.1, h.feeds body absent.2⟩

theorem not_isFree_of_isWord (isWord : IsWord w) (t : Text) : ¬ isFree (w ++ t).head? = true := by
  obtain ⟨c, w, rfl⟩ := List.exists_cons_of_ne_nil isWord.1
  simp [isFree, isWord.2 c List.mem_cons_self]

theorem Outcome.word (isWord : IsWord w) (other : ¬ names w) (reserved : w ≠ "pragma".toList)
    (free : isFree t.head? = true) (h : Outcome names below balanced P name inBody t t') :
    Outcome names below balanced P name inBody (w ++ t) (w ++ t') where
  tidy := .word isWord other reserved (h.free free) h.tidy
  free starts := absurd starts (not_isFree_of_isWord isWord t)
  brackets sub stack u := by
    have plain : ∀ c ∈ w, isPlain c = true := fun c hc => isPlain_of_isIdentChar (isWord.2 c hc)
    rw [List.append_assoc, List.append_assoc, nested_append_of_plain plain,
      nested_append_of_plain plain, h.brackets sub]
  feeds body absent := by
    rw [List.mem_append, not_or] at absent ⊢
    exact ⟨absent.1, h.feeds body absent.2⟩

theorem Outcome.other {callee : Text} (isName : IsWord callee) (called : P callee) (differs : callee ≠ name)
    (spaces : ∀ c ∈ blanks, isBlank c = true) (nests : nested [] inner = true)
    (sub : ∀ n, P n ∧ below callee n → balanced n) (free : isFree t.head? = true)
    (list : Outcome names below balanced (fun n => P n ∧ below callee n) name inBody inner inner')
    (h : Outcome names below balanced P name inBody t t') :
    Outcome names below balanced P name inBody (callee ++ (blanks ++ '(' :: (inner ++ ')' :: t)))
      (callee ++ (blanks ++ '(' :: (inner' ++ ')' :: t'))) := by
  have nests' : nested [] inner' = true := by
    have := list.brackets sub [] []
    rwa [List.append_nil, List.append_nil, nests] at this
  have regroup (inner t u : Text) : callee ++ (blanks ++ '(' :: (inner ++ ')' :: t)) ++ u =
      callee ++ (blanks ++ '(' :: (inner ++ ')' :: (t ++ u))) := by simp
  constructor
  · refine .call isName ⟨called, differs⟩ spaces nests' (list.tidy.mono fun n h => ?_) (h.free free) h.tidy
    exact ⟨⟨h.1.1, h.2⟩, h.1.2⟩
  · exact fun starts => absurd starts (not_isFree_of_isWord isName _)
  · intro sub' stack u
    rw [regroup, regroup, nested_call isName spaces nests, nested_call isName spaces nests',
      h.brackets sub']
  · intro body absent
    simp only [List.mem_append, List.mem_cons, not_or] at absent ⊢
    exact ⟨absent.1, absent.2.1, absent.2.2.1, list.feeds body absent.2.2.2.1, absent.2.2.2.2.1,
      h.feeds body absent.2.2.2.2.2⟩

theorem Outcome.call (isName : IsWord name) (called : P name) (spaces : ∀ c ∈ blanks, isBlank c = true)
    (nests : nested [] inner = true) (free : isFree t.head? = true)
    (tidy : Tidy names below (fun n => P n ∧ n ≠ name) e)
    (brackets : balanced name → nested [] e = true)
    (feeds : inBody = true → '\n' ∉ inner → '\n' ∉ e)
    (h : Outcome names below balanced P name inBody t t') :
    Outcome names below balanced P name inBody (name ++ (blanks ++ '(' :: (inner ++ ')' :: t)))
      (e ++ t') where
  tidy := tidy.append h.tidy (h.free free)
  free starts := absurd starts (not_isFree_of_isWord isName _)
  brackets sub stack u := by
    have regroup : name ++ (blanks ++ '(' :: (inner ++ ')' :: t)) ++ u =
        name ++ (blanks ++ '(' :: (inner ++ ')' :: (t ++ u))) := by simp
    rw [regroup, nested_call isName spaces nests, List.append_assoc, ← h.brackets sub]
    exact nested_append [] (brackets (sub name called)) stack _
  feeds body absent := by
    simp only [List.mem_append, List.mem_cons, not_or] at absent ⊢
    exact ⟨feeds body absent.2.2.2.1, h.feeds body absent.2.2.2.2.2⟩

theorem Ready.exists_writes (ready : Ready names below balanced used m) {full p u : Text}
    (called : ∀ n, used n → P n) (spaces : ∀ c ∈ blanks, isBlank c = true) (nests : nested [] inner = true)
    (inside : Tidy names below (fun n => P n ∧ below m.name n) inner) (free : isFree u.head? = true)
    (whole : full = p ++ (m.name ++ (blanks ++ '(' :: (inner ++ ')' :: u))))
    (undeclared : ((pragma? (lineAt full (byteLen p))).any fun (name, _) => name = m.name) = false)
    (body_line : isFunctional (lineAt full (byteLen p)) = true → '\n' ∉ m.body) :
    ∃ e, Writes m full p (m.name ++ (blanks ++ '(' :: (inner ++ [')']))) u e ∧
      Tidy names below (fun n => P n ∧ n ≠ m.name) e ∧ (balanced m.name → nested [] e = true) ∧
      (isFunctional (lineAt full (byteLen p)) = true → '\n' ∉ inner → '\n' ∉ e) := by
  obtain ⟨call, found, stop, args_eq, body_eq⟩ : ∃ call, Call.at? m full (byteLen p) = some call ∧
      call.stop = byteLen (p ++ (m.name ++ (blanks ++ '(' :: (inner ++ [')'])))) ∧
      call.args = Text.splitArgs inner ∧ call.inBody = isFunctional (lineAt full (byteLen p)) :=
    ⟨_, at?_call spaces nests whole undeclared, rfl, rfl, rfl⟩
  have absent : m.name ∉ words inner := fun member =>
    (inside.word_cases member).elim (fun h => ready.apart h.2) fun h => h.1 ready.named
  have args_nest : ∀ a ∈ call.args, nested [] a = true := fun a member =>
    nested_of_mem_splitArgs nests (args_eq ▸ member)
  refine ⟨_, writes_call ready.isName absent spaces free found stop,
    ready.expansion (args_eq ▸ inside.splitArgs nests) args_nest called full,
    fun h => nested_expansion (ready.balanced h) args_nest full, fun body feed => ?_⟩
  exact feed_notMem_expansion (body_eq.trans body) (body_line body) (fun a member hc =>
    feed (mem_of_mem_splitArgs (args_eq ▸ member) hc)) full

theorem Writes.list {full p u written : Text} (isName : IsWord m.name) (isCallee : IsWord name)
    (other : name ≠ m.name) (spaces : ∀ c ∈ blanks, isBlank c = true)
    (run : Writes m full (p ++ (name ++ blanks) ++ ['(']) inner (')' :: u) written) :
    Writes m full p (name ++ (blanks ++ '(' :: (inner ++ [')']))) u
      (name ++ (blanks ++ '(' :: (written ++ [')']))) := by
  have absent : m.name ∉ words (name ++ blanks) := by
    have only := words_append_word isCallee (isFree_of_append (isFree_list spaces []))
    have none := words_of_blank spaces []
    rw [List.append_nil] at none
    rw [only, none, words_nil, List.mem_singleton]
    exact other.symm
  have front : Writes m full p (name ++ blanks) (['('] ++ (inner ++ [')']) ++ u) _ :=
    writes_of_notMem isName rfl absent
  have list := front.append ((writes_char isName (by decide)).append
    (run.append (t := [')']) (writes_char isName (by decide))))
  simpa using list

theorem Tidy.writes (h : Tidy names below P t) (inBody : Bool) (ready : Ready names below balanced used m)
    (balances : ∀ callee n, below callee n → balanced n) {full p u : Text}
    (whole : full = p ++ (t ++ u)) (free : isFree u.head? = true)
    (closed : P m.name → ∀ n, used n → P n)
    (line : ∀ x y, t = x ++ y →
      ((pragma? (lineAt full (byteLen (p ++ x)))).any fun (name, _) => name = m.name) = false ∧
        isFunctional (lineAt full (byteLen (p ++ x))) = inBody)
    (body_line : inBody = true → '\n' ∉ m.body) :
    ∃ t', Writes m full p t u t' ∧ Outcome names below balanced P m.name inBody t t' := by
  have isName := ready.isName
  induction h generalizing p u with
  | nil => exact ⟨[], writes_nil m full p u, .nil _⟩
  | @char _ c t plain _ ih =>
    obtain ⟨t', run, outcome⟩ := ih (p := p ++ [c]) (u := u) (by simp [whole]) free closed
      fun x y cut => by simpa using line (c :: x) y (by rw [cut]; rfl)
    exact ⟨c :: t', (writes_char isName plain).append run, outcome.char plain⟩
  | @word _ w t isWord other reserved free' _ ih =>
    obtain ⟨t', run, outcome⟩ := ih (p := p ++ w) (u := u) (by simp [whole]) free closed
      fun x y cut => by simpa using line (w ++ x) y (by rw [cut, List.append_assoc])
    have absent : m.name ∉ words w := by
      rw [words_of_isWord isWord, List.mem_singleton]
      exact fun same => other (same ▸ ready.named)
    exact ⟨w ++ t', (writes_of_notMem isName (head?_append_isFree free' free) absent).append run,
      outcome.word isWord other reserved free'⟩
  | @call P callee blanks inner t isCallee called spaces nests inside free' _ ih ih' =>
    obtain ⟨t', run', outcome'⟩ := ih' (u := u)
      (p := p ++ (callee ++ (blanks ++ '(' :: (inner ++ [')'])))) (by simp [whole]) free closed
      fun x y cut => by
        simpa using line (callee ++ (blanks ++ '(' :: (inner ++ ')' :: x))) y (by simp [cut])
    have after := head?_append_isFree free' free
    by_cases same : callee = m.name
    · subst same
      have here := line [] _ rfl
      rw [List.append_nil] at here
      obtain ⟨e, run, tidy, brackets, feeds⟩ := ready.exists_writes (u := t ++ u) (closed called) spaces
        nests inside after (by simp [whole]) here.1 (by rwa [here.2])
      rw [here.2] at feeds
      exact ⟨e ++ t', by simpa using run.append run',
        .call isName called spaces nests free' tidy brackets feeds outcome'⟩
    -- The list of another call is tidy for fewer macros, and what `m` uses may stand in it where `m` may.
    · obtain ⟨inner', run, outcome⟩ := ih (u := ')' :: (t ++ u)) (p := p ++ (callee ++ blanks) ++ ['('])
        (by simp [whole]) rfl
        (fun h n hn => ⟨closed h.1 n hn, ready.inside callee n h.2 hn⟩)
        fun x y cut => by
          simpa using line (callee ++ (blanks ++ '(' :: x)) (y ++ ')' :: t) (by simp [cut])
      have list := (Writes.list isName isCallee same spaces run).append run'
      exact ⟨callee ++ (blanks ++ '(' :: (inner' ++ ')' :: t')), by simpa using list,
        outcome.other isCallee called same spaces nests (fun n h => balances callee n h.2) free' outcome'⟩

end Pass
end ShaderPass.Macro
