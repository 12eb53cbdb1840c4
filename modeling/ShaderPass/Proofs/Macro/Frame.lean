import ShaderPass.Proofs.Macro.Expansion
import ShaderPass.Proofs.Macro.Joining

/-! The expansion of macros with parameters leaves the other lines alone. A pass rewrites lines that declare
macros, and keeps each of them a line, as long as no call in it goes on behind its end. -/
namespace ShaderPass.Macro

open ShaderPass.Text

section Call

variable {m : Functional} {full : Text}

theorem exists_of_at? {a b : Text} (whole : full = a ++ (m.name ++ b)) {call : Call}
    (found : Call.at? m full (byteLen a) = some call) :
    ∃ piece rest, full = a ++ (piece ++ rest) ∧ call.start = byteLen a ∧
      call.stop = byteLen (a ++ piece) ∧ call.inBody = isFunctional (lineAt full (byteLen a)) ∧
      ∀ arg ∈ call.args, ∀ c ∈ arg, c ∈ piece := by
  have behind : dropBytes (byteLen a + byteLen m.name) full = b := by
    rw [whole, ← byteLen_append, ← List.append_assoc, dropBytes_byteLen_append]
  unfold Call.at? at found
  dsimp only at found
  rw [behind] at found
  split at found
  · cases found
  split at found
  · obtain ⟨inner, -, same⟩ := Option.bind_eq_some_iff.1 found
    have same := Option.some.inj same
    refine ⟨m.name ++ (b.takeWhile isBlank ++ (b.drop (b.takeWhile isBlank).length).take (inner + 1)),
      (b.drop (b.takeWhile isBlank).length).drop (inner + 1), ?_, ?_, ?_, ?_, ?_⟩
    · rw [List.append_assoc, List.append_assoc, List.take_append_drop, drop_length_takeWhile,
        List.takeWhile_append_dropWhile, whole]
    · rw [← same]
    · rw [← same]
      simp only [byteLen_append, Nat.add_assoc]
    · rw [← same]
    · intro arg listed c member
      rw [← same] at listed
      have inside := List.mem_of_mem_drop (mem_of_mem_splitArgs listed member)
      refine List.mem_append_right _ (List.mem_append_right _ ?_)
      exact (List.take_subset_take_left _ (Nat.le_succ inner)) inside
  · cases found

theorem at?_eq_none {x y : Text} (whole : full = x ++ (m.name ++ y))
    (no_list : (trimStart y).head? ≠ some '(') : Call.at? m full (byteLen x) = none := by
  have behind : dropBytes (byteLen x + byteLen m.name) full = y := by
    rw [whole, ← byteLen_append, ← List.append_assoc, dropBytes_byteLen_append]
  unfold Call.at?
  dsimp only
  rw [behind, drop_length_takeWhile]
  split
  · rfl
  · exact if_neg no_list

theorem head?_trimStart_cons {c : Char} (solid : isBlank c = false) (other : c ≠ '(') (t : Text) :
    (trimStart (c :: t)).head? ≠ some '(' := by
  rw [trimStart, List.dropWhile_cons_of_neg (Bool.eq_false_iff.1 solid)]
  exact fun opens => other (Option.some.inj opens)

theorem head?_trimStart_append {y z : Text} (no_paren : '(' ∉ y) (rest : (trimStart z).head? ≠ some '(') :
    (trimStart (y ++ z)).head? ≠ some '(' := by
  rcases blank_or_exists y with blank | ⟨b, c, s, rfl, blank, solid⟩
  · rwa [trimStart_blank_append blank]
  · rw [List.append_assoc, List.cons_append, trimStart_append_cons blank solid]
    intro opens
    obtain rfl := Option.some.inj opens
    exact no_paren (by simp)

theorem head?_trimStart_word {word : Text} (isWord : IsWord word) (t : Text) :
    (trimStart (word ++ t)).head? ≠ some '(' := by
  obtain ⟨c, w, rfl⟩ := List.exists_cons_of_ne_nil isWord.1
  have ident := isWord.2 c List.mem_cons_self
  refine head?_trimStart_cons (Layout.isBlank_of_isIdentChar ident) ?_ _
  rintro rfl
  cases ident

theorem select_of_le {last last' : Nat} {starts : List Nat} (le : ∀ n ∈ starts, last ≤ n)
    (le' : ∀ n ∈ starts, last' ≤ n) : Call.select m full last starts = Call.select m full last' starts := by
  induction starts with
  | nil => rfl
  | cons n starts ih =>
    have first := le n List.mem_cons_self
    have first' := le' n List.mem_cons_self
    rw [Call.select, Call.select, if_neg (by omega), if_neg (by omega),
      ih (fun k hk => le k (List.mem_cons_of_mem n hk)) fun k hk => le' k (List.mem_cons_of_mem n hk)]

theorem writes_of_pending {p t u written : Text} (run : ∃ last' ≤ byteLen (p ++ t),
    pending m full (byteLen p) p (t ++ u) = written ++ pending m full last' (p ++ t) u) :
    Writes m full p t u written := by
  intro last le
  obtain ⟨last', le', run⟩ := run
  refine ⟨last', le', ?_⟩
  have ahead := (pairwise_wordOffsetsFrom m.name none 0 (byteLen p) (t ++ u)).1
  rw [← run, pending, pending, select_of_le (fun n hn => Nat.le_trans le (ahead n hn)) ahead]

end Call

section Line

variable {m : Functional} {full : Text}

/-- Every call of a macro ends on the line that it starts on. -/
def OnLine (m : Functional) (full : Text) : Prop :=
  ∀ n ∈ wordOffsets full m.name, ∀ call ∈ Call.at? m full n, '\n' ∉ slice call.start call.stop full

instance (m : Functional) (full : Text) : Decidable (OnLine m full) :=
  inferInstanceAs (Decidable (∀ n ∈ wordOffsets full m.name, ∀ call ∈ Call.at? m full n,
    '\n' ∉ slice call.start call.stop full))

theorem exists_of_append_line {u s r t : Text} (ends : u = [] ∨ ∃ v, u = '\n' :: v) (same : s ++ u = r ++ t)
    (line : '\n' ∉ r) : ∃ k, s = r ++ k ∧ t = k ++ u := by
  rcases List.append_eq_append_iff.1 same with ⟨k, rfl, rest⟩ | ⟨k, rfl, rfl⟩
  · cases k with
    | nil => exact ⟨[], by simp, by rw [rest]; rfl⟩
    | cons c k =>
      -- What is left of the piece would start behind the line.
      rcases ends with rfl | ⟨v, rfl⟩
      · cases rest
      · obtain ⟨rfl, -⟩ := List.cons.inj rest
        exact absurd (by simp) line
  · exact ⟨k, rfl, rfl⟩

def Within (R : Text → Text → Prop) (m : Functional) (full u : Text) (call : Call) : Prop :=
  ∃ x piece k, full = x ++ (piece ++ (k ++ u)) ∧ call.start = byteLen x ∧ call.stop = byteLen (x ++ piece) ∧
    R piece (call.expansion m full)

section Select

variable {R : Text → Text → Prop} (refl : ∀ s, R s s)
  (append : ∀ s s' t t', R s s' → R t t' → R (s ++ t) (s' ++ t'))
include refl append

theorem exists_select {starts later : List Nat} {p r u : Text} {last : Nat} (whole : full = p ++ (r ++ u))
    (within : ∀ n ∈ starts, ∀ call ∈ Call.at? m full n, Within R m full u call)
    (bound : last ≤ byteLen p) (ahead : ∀ n ∈ starts, last ≤ n → byteLen p ≤ n)
    (behind : ∀ n ∈ later, byteLen (p ++ r) ≤ n) :
    ∃ last' ≤ byteLen (p ++ r), ∃ r', R r r' ∧
      spliceFrom (byteLen p) (r ++ u) ((Call.select m full last (starts ++ later)).map (Call.edit m full)) =
        r' ++ spliceFrom (byteLen (p ++ r)) u ((Call.select m full last' later).map (Call.edit m full)) := by
  induction starts generalizing p r last with
  | nil =>
    refine ⟨last, by rw [byteLen_append]; omega, r, refl r, ?_⟩
    rw [List.nil_append, spliceFrom_append, byteLen_append]
    intro e member
    obtain ⟨call, selected, rfl⟩ := List.mem_map.1 member
    obtain ⟨start, stop⟩ := mem_select selected
    rw [← byteLen_append]
    exact ⟨behind _ start, stop⟩
  | cons n starts ih =>
    have within' := fun k hk => within k (List.mem_cons_of_mem n hk)
    have ahead' := fun k hk => ahead k (List.mem_cons_of_mem n hk)
    rw [List.cons_append, Call.select]
    split
    · exact ih whole within' bound ahead' behind
    rename_i reached
    cases found : Call.at? m full n with
    | none => exact ih whole within' bound ahead' behind
    | some call =>
      obtain ⟨x, piece, k, cut, start, stop, related⟩ := within n List.mem_cons_self call found
      obtain rfl := start.symm.trans (at?_start found).1
      -- The call lies between the text in front of it and the end of the piece.
      obtain ⟨a, rfl, same⟩ := append_eq_append_of_byteLen_le (whole.symm.trans cut)
        (ahead _ List.mem_cons_self (by omega))
      obtain rfl : r = a ++ (piece ++ k) := by
        rw [← List.append_assoc piece, ← List.append_assoc a] at same
        exact List.append_cancel_right same
      have len : byteLen (p ++ (a ++ (piece ++ k))) = byteLen (p ++ a ++ piece ++ k) := by
        simp only [List.append_assoc]
      rw [len] at behind
      obtain ⟨last', le, r', rest, run⟩ := ih (p := p ++ a ++ piece) (r := k) (by rw [whole]; simp) within'
        (Nat.le_of_eq stop) (fun k hk reached => by rwa [stop] at reached) behind
      refine ⟨last', len ▸ le, a ++ (call.expansion m full ++ r'), ?_, ?_⟩
      · exact append _ _ _ _ (refl a) (append _ _ _ _ related rest)
      · have front : byteLen (p ++ a) - byteLen p = byteLen a := by rw [byteLen_append]; omega
        have gone : call.stop - byteLen p = byteLen (a ++ piece) := by
          rw [stop, byteLen_append, byteLen_append, byteLen_append]
          omega
        have split : a ++ (piece ++ k) ++ u = a ++ piece ++ (k ++ u) := by simp
        rw [List.map_cons, spliceFrom, Call.edit]
        dsimp only
        rw [start, front, gone, split, dropBytes_byteLen_append, List.append_assoc a,
          takeBytes_byteLen_append, stop]
        rw [stop] at run
        rw [run]
        simp only [List.append_assoc]

theorem exists_writes (isName : IsWord m.name) {p s u : Text} {c : Char} (plain : isIdentChar c = false)
    (free : isFree u.head? = true) (whole : full = p ++ c :: (s ++ u))
    (within : ∀ n ∈ wordOffsetsFrom m.name none 0 (byteLen (p ++ [c])) s, n ∈ wordOffsets full m.name →
      ∀ call ∈ Call.at? m full n, Within R m full u call) :
    ∃ s', Writes m full (p ++ [c]) s u s' ∧ R s s' := by
  have ahead := fun offset t => (pairwise_wordOffsetsFrom m.name none 0 offset t).1
  have offset : byteLen p + c.utf8Size = byteLen (p ++ [c]) := by simp
  have inside : ∀ n ∈ wordOffsetsFrom m.name none 0 (byteLen (p ++ [c])) s,
      ∀ call ∈ Call.at? m full n, Within R m full u call := by
    intro n member
    refine within n member ?_
    rw [whole, wordOffsets, wordOffsetsFrom_append_cons isName plain, wordOffsetsFrom_char isName plain,
      wordOffsetsFrom_append isName free, Nat.zero_add, offset]
    exact List.mem_append_right _ (List.mem_append_left _ member)
  have regroup : full = p ++ [c] ++ (s ++ u) := by
    rw [whole, List.append_assoc]
    rfl
  obtain ⟨last, le, s', related, run⟩ := exists_select refl append regroup inside (Nat.le_refl _)
    (fun n member _ => ahead _ s n member) (ahead _ u)
  refine ⟨s', writes_of_pending ⟨last, le, ?_⟩, related⟩
  rw [pending, wordOffsetsFrom_append isName free, ← byteLen_append, run]
  rfl

end Select

variable {p u l : Text}

theorem at?_heading (isName : IsWord m.name) {front name s : Text} (heading : Heading front name)
    (other : name ≠ m.name) (whole : full = p ++ (front ++ (name ++ ['(']) ++ s)) :
    ∀ n ∈ wordOffsetsFrom m.name none 0 (byteLen p) (front ++ (name ++ ['('])), Call.at? m full n = none := by
  obtain ⟨f, c, rfl, plain⟩ := heading.ends
  have absent : m.name ∉ words (c :: (name ++ ['('])) := by
    rw [words_cons plain, words_append_word heading.isName rfl, words_cons (by decide), words_nil,
      List.mem_singleton]
    exact other.symm
  intro n member
  rw [List.append_assoc, List.singleton_append, wordOffsetsFrom_append_cons isName plain,
    (wordOffsetsFrom_eq_nil isName _).2 absent, List.append_nil] at member
  obtain ⟨x, y, rfl, rfl⟩ := exists_of_mem_wordOffsetsFrom member
  have no_paren := heading.no_paren
  simp only [List.mem_append, not_or] at no_paren
  rw [← byteLen_append]
  refine at?_eq_none (y := y ++ ([c] ++ (name ++ '(' :: s))) (by rw [whole]; simp) ?_
  refine head?_trimStart_append no_paren.1.2.2 (head?_trimStart_append no_paren.2 ?_)
  exact head?_trimStart_word heading.isName _

theorem writes_heading (isName : IsWord m.name) {front name s : Text} (heading : Heading front name)
    (other : name ≠ m.name) (whole : full = p ++ (front ++ (name ++ ['(']) ++ s)) :
    Writes m full p (front ++ (name ++ ['('])) s (front ++ (name ++ ['('])) := by
  refine writes_of_offsets ?_ (at?_heading isName heading other whole)
  rw [← List.append_assoc, wordOffsetsFrom_append_char isName (by decide), ← byteLen_append]

theorem within_line (body : '\n' ∉ m.body) (ends : u = [] ∨ ∃ v, u = '\n' :: v) {x y : Text}
    (whole : full = x ++ (m.name ++ (y ++ u))) (reads : isFunctional (lineAt full (byteLen x)) = true)
    {call : Call} (found : Call.at? m full (byteLen x) = some call)
    (line : '\n' ∉ slice call.start call.stop full) :
    Within (fun s s' => '\n' ∉ s → '\n' ∉ s') m full u call := by
  obtain ⟨piece, rest, cut, start, stop, same, args⟩ := exists_of_at? whole found
  rw [cut, start, stop, byteLen_append, slice_append] at line
  have behind : m.name ++ y ++ u = piece ++ rest := by
    rw [List.append_assoc]
    exact List.append_cancel_left (whole.symm.trans cut)
  obtain ⟨k, -, rfl⟩ := exists_of_append_line ends behind line
  refine ⟨x, piece, k, cut, start, stop, fun _ => ?_⟩
  exact feed_notMem_expansion (same.trans reads) body
    (fun arg listed member => line (args arg listed _ member)) full

theorem lineAt_eq (start : p = [] ∨ ∃ q, p = q ++ ['\n']) (ends : u = [] ∨ ∃ v, u = '\n' :: v)
    (whole : full = p ++ (l ++ u)) (line : '\n' ∉ l) {x y : Text} (cut : l = x ++ y) :
    lineAt full (byteLen (p ++ x)) = l := by
  subst cut
  rw [whole, lineAt_of_notMem start ends line]

/-- The pass over a line: a declaration stays one, on one line, and the other lines stay as they are. -/
theorem exists_line (isName : IsWord m.name) (body : '\n' ∉ m.body) (onLine : OnLine m full)
    (start : p = [] ∨ ∃ q, p = q ++ ['\n']) (ends : u = [] ∨ ∃ v, u = '\n' :: v)
    (whole : full = p ++ (l ++ u)) (line : '\n' ∉ l) (absent : isFunctional l = false → m.name ∉ words l) :
    ∃ l', Writes m full p l u l' ∧ '\n' ∉ l' ∧ blank l = blank l' := by
  cases reads : isFunctional l with
  | false =>
    exact ⟨l, writes_of_notMem isName (isFree_of_ends ends) (absent reads), line, rfl⟩
  | true =>
    obtain ⟨front, name, s, rfl, heading⟩ := exists_heading reads
    by_cases own : name = m.name
    · subst own
      exact ⟨_, writes_declared isName start ends whole line (heading.reads s), line, rfl⟩
    · have at_line (x y : Text) (cut : s = x ++ y) :
          isFunctional (lineAt full (byteLen (p ++ (front ++ name) ++ ['('] ++ x))) = true := by
        have := lineAt_eq start ends whole line (x := front ++ (name ++ '(' :: x)) (y := y) (by simp [cut])
        have offset : p ++ (front ++ name) ++ ['('] ++ x = p ++ (front ++ (name ++ '(' :: x)) := by simp
        rw [offset, this]
        exact reads
      have within : ∀ n ∈ wordOffsetsFrom m.name none 0 (byteLen (p ++ (front ++ name) ++ ['('])) s,
          n ∈ wordOffsets full m.name → ∀ call ∈ Call.at? m full n,
            Within (fun s s' => '\n' ∉ s → '\n' ∉ s') m full u call := by
        intro n member among call found
        have ended := onLine n among call found
        obtain ⟨x, y, cut, rfl⟩ := exists_of_mem_wordOffsetsFrom member
        rw [← byteLen_append] at found
        exact within_line (y := y) body ends (by rw [whole, cut]; simp) (at_line x _ cut) found ended
      obtain ⟨s', run, free⟩ := exists_writes (fun s => id)
        (fun _ _ _ _ first rest => by simp only [List.mem_append, not_or]; exact And.imp first rest) isName
        (by decide) (isFree_of_ends ends) (p := p ++ (front ++ name)) (by rw [whole]; simp) within
      have head := writes_heading (m := m) (p := p) (s := s ++ u) isName heading own
        (whole.trans (by simp))
      refine ⟨front ++ (name ++ '(' :: s'), ?_, ?_, ?_⟩
      · have := head.append (t := s) (by simpa using run)
        simpa using this
      · simp only [List.mem_append, List.mem_cons, not_or] at line ⊢
        exact ⟨line.1, line.2.1, line.2.2.1, free line.2.2.2⟩
      · rw [blank, blank, heading.isFunctional, heading.isFunctional, if_pos rfl, if_pos rfl]

theorem forall₂_pending {R : Text → Text → Prop} (isName : IsWord m.name)
    (each : ∀ l ∈ feedLines full, ∀ p u, (p = [] ∨ ∃ q, p = q ++ ['\n']) → (u = [] ∨ ∃ v, u = '\n' :: v) →
      full = p ++ (l ++ u) → ∃ l', Writes m full p l u l' ∧ '\n' ∉ l' ∧ R l l') :
    List.Forall₂ R (feedLines full) (feedLines (pending m full 0 [] full)) := by
  have whole : full = [] ++ joinFeeds ((feedLines full).map id) := by
    rw [List.map_id, joinFeeds_feedLines, List.nil_append]
  have some_line : feedLines full ≠ [] := splitOn_ne_nil _ _
  obtain ⟨lines, run, same⟩ := exists_joinFeeds (f := id) isName each (Or.inl rfl) some_line whole
  rw [← whole.trans (List.nil_append _), List.map_id] at run
  obtain ⟨free, related⟩ := (List.forall₂_and_left _ _).1 same.flip
  have some_line' : lines ≠ [] := by
    rintro rfl
    exact some_line (List.forall₂_nil_right_iff.1 same)
  have split : feedLines (joinFeeds lines) = lines := splitOn_joinWith some_line' free
  rw [pending_of_writes isName run, split]
  exact related.flip

theorem blanked_pending (isName : IsWord m.name) (body : '\n' ∉ m.body) (onLine : OnLine m full)
    (absent : ∀ l ∈ blanked full, m.name ∉ words l) : blanked (pending m full 0 [] full) = blanked full := by
  have same := forall₂_pending (R := fun l l' => blank l = blank l') isName fun l member p u start ends cut =>
    exists_line isName body onLine start ends cut (notMem_of_mem_splitOn member) fun plain =>
      absent l (List.mem_map.2 ⟨l, member, if_neg (Bool.eq_false_iff.1 plain)⟩)
  have := List.forall₂_map_left_iff.2 (List.forall₂_map_right_iff.2 same)
  rw [List.forall₂_eq_eq_eq] at this
  exact this.symm

end Line

section Run

open Compile

def active? (full name : Text) : Option Functional :=
  (find? full name).filter fun m => !containsWord m.body m.name

def afterStep (full name : Text) : Text :=
  match active? full name with
  | some m => pending m full 0 [] full
  | none => full

/-- Whenever a macro is expanded, its calls end on the lines that they start on. -/
def Confined : Text → List Text → Prop
  | _, [] => True
  | full, name :: names => (∀ m ∈ active? full name, OnLine m full) ∧ Confined (afterStep full name) names

instance : ∀ (full : Text) (names : List Text), Decidable (Confined full names)
  | _, [] => .isTrue trivial
  | full, name :: names =>
    have := instDecidableConfined (afterStep full name) names
    inferInstanceAs (Decidable ((∀ m ∈ active? full name, OnLine m full) ∧
      Confined (afterStep full name) names))

def Returns (x : Compile α) (a : α) : Prop :=
  ∀ r, ∃ s, x.runWith r = (.ok a, s)

theorem Returns.bind {x : Compile α} {f : α → Compile β} {a : α} {b : β} (first : Returns x a)
    (next : Returns (f a) b) : Returns (x >>= f) b := by
  intro r
  obtain ⟨s, run⟩ := first r
  obtain ⟨s', run'⟩ := next s
  refine ⟨s', ?_⟩
  rw [runWith_bind, run]
  exact run'

theorem returns_pure (a : α) : Returns (pure a) a :=
  fun r => ⟨r, rfl⟩

theorem returns_warn (code : Code) (message : String) : Returns (warn code message) () :=
  fun _ => ⟨_, rfl⟩

theorem returns_forM {f : α → Compile PUnit} (h : ∀ a, Returns (f a) ()) (as : List α) :
    Returns (as.forM f) () := by
  induction as with
  | nil => exact returns_pure ()
  | cons a as ih => exact (h a).bind ih

theorem returns_expandCalls (m : Functional) (t : Text) :
    Returns (expandCalls m t) (pending m t 0 [] t) := by
  rw [← splice_select]
  refine (returns_forM (fun call => ?_) _).bind (returns_pure _)
  split
  · exact returns_pure ()
  · exact returns_warn _ _

theorem returns_expandNamed (full name : Text) : Returns (expandNamed full name) (afterStep full name) := by
  unfold expandNamed afterStep active?
  cases find? full name with
  | none => exact returns_pure full
  | some m =>
    cases own : containsWord m.body m.name with
    | true =>
      simp only [Option.filter, own]
      exact (returns_warn _ _).bind (returns_pure full)
    | false =>
      simp only [Option.filter, own]
      exact returns_expandCalls m full

theorem find?_spec {full name : Text} {m : Functional} (found : find? full name = some m) :
    m.name = name ∧ IsWord name ∧ '\n' ∉ m.body := by
  obtain ⟨line, member, parsed⟩ := List.exists_of_findSome?_eq_some found
  obtain ⟨rest, params, body, declares, -, cut, rfl⟩ := pragma?_of_parse? parsed
  obtain ⟨front, b, rfl, -⟩ := exists_of_declares declares
  obtain ⟨rfl, -⟩ := eq_of_cut? cut
  have free : '\n' ∉ body := fun feed => notMem_of_mem_splitOn member (by simp [feed])
  exact ⟨rfl, isWord_of_pragma? declares, feed_notMem_body free⟩

theorem blanked_afterStep {full name : Text} (onLine : ∀ m ∈ active? full name, OnLine m full)
    (absent : ∀ l ∈ blanked full, name ∉ words l) : blanked (afterStep full name) = blanked full := by
  unfold afterStep
  cases active : active? full name with
  | none => rfl
  | some m =>
    obtain ⟨found, -⟩ := Option.filter_eq_some_iff.1 active
    obtain ⟨rfl, isName, body⟩ := find?_spec found
    exact blanked_pending isName body (onLine m active) absent

theorem exists_steps {full : Text} {names : List Text} (confined : Confined full names)
    (absent : ∀ n ∈ names, ∀ l ∈ blanked full, n ∉ words l) :
    ∃ full', Returns (names.foldlM expandNamed full) full' ∧ blanked full' = blanked full := by
  induction names generalizing full with
  | nil => exact ⟨full, returns_pure full, rfl⟩
  | cons name names ih =>
    have kept := blanked_afterStep confined.1 (absent name List.mem_cons_self)
    obtain ⟨full', run, same⟩ := ih confined.2 fun n hn => by
      rw [kept]
      exact absent n (List.mem_cons_of_mem name hn)
    refine ⟨full', ?_, same.trans kept⟩
    rw [List.foldlM_cons]
    exact (returns_expandNamed full name).bind run

theorem joins_joined (t : Text) (kept : swallows false (feedLines t) = false) :
    Joins (· ∈ declared false (feedLines t)) (outside false (feedLines t)) (feedLines (joined t)) := by
  have := joins_joinLines (P := (· ∈ declared false (feedLines t))) (splitOn_ne_nil '\n' t)
    (fun l member => notMem_of_mem_splitOn member) .none kept fun n member => member
  rwa [← feedLines, joinFeeds_feedLines, List.nil_append] at this

/-- Macros with parameters are expanded without a change to the other lines, if no definition draws the line
behind it into its last one, and if no call in a definition goes on behind the end of its line. -/
theorem expandFunctionals_frame (t : Text) (r : Report)
    (absent : ∀ n ∈ declared false (feedLines t), ∀ l ∈ outside false (feedLines t), n ∉ words l)
    (kept : swallows false (feedLines t) = false) (confined : Confined (joined t) (order (joined t))) :
    ∃ result, ((expandFunctionals t).runWith r).1 = .ok result ∧
      (outside false (feedLines t)).Sublist (feedLines result) := by
  have joins := joins_joined t kept
  obtain ⟨full, run, same⟩ := exists_steps confined fun n listed l member => by
    rcases joins.only l member with other | rfl
    · exact absent n (joins.names n listed) l other
    · exact List.not_mem_nil
  have returns : Returns (expandFunctionals t) (joinFeeds (blanked full)) :=
    run.bind (returns_pure (joinFeeds (blanked full)))
  obtain ⟨s, run⟩ := returns r
  have lines : feedLines (joinFeeds (blanked full)) = blanked full := by
    refine splitOn_joinWith (fun none => splitOn_ne_nil '\n' full (List.map_eq_nil_iff.1 none)) ?_
    intro l member
    obtain ⟨line, listed, rfl⟩ := List.mem_map.1 member
    unfold blank
    split
    · exact List.not_mem_nil
    · exact notMem_of_mem_splitOn listed
  refine ⟨joinFeeds (blanked full), by rw [run], ?_⟩
  rw [lines, same]
  exact joins.sublist

def spread : Text :=
  joinFeeds ["#pragma define S(x) x*x".toList, "#pragma define D(x) \\".toList, "  S(x) + \\ ".toList,
    "  x".toList, [], "float a = 1.0;".toList]

theorem expandFunctionals_frame_spread :
    (∀ n ∈ declared false (feedLines spread), ∀ l ∈ outside false (feedLines spread), n ∉ words l) ∧
    swallows false (feedLines spread) = false ∧ Confined (joined spread) (order (joined spread)) ∧
    ∃ result, ((expandFunctionals spread).runWith {}).1 = .ok result ∧
      (outside false (feedLines spread)).Sublist (feedLines result) := by
  have absent : ∀ n ∈ declared false (feedLines spread), ∀ l ∈ outside false (feedLines spread),
      n ∉ words l := by decide +kernel
  have kept : swallows false (feedLines spread) = false := by decide +kernel
  have confined : Confined (joined spread) (order (joined spread)) := by decide +kernel
  exact ⟨absent, kept, confined, expandFunctionals_frame spread {} absent kept confined⟩

/-- The expansion of a text loses a line, though the lines outside the definitions name no macro. -/
def LosesLine (t : Text) : Prop :=
  (∀ n ∈ declared false (feedLines t), ∀ l ∈ outside false (feedLines t), n ∉ words l) ∧
    ∃ result, (expandFunctionals t).runWith {} = (.ok result, {}) ∧
      ¬ (outside false (feedLines t)).Sublist (feedLines result)

/-- Lines are lost behind a blank line at the end of a definition, and where a call in a definition goes on
behind the end of its line. -/
theorem not_expandFunctionals_frame :
    LosesLine "#pragma define F(x) x \\\n\nint a;".toList ∧
    LosesLine "#pragma define A(x) x\n#pragma define B() A(\nint a;\n// 1) b\nint c;".toList ∧
    LosesLine "#pragma define A(x) x\n#pragma define B() A\n(int) a;".toList := by
  refine ⟨⟨?_, [], ?_, ?_⟩, ⟨?_, "\n\n// 1 b\nint c;".toList, ?_, ?_⟩, ⟨?_, "\n".toList, ?_, ?_⟩⟩
  all_goals decide +kernel

end Run

end ShaderPass.Macro
