import Mathlib.Logic.Relation
import ShaderPass.Proofs.Macro.Block

/-! Texts that use the names of their macros for declarations and calls only, and in which no list of a
call holds what the call itself has become by then. A pass leaves such a text behind, without calls of its
macro. -/
namespace ShaderPass.Macro

open ShaderPass.Text ShaderPass.Bracket

section Reach

def Declares (t name : Text) : Prop :=
  ∃ line ∈ feedLines t, ∃ m, Functional.parse? name line = some m

def Uses (t name other : Text) : Prop :=
  Declares t other ∧
    ∃ line ∈ feedLines t, ∃ m, Functional.parse? name line = some m ∧ containsWord m.body other = true

instance (t name : Text) : Decidable (Declares t name) :=
  decidable_of_iff (∃ line ∈ feedLines t, (Functional.parse? name line).isSome = true)
    (by simp only [Declares, Option.isSome_iff_exists])

instance (t name other : Text) : Decidable (Uses t name other) :=
  decidable_of_iff (Declares t other ∧ ∃ line ∈ feedLines t,
      (Functional.parse? name line).any (fun m => containsWord m.body other) = true)
    (by simp only [Uses, Option.any_eq_true])

def Reaches (t : Text) : Text → Text → Prop :=
  Relation.ReflTransGen (Uses t)

def order (t : Text) : List Text :=
  (feedLines t).filterMap fun line =>
    match pragma? line with
    | some (name, rest) => if hasParams rest then some name else none
    | none => none

def Before (t name other : Text) : Prop :=
  (order t).idxOf name < (order t).idxOf other

/-- A call of the first macro may have become a call of the second by the time that the second is
expanded: it leads there through macros that are expanded before. -/
def Leads (t name last : Text) : Prop :=
  Relation.ReflTransGen (fun a b => Uses t a b ∧ Before t a last) name last

def Carries (t name last : Text) : Prop :=
  ∃ n, Uses t name n ∧ Leads t n last

def Balanced (t name : Text) : Prop :=
  ∀ n, Reaches t name n → ∀ line ∈ feedLines t, ∀ m, Functional.parse? n line = some m →
    nested [] m.body = true

/-- The second macro may be called in the list of a call of the first: at no pass are both calls of the
macro that is expanded. -/
def Below (t name other : Text) : Prop :=
  (∀ n, Leads t other n → ¬ Leads t name n) ∧ Balanced t other

def Block.Regular (t : Text) : Block → Prop
  | .declaration front name params body => Heads (Declares t) front name params ∧ '\n' ∉ body ∧
      Tidy (Declares t) (Below t) (Declares t) body
  | .line l => Inert (Declares t) l
  | .code lines => Tidy (Declares t) (Below t) (Declares t) lines

/-- A text that uses the names of its macros for declarations and calls only. -/
structure Regular (t : Text) : Prop where
  unreserved : ¬ Declares t "pragma".toList
  blocks : ∃ blocks : List Block, blocks ≠ [] ∧ t = joinFeeds (blocks.map Block.text) ∧
    ∀ b ∈ blocks, b.Regular t

variable {t : Text}

theorem Leads.reaches {a b : Text} (h : Leads t a b) : Reaches t a b :=
  Relation.ReflTransGen.mono (fun _ _ step => step.1) _ _ h

theorem Leads.trans {a b c : Text} (first : Leads t a b) (next : Leads t b c) : Leads t a c := by
  -- What is expanded before `b` is expanded before `c`, unless they are the same macro.
  rcases Relation.ReflTransGen.cases_head next with rfl | ⟨n, step, -⟩
  · exact first
  · have earlier : ∀ x y, Uses t x y ∧ Before t x b → Uses t x y ∧ Before t x c :=
      fun x y h => ⟨h.1, Nat.lt_trans h.2 step.2⟩
    exact (Relation.ReflTransGen.mono earlier _ _ first).trans next

theorem Carries.leads {a b : Text} (h : Carries t a b) (before : Before t a b) : Leads t a b :=
  let ⟨_, used, next⟩ := h
  .head ⟨used, before⟩ next

theorem Carries.trans {a b c : Text} (first : Carries t a b) (next : Leads t b c) : Carries t a c :=
  let ⟨n, used, reached⟩ := first
  ⟨n, used, reached.trans next⟩

theorem Balanced.of_reaches {a b : Text} (h : Balanced t a) (reached : Reaches t a b) : Balanced t b :=
  fun n onward => h n (reached.trans onward)

theorem Balanced.of_carries {a b : Text} (h : Balanced t a) (carries : Carries t a b) : Balanced t b :=
  let ⟨_, used, next⟩ := carries
  h.of_reaches (.head used next.reaches)

theorem not_below_self (t name : Text) : ¬ Below t name name :=
  fun h => h.1 name .refl .refl

theorem Below.inside {outer name n : Text} (h : Below t outer name) (leads : Leads t name n) :
    Below t outer n :=
  ⟨fun k onward => h.1 k (leads.trans onward), h.2.of_reaches leads.reaches⟩

theorem Below.around {name n inner : Text} (h : Below t name inner) (leads : Leads t name n) :
    Below t n inner :=
  ⟨fun k onward back => h.1 k onward (leads.trans back), h.2⟩

end Reach

section Words

theorem words_trim (t : Text) : words (trim t) = words t := by
  obtain ⟨a, b, whole, leading, trailing⟩ := exists_trim t
  have none := words_of_blank trailing []
  rw [List.append_nil, words_nil] at none
  have free : isFree b.head? = true := isFree_of_append (isFree_list trailing [])
  have := words_of_blank leading (trim t ++ b)
  rw [← whole, words_append free, none, List.append_nil] at this
  exact this.symm

theorem words_dropBreaks (t : Text) : words (dropBreaks t) = words t := by
  obtain ⟨s, whole, marks⟩ := exists_dropBreaks t
  have same : words (s ++ dropBreaks t) = words (dropBreaks t) := by
    clear whole
    induction s with
    | nil => rfl
    | cons c s ih =>
      rw [List.cons_append, words_cons (by rw [marks c List.mem_cons_self]; decide)]
      exact ih fun d hd => marks d (List.mem_cons_of_mem _ hd)
  rw [← whole] at same
  exact same.symm

theorem mem_words_of_mem_splitArgs {t w : Text} (isWord : IsWord w) (member : w ∈ splitArgs t) :
    w ∈ words t := by
  obtain ⟨piece, listed, rfl⟩ := List.mem_map.1 (mem_map_of_mem_splitArgs member)
  have own : trim piece ∈ words piece := by
    rw [← words_trim, words_of_isWord isWord]
    exact List.mem_singleton_self _
  have := words_joinWith (c := ',') (by decide) (topPieces 0 t)
  rw [joinWith_topPieces] at this
  rw [this]
  exact List.mem_flatMap.2 ⟨piece, listed, own⟩

end Words

section Pass

variable {t full : Text} {called : Text → Prop} {blocks : List Block}

structure Stage (t : Text) (called : Text → Prop) (blocks : List Block) (full : Text) : Prop where
  some_block : blocks ≠ []
  whole : full = joinFeeds (blocks.map Block.text)
  holds : ∀ b ∈ blocks, b.Holds (Declares t) (Below t) (Balanced t) (Carries t) called
  known : ∀ n, called n → Declares t n

theorem pragma_notMem_words {names : Text → Prop} {below : Text → Text → Prop}
    (h : Tidy names below called t) (unreserved : ¬ called "pragma".toList) :
    "pragma".toList ∉ words t :=
  fun member => (h.word_cases member).elim unreserved fun other => other.2 rfl

theorem pragma?_eq_none {l : Text} (absent : "pragma".toList ∉ words l) : pragma? l = none := by
  cases found : pragma? l with
  | none => rfl
  | some declared => exact absurd (pragma_mem_words found) absent

theorem Stage.exists_declaration (stage : Stage t called blocks full)
    (unreserved : ¬ Declares t "pragma".toList) {line n : Text} {m : Functional}
    (member : line ∈ feedLines full) (parsed : Functional.parse? n line = some m) :
    ∃ front params body, Block.declaration front n params body ∈ blocks ∧
      line = (Block.declaration front n params body).text ∧
      m = ⟨n, splitArgs params, dropBreaks (trim body)⟩ := by
  rw [stage.whole, feedLines_joinFeeds (by simpa using stage.some_block)] at member
  obtain ⟨_, listed, inside⟩ := List.mem_flatMap.1 member
  obtain ⟨b, known, rfl⟩ := List.mem_map.1 listed
  have holds := stage.holds b known
  cases b with
  | declaration front name params body =>
    rw [feedLines, splitOn_eq_singleton (feed_notMem_declaration holds.1 holds.2.1),
      List.mem_singleton] at inside
    rw [inside, parse?_of_heads holds.1] at parsed
    split at parsed
    · rename_i same
      subst same
      exact ⟨front, params, body, known, inside, (Option.some.inj parsed).symm⟩
    · cases parsed
  | line l =>
    rw [Block.text, feedLines, splitOn_eq_singleton holds.line, List.mem_singleton] at inside
    rw [inside, holds.undeclared] at parsed
    cases parsed
  | code lines =>
    have absent := pragma_notMem_words holds fun h => unreserved (stage.known _ h)
    have none := pragma?_eq_none fun h => absent (words_subset_of_mem_feedLines inside h)
    rw [Functional.parse?, none] at parsed
    cases parsed

theorem pragma?_of_parse? {name line : Text} {m : Functional}
    (parsed : Functional.parse? name line = some m) :
    ∃ rest params body, pragma? line = some (name, rest) ∧ hasParams rest = true ∧
      cut? [')'] rest = some (params, body) ∧
      m = ⟨name, splitArgs (params.drop 1), dropBreaks (trim body)⟩ := by
  unfold Functional.parse? at parsed
  obtain ⟨⟨declared, rest⟩, found, parsed⟩ := Option.bind_eq_some_iff.1 parsed
  dsimp only at parsed
  split at parsed
  · rename_i same
    rw [Bool.and_eq_true, decide_eq_true_eq] at same
    obtain ⟨⟨params, body⟩, cut, built⟩ := Option.bind_eq_some_iff.1 parsed
    exact ⟨rest, params, body, same.1 ▸ found, same.2, cut, (Option.some.inj built).symm⟩
  · cases parsed

theorem feed_notMem_body {body : Text} (line : '\n' ∉ body) : '\n' ∉ dropBreaks (trim body) := by
  obtain ⟨a, b, whole, -, -⟩ := exists_trim body
  obtain ⟨s, whole', -⟩ := exists_dropBreaks (trim body)
  intro feed
  apply line
  rw [whole, whole']
  simp [feed]

theorem isWord_of_declares {name : Text} (h : Declares t name) : IsWord name := by
  obtain ⟨line, -, m, parsed⟩ := h
  obtain ⟨rest, -, -, found, -⟩ := pragma?_of_parse? parsed
  exact isWord_of_pragma? found

theorem Stage.find?_isSome (stage : Stage t called blocks full) {front name params body : Text}
    (member : Block.declaration front name params body ∈ blocks) : (find? full name).isSome = true := by
  have holds := stage.holds _ member
  rw [find?, List.findSome?_isSome_iff]
  refine ⟨(Block.declaration front name params body).text, ?_, ?_⟩
  · rw [stage.whole, feedLines_joinFeeds (by simpa using stage.some_block)]
    refine List.mem_flatMap.2 ⟨_, List.mem_map_of_mem member, ?_⟩
    rw [feedLines, splitOn_eq_singleton (feed_notMem_declaration holds.1 holds.2.1)]
    exact List.mem_singleton_self _
  · rw [parse?_of_heads holds.1, if_pos rfl]
    rfl

theorem Stage.ready (stage : Stage t called blocks full) {front name params body : Text}
    (member : Block.declaration front name params body ∈ blocks) (declared : Declares t name)
    (next : ∀ n, called n → n ≠ name → Before t name n)
    (plain : containsWord (dropBreaks (trim body)) name = false) :
    Ready (Declares t) (Below t) (Balanced t) (fun n => (called n ∧ n ≠ name) ∧ Carries t name n)
      ⟨name, splitArgs params, dropBreaks (trim body)⟩ := by
  obtain ⟨heads, line, tidy, brackets⟩ := stage.holds _ member
  have isName := isWord_of_pragma? heads.reads
  have absent : name ∉ words (dropBreaks (trim body)) := by
    rw [← containsWord_iff_mem_words isName, plain]
    exact Bool.false_ne_true
  constructor
  · exact isName
  · exact declared
  · exact not_below_self t name
  · refine tidy.trim.dropBreaks.occurring.mono fun n h => ?_
    have other : n ≠ name := fun same => absent (same ▸ h.2)
    exact ⟨⟨h.1.1.resolve_right other, other⟩, h.1.2⟩
  · exact fun h => h.1.2 rfl
  · intro n h listed
    have known := stage.known n h.1.1
    have isWord := isWord_of_declares known
    refine heads.words n known h.1.2 ?_
    rw [← List.append_assoc, words_append_cons (by decide)]
    exact List.mem_append_right _ (mem_words_of_mem_splitArgs isWord listed)
  · exact fun outer n h used => h.inside (used.2.leads (next n used.1.1 used.1.2))
  · exact fun n inner used h => h.around (used.2.leads (next n used.1.1 used.1.2))
  · intro h
    rw [nested_dropBreaks, nested_trim]
    exact brackets h

theorem exists_blocks {names : Text → Prop} {below : Text → Text → Prop} {balanced used : Text → Prop}
    {reach : Text → Text → Prop} {m : Functional} (ready : Ready names below balanced used m)
    (balances : ∀ callee n, below callee n → balanced n)
    (uses : ∀ n, used n → (called n ∧ n ≠ m.name) ∧ reach m.name n)
    (unreserved : ¬ called "pragma".toList) (chain : ∀ a n, reach a m.name → used n → reach a n)
    (sub : ∀ a b, reach a b → balanced a → balanced b) (body_line : '\n' ∉ m.body) {p : Text}
    (start : p = [] ∨ ∃ q, p = q ++ ['\n']) (some_block : blocks ≠ [])
    (whole : full = p ++ joinFeeds (blocks.map Block.text))
    (holds : ∀ b ∈ blocks, b.Holds names below balanced reach called) :
    ∃ blocks' : List Block, Writes m full p (joinFeeds (blocks.map Block.text)) []
        (joinFeeds (blocks'.map Block.text)) ∧
      blocks'.map Block.declared? = blocks.map Block.declared? ∧
      ∀ b ∈ blocks', b.Holds names below balanced reach fun n => called n ∧ n ≠ m.name := by
  obtain ⟨blocks', run, same⟩ := exists_joinFeeds ready.isName (fun b member _ _ start ends whole =>
    exists_block ready balances uses unreserved chain sub body_line start ends whole (holds b member))
    start some_block whole
  refine ⟨blocks', run, ?_, ?_⟩
  · clear whole run some_block holds
    induction same with
    | nil => rfl
    | cons kept _ ih => rw [List.map_cons, List.map_cons, kept.1, ih]
  · clear whole run some_block holds
    induction same with
    | nil => exact nofun
    | cons kept _ ih => exact List.forall_mem_cons.2 ⟨kept.2, ih⟩

theorem pending_of_writes {m : Functional} {written : Text} (isName : IsWord m.name)
    (run : Writes m full [] full [] written) : pending m full 0 [] full = written := by
  obtain ⟨last, -, same⟩ := run 0 (Nat.zero_le _)
  rwa [List.append_nil, pending_nil isName, List.append_nil] at same

theorem Stage.pass (stage : Stage t called blocks full) (unreserved : ¬ Declares t "pragma".toList)
    (declared : ∀ n, some n ∈ blocks.map Block.declared? → Declares t n) {name : Text} {m : Functional}
    (next : ∀ n, called n → n ≠ name → Before t name n)
    (found : find? full name = some m) (plain : containsWord m.body m.name = false) :
    ∃ blocks', Stage t (fun n => called n ∧ n ≠ name) blocks' (pending m full 0 [] full) ∧
      blocks'.map Block.declared? = blocks.map Block.declared? := by
  obtain ⟨line, member, parsed⟩ := List.exists_of_findSome?_eq_some found
  obtain ⟨front, params, body, known, -, rfl⟩ := stage.exists_declaration unreserved member parsed
  have ready := stage.ready known (declared name (List.mem_map.2 ⟨_, known, rfl⟩)) next plain
  have body_line := feed_notMem_body (stage.holds _ known).2.1
  have start : full = [] ++ joinFeeds (blocks.map Block.text) := stage.whole
  obtain ⟨blocks', run, same, holds⟩ := exists_blocks ready (fun _ _ h => h.2) (fun _ h => h)
    (fun h => unreserved (stage.known _ h))
    (fun a n carries used => carries.trans (used.2.leads (next n used.1.1 used.1.2)))
    (fun _ _ carries h => h.of_carries carries)
    body_line (Or.inl rfl) stage.some_block start stage.holds
  rw [← stage.whole] at run
  refine ⟨blocks', ⟨?_, pending_of_writes ready.isName run, holds, fun n h => stage.known n h.1⟩, same⟩
  rintro rfl
  exact stage.some_block (List.map_eq_nil_iff.1 same.symm)

theorem Stage.skip (stage : Stage t called blocks full) {name : Text}
    (declared : Declares t name → some name ∈ blocks.map Block.declared?)
    (missing : find? full name = none) : Stage t (fun n => called n ∧ n ≠ name) blocks full := by
  have same : (fun n => called n ∧ n ≠ name) = called := by
    funext n
    refine propext ⟨And.left, fun h => ⟨h, ?_⟩⟩
    rintro rfl
    obtain ⟨b, member, declares⟩ := List.mem_map.1 (declared (stage.known n h))
    cases b with
    | declaration front name params body =>
      cases declares
      have := stage.find?_isSome member
      rw [missing] at this
      cases this
    | line l => cases declares
    | code lines => cases declares
  rw [same]
  exact stage

theorem Regular.stage (h : Regular t) : ∃ blocks, Stage t (Declares t) blocks t ∧
    ∀ n, Declares t n ↔ some n ∈ blocks.map Block.declared? := by
  obtain ⟨blocks, some_block, whole, regular⟩ := h.blocks
  have line_of (b : Block) (member : b ∈ blocks) (line : '\n' ∉ b.text) : b.text ∈ feedLines t := by
    rw [whole, feedLines_joinFeeds (by simpa using some_block)]
    refine List.mem_flatMap.2 ⟨_, List.mem_map_of_mem member, ?_⟩
    rw [feedLines, splitOn_eq_singleton line]
    exact List.mem_singleton_self _
  have holds : ∀ b ∈ blocks,
      b.Holds (Declares t) (Below t) (Balanced t) (Carries t) (Declares t) := by
    intro b member
    have := regular b member
    cases b with
    | declaration front name params body =>
      obtain ⟨heads, line, tidy⟩ := this
      have inside := line_of _ member (feed_notMem_declaration heads line)
      have parsed := parse?_of_heads heads name body
      rw [if_pos rfl] at parsed
      refine ⟨heads, line, tidy.occurring.mono fun n h => ⟨Or.inl h.1, ?_⟩, fun balanced => ?_⟩
      · refine ⟨n, ⟨h.1, _, inside, _, parsed, ?_⟩, .refl⟩
        rw [containsWord_iff_mem_words (isWord_of_mem_words h.2), words_dropBreaks, words_trim]
        exact h.2
      · have := balanced name .refl _ inside _ parsed
        rwa [nested_dropBreaks, nested_trim] at this
    | line l => exact this
    | code lines => exact this
  have stage : Stage t (Declares t) blocks t := ⟨some_block, whole, holds, fun _ h => h⟩
  refine ⟨blocks, stage, fun n => ⟨?_, fun listed => ?_⟩⟩
  · rintro ⟨line, member, m, parsed⟩
    obtain ⟨front, params, body, known, -, -⟩ := stage.exists_declaration h.unreserved member parsed
    exact List.mem_map.2 ⟨_, known, rfl⟩
  · obtain ⟨b, member, declares⟩ := List.mem_map.1 listed
    cases b with
    | declaration front name params body =>
      cases declares
      obtain ⟨heads, line, -⟩ := regular _ member
      have parsed := parse?_of_heads heads n body
      rw [if_pos rfl] at parsed
      exact ⟨_, line_of _ member (feed_notMem_declaration heads line), _, parsed⟩
    | line l => cases declares
    | code lines => cases declares

end Pass

end ShaderPass.Macro
