import Mathlib.Data.List.Induction
import ShaderPass.Proofs.FunctionDef.Sequence
import ShaderPass.Proofs.LiveCode.Naming
import ShaderPass.Proofs.Token.Cutting

/-! Elimination leaves the other tokens alone, so that doing it again changes nothing, as long as no
`#` comes to start a line, or ceases to, when what stands in front of it is removed. -/
namespace ShaderPass.LiveCode

open FunctionDef Token

def dead (t : Text) (entry : String) : List FunctionDef :=
  ((find t).zipIdx.filter (·.2 ∉ live (find t) entry)).map Prod.fst

/-- Whether a token belongs to none of the functions. -/
def outside (functions : List FunctionDef) (token : Token) : Bool :=
  functions.all fun f => !f.contains token.start

/-- Whether the next token that stays behind a removed function is no `#`, or is a directive and the
function starts a line. -/
def leavesLine (t : Text) (removed : List FunctionDef) (f : FunctionDef) : Bool :=
  match ((significant t).filter fun k => f.stop ≤ k.start && outside removed k).head? with
  | none => true
  | some k => k.lexeme.head? ≠ some '#' ||
      k.isDirective && opensLine true (pieces true (Text.takeBytes f.start t))

section Cut

variable {t : Text} {alive : List Nat}

def excise (t : Text) (alive : List Nat) (functions : List (FunctionDef × Nat)) : Text :=
  Text.spliceFrom 0 (Text.dropBytes 0 t) (removals t alive functions)

theorem lexeme_of_isEnd {k : Token} (member : k ∈ significant t) (ends : isEnd k = true) :
    k.isDirective = true ∨ k.lexeme = [';'] ∨ k.lexeme = ['\x7d'] := by
  rw [isEnd, Bool.or_eq_true, Bool.or_eq_true] at ends
  rcases ends with (directive | semicolon) | brace
  · exact Or.inl directive
  · exact Or.inr (Or.inl (lexeme_of_isPunct member semicolon))
  · exact Or.inr (Or.inr (lexeme_of_isPunct member brace))

theorem significant_excise_cons {f : FunctionDef} {i : Nat} {rest : List (FunctionDef × Nat)}
    (gone : i ∉ alive) {offset : Nat} (follow : Follow t offset ((f, i) :: rest))
    {front body later : List Token}
    (tokens : significant (excise t alive rest) = front ++ (body ++ later)) (spans : f.Spans body)
    (ends : ∀ k, front.getLast? = some k → isEnd k = true)
    (hash : ∀ k, later.head? = some k → k.lexeme.head? = some '#' →
      k.isDirective = true ∧ opensLine true (pieces true (Text.takeBytes f.start t)) = true) :
    significant (excise t alive ((f, i) :: rest)) =
        front ++ later.map (Token.move (removalStop t f.stop) f.start) ∧
      ∀ k ∈ later, removalStop t f.stop ≤ k.start := by
  obtain ⟨ranged, -⟩ : Ranged t f ∧ offset ≤ f.start := follow.1 _ List.mem_cons_self
  have behind : Follow t (removalStop t f.stop) rest := follow.tail
  have start_le := ranged.start_le
  have stop_le := ranged.paramStop_le
  have removal_le := le_removalStop ranged.stop
  have here := Text.isBoundary_zero t
  have cut := isBoundary_removalStop ranged.stop
  obtain ⟨a, tail, b, split, len, value, blank⟩ := exists_removalStop ranged.stop
  let w := Text.spliceFrom (removalStop t f.stop) (Text.dropBytes (removalStop t f.stop) t)
    (removals t alive rest)
  have tail_eq : Text.slice f.stop (removalStop t f.stop) t = tail := by
    rw [value, ← len, split]
    exact Text.slice_append a tail b
  have shorter : excise t alive ((f, i) :: rest) = Text.slice 0 f.start t ++ w := by
    rw [excise, removals_cons_of_notMem gone, Text.spliceFrom_cons here _ _ (Nat.zero_le _),
      List.append_nil]
  have longer : excise t alive rest =
      Text.slice 0 f.start t ++ (Text.slice f.start f.stop t ++ (tail ++ w)) := by
    rw [excise, Text.spliceFrom_dropBytes here cut (Nat.zero_le _) (behind.removals_later alive),
      ← Text.slice_append_slice here ranged.start cut (Nat.zero_le _) (by omega),
      ← Text.slice_append_slice ranged.start ranged.stop cut (by omega) removal_le, tail_eq,
      List.append_assoc, List.append_assoc]
  have front_len := Text.byteLen_slice here ranged.start (Nat.zero_le _)
  have body_len := Text.byteLen_slice ranged.start ranged.stop (by omega)
  obtain ⟨first, last, head, closes, start, stop⟩ := spans
  obtain ⟨middle, rfl⟩ := List.head?_eq_some_iff.1 head
  have ended : ∀ k, front.getLast? = some k →
      k.isDirective = true ∨ k.lexeme = [';'] ∨ k.lexeme = ['\x7d'] := by
    intro k hk
    have member : k ∈ significant (excise t alive rest) := by
      rw [tokens]
      exact List.mem_append_left _ (List.mem_of_mem_getLast? hk)
    exact lexeme_of_isEnd member (ends k hk)
  rw [longer] at tokens
  have front_eq : Text.takeBytes f.start t = Text.slice 0 f.start t := by
    rw [Text.slice, Text.dropBytes_zero, Nat.sub_zero]
  rw [front_eq] at hash
  have size : Text.byteLen (Text.slice 0 f.start t) + Text.byteLen (Text.slice f.start f.stop t) +
      Text.byteLen tail = removalStop t f.stop := by omega
  have result := significant_cut tokens closes (by omega) (by omega) blank ended hash
  rwa [size, front_len, Nat.sub_zero, ← shorter] at result

theorem retain_add (removed more : Nat) (functions : List (FunctionDef × Nat)) :
    retain t alive (removed + more) functions = (retain t alive removed functions).map fun g =>
      { g with
        start := g.start - more
        stop := g.stop - more
        paramStop := g.paramStop - more } := by
  induction functions generalizing removed with
  | nil => rfl
  | cons entry rest ih =>
    obtain ⟨f, i⟩ := entry
    rw [retain, retain]
    split
    · rw [List.map_cons, ih, Nat.sub_add_eq, Nat.sub_add_eq, Nat.sub_add_eq]
    · rw [Nat.add_right_comm, ih]

def wording (ts : List Token) : List (TokenKind × Text) :=
  ts.map fun k => (k.kind, k.lexeme)

theorem head?_of_wording {ts us : List Token} (same : wording ts = wording us) {k : Token}
    (head : ts.head? = some k) :
    ∃ k', us.head? = some k' ∧ k'.kind = k.kind ∧ k'.lexeme = k.lexeme := by
  have heads := congrArg List.head? same
  rw [wording, wording, List.head?_map, List.head?_map, head, Option.map_some] at heads
  obtain ⟨k', head', both⟩ := Option.map_eq_some_iff.1 heads.symm
  exact ⟨k', head', (Prod.mk.inj both).1, (Prod.mk.inj both).2⟩

theorem hash_of_leavesLine {f : FunctionDef} {removed : List FunctionDef}
    {front body ts later : List Token} (tokens : significant t = front ++ (body ++ ts))
    (spans : f.Spans body) (same : wording later = wording (ts.filter (outside removed)))
    (leaves : leavesLine t removed f = true) :
    ∀ k, later.head? = some k → k.lexeme.head? = some '#' →
      k.isDirective = true ∧ opensLine true (pieces true (Text.takeBytes f.start t)) = true := by
  intro k head number_sign
  obtain ⟨k', head', kind, lexeme⟩ := head?_of_wording same head
  have ordered := ordered_significant t
  rw [tokens] at ordered
  obtain ⟨before, inside, behind⟩ := spans.start_lt_stop ordered
  have next : (significant t).filter (fun k => f.stop ≤ k.start && outside removed k) =
      ts.filter (outside removed) := by
    have front_out : front.filter (fun k => f.stop ≤ k.start && outside removed k) = [] := by
      refine List.filter_eq_nil_iff.2 fun k hk => ?_
      obtain ⟨first, member, start⟩ := spans.exists_start
      have := before k hk
      have := (inside first member).2
      simp only [Bool.and_eq_true, decide_eq_true_eq]
      omega
    have body_out : body.filter (fun k => f.stop ≤ k.start && outside removed k) = [] := by
      refine List.filter_eq_nil_iff.2 fun k hk => ?_
      have := (inside k hk).2
      simp only [Bool.and_eq_true, decide_eq_true_eq]
      omega
    rw [tokens, List.filter_append, List.filter_append, front_out, body_out]
    exact List.filter_congr fun k hk => by rw [decide_eq_true (behind k hk), Bool.true_and]
  rw [leavesLine, next, head'] at leaves
  simp only [lexeme, number_sign, ne_eq, not_true_eq_false, decide_false, Bool.false_or,
    Bool.and_eq_true] at leaves
  rw [isDirective, kind] at leaves
  exact leaves

theorem outside_of_sequence {front body later : List Token} {functions removed : List FunctionDef}
    (ordered : Ordered (front ++ (body ++ later))) (sequence : Sequence later functions)
    (apart : ∀ f ∈ removed, f ∈ functions ∨ ∀ k ∈ body, f.contains k.start = false) :
    ∀ k ∈ body, outside removed k = true := by
  intro k hk
  refine List.all_eq_true.2 fun f hf => ?_
  rcases apart f hf with member | out
  · obtain ⟨k', hk', start⟩ := sequence.exists_start member
    obtain ⟨-, inner, -⟩ := List.pairwise_append.1 ordered.1
    have := (List.pairwise_append.1 inner).2.2 k hk k' hk'
    have := ordered.2 k (List.mem_append_right _ (List.mem_append_left _ hk))
    have before : ¬ f.start ≤ k.start := by omega
    simp [contains, before]
  · rw [out k hk, Bool.not_false]

/-- What is left of the tokens behind `front` with the dead functions removed: the words outside the
removed functions, among which the other functions are found where they have come to. -/
def Excised (t : Text) (alive : List Nat) (removed : List FunctionDef) (front ts : List Token)
    (functions : List (FunctionDef × Nat)) : Prop :=
  ∃ later, significant (excise t alive functions) = front ++ later ∧
    wording later = wording (ts.filter (outside removed)) ∧ scan [] later = retain t alive 0 functions

def Apart (alive : List Nat) (removed : List FunctionDef) (functions : List (FunctionDef × Nat))
    (ts : List Token) : Prop :=
  ∀ f ∈ removed, (∃ i, i ∉ alive ∧ (f, i) ∈ functions) ∨ ∀ k ∈ ts, f.contains k.start = false

section Cases

variable {f : FunctionDef} {n offset : Nat} {rest : List (FunctionDef × Nat)}
  {functions removed : List FunctionDef} {front body gap ts later : List Token}

theorem Apart.append_right {all : List (FunctionDef × Nat)} (apart : Apart alive removed all (gap ++ ts)) :
    Apart alive removed all ts := fun f hf =>
  (apart f hf).imp_right fun out k hk => out k (List.mem_append_right _ hk)

theorem Apart.tail (apart : Apart alive removed ((f, n) :: rest) (body ++ ts))
    (behind : ∀ k ∈ ts, f.stop ≤ k.start) : Apart alive removed rest ts := by
  intro g hg
  rcases apart g hg with ⟨i, gone, member⟩ | out
  · rcases List.mem_cons.1 member with first | member
    · obtain ⟨rfl, -⟩ := Prod.mk.inj first
      refine Or.inr fun k hk => ?_
      have := behind k hk
      simp [contains, this]
    · exact Or.inl ⟨i, gone, member⟩
  · exact Or.inr fun k hk => out k (List.mem_append_right _ hk)

theorem Apart.outside (apart : Apart alive removed ((f, n) :: functions.zipIdx (n + 1)) (body ++ ts))
    (live : n ∈ alive) (ordered : Ordered (front ++ (body ++ ts))) (sequence : Sequence ts functions) :
    ∀ k ∈ body, outside removed k = true := by
  refine outside_of_sequence ordered sequence fun g hg => ?_
  refine (apart g hg).imp ?_ fun out k hk => out k (List.mem_append_left _ hk)
  rintro ⟨i, gone, member⟩
  rcases List.mem_cons.1 member with first | member
  · obtain ⟨-, rfl⟩ := Prod.mk.inj first
    exact absurd live gone
  · exact List.fst_mem_of_mem_zipIdx member

theorem excised_rest (tokens : significant t = front ++ ts) (none : scan [] ts = [])
    (apart : Apart alive removed [] ts) : Excised t alive removed front ts [] := by
  have all : ts.filter (outside removed) = ts := by
    refine List.filter_eq_self.2 fun k hk => List.all_eq_true.2 fun f hf => ?_
    rcases apart f hf with ⟨i, -, member⟩ | out
    · cases member
    · rw [out k hk, Bool.not_false]
  refine ⟨ts, ?_, ?_, ?_⟩
  · rw [← tokens, excise, Text.dropBytes_zero]
    rfl
  · rw [all]
  · rw [none]
    rfl

theorem excised_other (ordered : Ordered (front ++ (gap ++ ts))) (sequence : Sequence ts functions)
    (skipped : ∀ us, scan [] (gap ++ us) = scan [] us)
    (apart : Apart alive removed (functions.zipIdx n) (gap ++ ts))
    (h : Excised t alive removed (front ++ gap) ts (functions.zipIdx n)) :
    Excised t alive removed front (gap ++ ts) (functions.zipIdx n) := by
  obtain ⟨later, tokens, same, scanned⟩ := h
  refine ⟨gap ++ later, by rw [tokens, List.append_assoc], ?_, by rw [skipped, scanned]⟩
  have whole : gap.filter (outside removed) = gap := by
    refine List.filter_eq_self.2 (outside_of_sequence ordered sequence fun f hf => ?_)
    exact (apart f hf).imp (fun ⟨i, _, member⟩ => List.fst_mem_of_mem_zipIdx member)
      fun out k hk => out k (List.mem_append_left _ hk)
  rw [List.filter_append, whole, wording, List.map_append, wording, List.map_append]
  exact congrArg _ same

theorem excised_live (live : n ∈ alive) (stays : ∀ k ∈ body, outside removed k = true)
    (found : ∀ us, wording us = wording (ts.filter (outside removed)) →
      scan [] (body ++ us) = f :: scan [] us)
    (h : Excised t alive removed (front ++ body) ts rest) :
    Excised t alive removed front (body ++ ts) ((f, n) :: rest) := by
  obtain ⟨later, tokens, same, scanned⟩ := h
  have no_deps : f.deps = [] := deps_of_mem_scan (found later same ▸ List.mem_cons_self)
  have whole : body.filter (outside removed) = body := List.filter_eq_self.2 stays
  refine ⟨body ++ later, ?_, ?_, ?_⟩
  · rw [excise, removals_cons_of_mem live, ← List.append_assoc]
    exact tokens
  · rw [List.filter_append, whole, wording, List.map_append, wording, List.map_append]
    exact congrArg _ same
  · rw [found later same, retain, if_pos live, scanned, no_deps]
    congr 1
    cases f
    exact congrArg _ no_deps

theorem scan_moved (gone : n ∉ alive) (follow : Follow t offset ((f, n) :: rest))
    (ordered : Ordered later) (behind : ∀ k ∈ later, removalStop t f.stop ≤ k.start)
    (scanned : scan [] later = retain t alive 0 rest) :
    scan [] (later.map (Token.move (removalStop t f.stop) f.start)) =
      retain t alive 0 ((f, n) :: rest) := by
  have moved := @scan_map_move (removalStop t f.stop) f.start [] later (by simpa using behind)
  have placed := @retain_add t alive 0 (removalStop t f.stop - f.start) rest
  rw [List.map_nil] at moved
  rw [moved, retain, if_neg gone, placed, ← scanned]
  obtain ⟨bounded, -⟩ := boundedBy_scan [] later ordered
  refine List.map_congr_left fun g hg => ?_
  obtain ⟨first, hf, -, -, -, -, start, -, -, start_le, stop_gt⟩ := bounded g hg
  have far := behind first hf
  obtain ⟨ranged, -⟩ : Ranged t f ∧ offset ≤ f.start := follow.1 _ List.mem_cons_self
  have := ranged.start_le
  have := ranged.paramStop_le
  have := le_removalStop ranged.stop
  have shift {x : Nat} (le : removalStop t f.stop ≤ x) :
      x - removalStop t f.stop + f.start = x - (removalStop t f.stop - f.start) := by omega
  rw [displace, shift (x := g.start) (by omega), shift (x := g.stop) (by omega),
    shift (x := g.paramStop) (by omega)]

theorem excised_gone (tokens : significant t = front ++ (body ++ ts)) (spans : f.Spans body)
    (ends : ∀ k, front.getLast? = some k → isEnd k = true) (follow : Follow t offset ((f, n) :: rest))
    (gone : n ∉ alive) (member : f ∈ removed) (leaves : leavesLine t removed f = true)
    (h : Excised t alive removed (front ++ body) ts rest) :
    Excised t alive removed front (body ++ ts) ((f, n) :: rest) := by
  obtain ⟨later, tokens', same, scanned⟩ := h
  rw [List.append_assoc] at tokens'
  have ordered := ordered_significant t
  rw [tokens] at ordered
  have none : body.filter (outside removed) = [] := by
    refine List.filter_eq_nil_iff.2 fun k hk out => ?_
    have inside := (spans.start_lt_stop ordered).2.1 k hk
    have := List.all_eq_true.1 out f member
    simp [contains, inside] at this
  obtain ⟨cut, behind⟩ := significant_excise_cons gone follow tokens' spans ends
    (hash_of_leavesLine tokens spans same leaves)
  have ordered' : Ordered later := by
    refine (ordered_significant (excise t alive rest)).sublist ?_
    rw [tokens']
    exact (List.sublist_append_right _ _).trans (List.sublist_append_right _ _)
  refine ⟨_, cut, ?_, scan_moved gone follow ordered' behind scanned⟩
  rw [List.filter_append, none, List.nil_append, ← same, wording, wording, List.map_map]
  rfl

theorem excised_definition (tokens : significant t = front ++ (body ++ ts)) (spans : f.Spans body)
    (ends : ∀ k, front.getLast? = some k → isEnd k = true) (sequence : Sequence ts functions)
    (follow : Follow t offset ((f, n) :: functions.zipIdx (n + 1)))
    (leaves : n ∉ alive → f ∈ removed ∧ leavesLine t removed f = true)
    (apart : Apart alive removed ((f, n) :: functions.zipIdx (n + 1)) (body ++ ts))
    (found : ∀ us, wording us = wording (ts.filter (outside removed)) →
      scan [] (body ++ us) = f :: scan [] us)
    (h : Excised t alive removed (front ++ body) ts (functions.zipIdx (n + 1))) :
    Excised t alive removed front (body ++ ts) ((f, n) :: functions.zipIdx (n + 1)) := by
  have ordered := ordered_significant t
  rw [tokens] at ordered
  by_cases live : n ∈ alive
  · exact excised_live live (apart.outside live ordered sequence) found h
  · obtain ⟨member, line⟩ := leaves live
    exact excised_gone tokens spans ends follow live member line h

end Cases

theorem isEnd_getLast?_append {front body : List Token}
    (ends : ∀ k, front.getLast? = some k → isEnd k = true)
    (closes : ∀ k, body.getLast? = some k → isEnd k = true) :
    ∀ k, (front ++ body).getLast? = some k → isEnd k = true := by
  intro k last
  rw [List.getLast?_append, Option.or_eq_some_iff] at last
  rcases last with last | ⟨-, last⟩
  · exact closes k last
  · exact ends k last

/-- With the dead functions of a sequence removed, the other tokens are left, and the other functions
are found at the places they have come to. -/
theorem excised_of_sequence {front ts : List Token} {functions : List FunctionDef} {n offset : Nat}
    {removed : List FunctionDef}
    (sequence : Sequence ts functions) (tokens : significant t = front ++ ts)
    (ends : ∀ k, front.getLast? = some k → isEnd k = true)
    (follow : Follow t offset (functions.zipIdx n))
    (hash : ∀ f ∈ removed, leavesLine t removed f = true)
    (known : ∀ p ∈ functions.zipIdx n, p.2 ∉ alive → p.1 ∈ removed)
    (apart : Apart alive removed (functions.zipIdx n) ts) :
    Excised t alive removed front ts (functions.zipIdx n) := by
  induction sequence generalizing front n offset with
  | rest none => exact excised_rest tokens none apart
  | @other gap ts functions closes skipped sequence ih =>
    have ordered := ordered_significant t
    rw [tokens] at ordered
    exact excised_other ordered sequence skipped apart (ih (by rw [tokens, List.append_assoc])
      (isEnd_getLast?_append ends closes) follow known apart.append_right)
  | @definition body f ts functions spans closes found sequence ih =>
    rw [List.zipIdx_cons] at follow known apart ⊢
    have ordered := ordered_significant t
    rw [tokens] at ordered
    have later := ih (by rw [tokens, List.append_assoc]) (isEnd_getLast?_append ends closes) follow.tail
      (fun p hp => known p (List.mem_cons_of_mem _ hp)) (apart.tail (spans.start_lt_stop ordered).2.2)
    refine excised_definition tokens spans ends sequence follow (fun gone => ?_) apart
      (fun us _ => found us) later
    have member := known _ List.mem_cons_self gone
    exact ⟨member, hash f member⟩
  | @unclosed body f spans found =>
    have nothing : scan [] [] = [] := by rw [FunctionDef.scan]
    rw [List.zipIdx_cons, List.zipIdx_nil] at follow known apart ⊢
    rw [← List.append_nil body] at tokens apart ⊢
    have later : Excised t alive removed (front ++ body) [] [] :=
      excised_rest (by rw [tokens, List.append_assoc]) nothing
        (apart.tail fun k member => absurd member List.not_mem_nil)
    refine excised_definition tokens spans ends (.rest nothing) follow (fun gone => ?_) apart ?_ later
    · have member := known _ List.mem_cons_self gone
      exact ⟨member, hash f member⟩
    · intro us same
      obtain rfl : us = [] := List.map_eq_nil_iff.1 same
      rw [List.append_nil, found, nothing]

end Cut

section Functions

variable {t : Text} {alive : List Nat}

theorem removals_find (t : Text) (alive : List Nat) :
    removals t alive (find t).zipIdx = removals t alive (scan [] (significant t)).zipIdx := by
  rw [find, List.zipIdx_map, removals, removals, List.filter_map, List.map_map]
  rfl

theorem follow_scan (t : Text) : Follow t 0 (scan [] (significant t)).zipIdx := by
  have follow := follow_find t
  rw [find, List.zipIdx_map] at follow
  constructor
  · intro p hp
    obtain ⟨ranged, le⟩ := follow.1 _ (List.mem_map_of_mem hp)
    exact ⟨⟨ranged.start, ranged.stop, ranged.paramStop, ranged.start_le, ranged.paramStop_le⟩, le⟩
  · exact List.pairwise_map.1 follow.2

theorem uses_concat (names : List String) (name : String) (definition : String × Text) :
    uses (names ++ [name]) definition = uses names definition ++
      if name ≠ definition.1 && Text.containsWord definition.2 name.toList then [names.length]
      else [] := by
  rw [uses, List.zipIdx_append, List.filterMap_append, uses, Nat.zero_add, List.zipIdx_singleton,
    List.filterMap_cons]
  split <;> simp_all

theorem length_filter_zipIdx (names : List String) :
    (names.zipIdx.filter (·.2 ∈ alive)).length = newIndex alive names.length := by
  have order : (names.zipIdx.map Prod.snd).filter (· ∈ alive) =
      (names.zipIdx.filter (·.2 ∈ alive)).map Prod.snd := List.filter_map
  rw [newIndex, List.range_eq_range', ← List.zipIdx_map_snd 0 names, order, List.length_map]

theorem uses_filter (names : List String) (definition : String × Text) :
    uses ((names.zipIdx.filter (·.2 ∈ alive)).map Prod.fst) definition =
      ((uses names definition).filter (· ∈ alive)).map (newIndex alive) := by
  induction names using List.reverseRecOn with
  | nil => rfl
  | append_singleton names name ih =>
    rw [uses_concat, List.filter_append, List.map_append, ← ih, List.zipIdx_append, Nat.zero_add,
      List.zipIdx_singleton, List.filter_append, List.map_append]
    by_cases live : names.length ∈ alive
    · rw [List.filter_cons_of_pos (by simpa using live), List.filter_nil, List.map_singleton,
        uses_concat, List.length_map, length_filter_zipIdx]
      split <;> simp [live]
    · rw [List.filter_cons_of_neg (by simpa using live), List.filter_nil, List.map_nil,
        List.append_nil]
      split <;> simp [live]

structure Remains (t : Text) (entry : String) (i : Nat) (f g : FunctionDef) : Prop where
  found : (find t)[i]? = some f
  live : i ∈ live (find t) entry
  definition : (f.name, Text.slice f.start f.stop t) =
    (g.name, Text.slice g.start g.stop (eliminate t entry).text)
  deps : g.deps = (f.deps.filter (· ∈ LiveCode.live (find t) entry)).map
    (newIndex (LiveCode.live (find t) entry))

theorem forall₂_remains (t : Text) (entry : String) :
    List.Forall₂ (fun i g => ∃ f, Remains t entry i f g)
      ((List.range (find t).length).filter (· ∈ live (find t) entry)) (eliminate t entry).functions := by
  let alive := live (find t) entry
  have text : (eliminate t entry).text = excise t alive (find t).zipIdx :=
    Text.splice_eq_spliceFrom (pairwise_start_removals t alive)
  have stays := stays_retain alive (Text.isBoundary_zero t) (Nat.le_refl 0) (find t).zipIdx
    (follow_find t)
  have order : (List.range (find t).length).filter (· ∈ alive) =
      ((find t).zipIdx.filter fun f => f.2 ∈ alive).map Prod.snd := by
    rw [List.range_eq_range', ← List.zipIdx_map_snd 0 (find t)]
    exact List.filter_map
  rw [order]
  refine List.forall₂_map_left_iff.2
    (((List.forall₂_and_left _ _).2 ⟨fun _ member => member, stays⟩).imp ?_)
  rintro ⟨f, i⟩ g ⟨member, stays, new_deps⟩
  obtain ⟨member, live⟩ := List.mem_filter.1 member
  have found := List.mem_zipIdx_iff_getElem?.1 member
  have placed := stays.definition (ranged_of_mem_find (List.mem_of_getElem? found))
  exact ⟨f, found, of_decide_eq_true live, text ▸ placed, new_deps⟩

theorem exists_of_forall₂ {α β : Type} {R : α → β → Prop} {as : List α} {bs : List β}
    (h : List.Forall₂ R as bs) (j : Nat) :
    (∀ a, as[j]? = some a → ∃ b, bs[j]? = some b ∧ R a b) ∧
      ∀ b, bs[j]? = some b → ∃ a, as[j]? = some a ∧ R a b := by
  induction h generalizing j with
  | nil => simp
  | @cons a b as bs first _ ih =>
    cases j with
    | zero =>
      simp only [List.getElem?_cons_zero, Option.some.injEq]
      exact ⟨fun _ same => ⟨b, rfl, same ▸ first⟩, fun _ same => ⟨a, rfl, same ▸ first⟩⟩
    | succ j =>
      simp only [List.getElem?_cons_succ]
      exact ih j

def bare (f : FunctionDef) : FunctionDef :=
  { f with deps := [] }

theorem map_bare_retain (removed : Nat) (functions : List (FunctionDef × Nat)) :
    (retain t alive removed functions).map bare =
      retain t alive removed (functions.map (Prod.map bare id)) := by
  induction functions generalizing removed with
  | nil => rfl
  | cons entry rest ih =>
    obtain ⟨f, i⟩ := entry
    rw [List.map_cons, Prod.map_apply, id, retain, retain]
    split
    · rw [List.map_cons, ih]
      rfl
    · exact ih _

theorem map_bare_find (t : Text) :
    (find t).zipIdx.map (Prod.map bare id) = (scan [] (significant t)).zipIdx := by
  rw [find, List.zipIdx_map, List.map_map]
  refine (List.map_congr_left fun p hp => ?_).trans (List.map_id _)
  have no_deps := deps_of_mem_scan (List.fst_mem_of_mem_zipIdx hp)
  obtain ⟨f, i⟩ := p
  cases f
  exact congrArg (fun deps => (FunctionDef.mk _ _ _ _ _ deps, i)) no_deps.symm

theorem depsIn_eq_uses (t : Text) (functions : List FunctionDef) (f : FunctionDef) :
    depsIn t functions f =
      uses (functions.map FunctionDef.name) (f.name, Text.slice f.start f.stop t) := by
  rw [uses, List.zipIdx_map, List.filterMap_map]
  rfl

theorem map_name_eliminate (t : Text) (entry : String) :
    (eliminate t entry).functions.map FunctionDef.name =
      (((find t).map FunctionDef.name).zipIdx.filter (·.2 ∈ live (find t) entry)).map Prod.fst := by
  have names := congrArg (List.map Prod.fst) (definitions_eliminate t entry)
  rw [Retained.definitions, definitions, List.map_map, definitions, List.zipIdx_map, List.filter_map,
    List.map_map, List.map_map] at names
  rw [List.zipIdx_map, List.filter_map, List.map_map]
  exact names

theorem find_eliminate {entry : String}
    (scanned : scan [] (significant (eliminate t entry).text) =
      retain t (live (find t) entry) 0 (scan [] (significant t)).zipIdx) :
    find (eliminate t entry).text = (eliminate t entry).functions := by
  have found : scan [] (significant (eliminate t entry).text) =
      (eliminate t entry).functions.map bare := by
    rw [scanned, ← map_bare_find, ← map_bare_retain]
    rfl
  rw [find, found, List.map_map]
  refine (List.map_congr_left fun g hg => ?_).trans (List.map_id _)
  obtain ⟨j, at_j⟩ := List.mem_iff_getElem?.1 hg
  obtain ⟨i, -, f, remains⟩ := (exists_of_forall₂ (forall₂_remains t entry) j).2 g at_j
  have deps : depsIn (eliminate t entry).text ((eliminate t entry).functions.map bare) (bare g) =
      g.deps := by
    have names : ((eliminate t entry).functions.map bare).map FunctionDef.name =
        (eliminate t entry).functions.map FunctionDef.name := List.map_map
    rw [depsIn_eq_uses, names, map_name_eliminate, uses_filter, remains.deps,
      deps_eq_uses (List.mem_of_getElem? remains.found), remains.definition]
    rfl
  rw [Function.comp_apply, deps]
  rfl

theorem mem_live_find {entry : String} {i : Nat} :
    i ∈ live (find t) entry ↔ Reached (find t) entry i :=
  mem_live_iff entry fun _ hf _ hj => lt_length_of_mem_deps hf hj

theorem exists_remains {entry : String} {i : Nat} {f : FunctionDef}
    (found : (find t)[i]? = some f) (live : i ∈ live (find t) entry) :
    ∃ g, (eliminate t entry).functions[newIndex (LiveCode.live (find t) entry) i]? = some g ∧
      Remains t entry i f g := by
  have place := getElem?_newIndex (List.getElem?_eq_some_iff.1 found).1 live
  obtain ⟨g, at_g, f', remains⟩ := (exists_of_forall₂ (forall₂_remains t entry) _).1 i place
  obtain rfl := Option.some.inj (found.symm.trans remains.found)
  exact ⟨g, at_g, remains⟩

theorem reached_newIndex {entry : String} {i : Nat} (reached : Reached (find t) entry i) :
    Reached (eliminate t entry).functions entry (newIndex (live (find t) entry) i) := by
  have live := mem_live_find.2 reached
  induction reached with
  | entry found same =>
    obtain ⟨g, at_g, remains⟩ := exists_remains found live
    exact .entry at_g ((Prod.mk.inj remains.definition).1.symm.trans same)
  | first no_entry nonempty =>
    obtain ⟨f, fs, functions⟩ := List.exists_cons_of_ne_nil nonempty
    have found : (find t)[0]? = some f := by rw [functions, List.getElem?_cons_zero]
    obtain ⟨g, at_g, -⟩ := exists_remains found live
    refine .first (fun g' hg' same => ?_) (List.ne_nil_of_mem (List.mem_of_getElem? at_g))
    obtain ⟨j, at_j⟩ := List.mem_iff_getElem?.1 hg'
    obtain ⟨i, -, f', remains⟩ := (exists_of_forall₂ (forall₂_remains t entry) j).2 g' at_j
    exact no_entry f' (List.mem_of_getElem? remains.found)
      ((Prod.mk.inj remains.definition).1.trans same)
  | main found same =>
    obtain ⟨g, at_g, remains⟩ := exists_remains found live
    exact .main at_g ((Prod.mk.inj remains.definition).1.symm.trans same)
  | dep reached found member ih =>
    have live' := mem_live_find.2 reached
    obtain ⟨g, at_g, remains⟩ := exists_remains found live'
    refine .dep (ih live') at_g ?_
    rw [remains.deps]
    exact List.mem_map_of_mem (List.mem_filter.2 ⟨member, decide_eq_true live⟩)
  | overload reached found found' same ih =>
    have live' := mem_live_find.2 reached
    obtain ⟨g, at_g, remains⟩ := exists_remains found live'
    obtain ⟨g', at_g', remains'⟩ := exists_remains found' live
    refine .overload (ih live') at_g at_g' ?_
    rw [← (Prod.mk.inj remains'.definition).1, same, (Prod.mk.inj remains.definition).1]

theorem mem_live_eliminate {entry : String} {j : Nat}
    (inside : j < (eliminate t entry).functions.length) :
    j ∈ live (eliminate t entry).functions entry := by
  have lengths := (forall₂_remains t entry).length_eq
  have deps : ∀ g ∈ (eliminate t entry).functions, ∀ k ∈ g.deps,
      k < (eliminate t entry).functions.length := by
    intro g hg k hk
    obtain ⟨j, at_j⟩ := List.mem_iff_getElem?.1 hg
    obtain ⟨i, -, f, remains⟩ := (exists_of_forall₂ (forall₂_remains t entry) j).2 g at_j
    rw [remains.deps] at hk
    obtain ⟨old, member, rfl⟩ := List.mem_map.1 hk
    obtain ⟨dep, live⟩ := List.mem_filter.1 member
    have known := lt_length_of_mem_deps (List.mem_of_getElem? remains.found) dep
    rw [← lengths]
    exact (List.getElem?_eq_some_iff.1 (getElem?_newIndex known (of_decide_eq_true live))).1
  rw [mem_live_iff entry deps]
  rw [← lengths] at inside
  obtain ⟨i, at_j⟩ : ∃ i, ((List.range (find t).length).filter
      (· ∈ live (find t) entry))[j]? = some i := ⟨_, List.getElem?_eq_getElem inside⟩
  obtain ⟨member, live⟩ := List.mem_filter.1 (List.mem_of_getElem? at_j)
  have live := of_decide_eq_true live
  have place := getElem?_newIndex (List.mem_range.1 member) live
  have same : j = newIndex (LiveCode.live (find t) entry) i :=
    (List.getElem?_inj inside (List.nodup_range.filter _)).1 (at_j.trans place.symm)
  rw [same]
  exact reached_newIndex (mem_live_find.1 live)

theorem retain_eq_map_fst {functions : List (FunctionDef × Nat)}
    (all : ∀ p ∈ functions, p.2 ∈ alive)
    (deps : ∀ p ∈ functions, (p.1.deps.filter (· ∈ alive)).map (newIndex alive) = p.1.deps) :
    retain t alive 0 functions = functions.map Prod.fst := by
  induction functions with
  | nil => rfl
  | cons entry rest ih =>
    obtain ⟨f, i⟩ := entry
    have here : i ∈ alive := all _ List.mem_cons_self
    rw [retain, if_pos here, ih (fun p hp => all p (List.mem_cons_of_mem _ hp))
      (fun p hp => deps p (List.mem_cons_of_mem _ hp)), deps _ List.mem_cons_self]
    rfl

theorem newIndex_eq_self {i : Nat} (all : ∀ j < i, j ∈ alive) : newIndex alive i = i := by
  rw [newIndex, List.filter_eq_self.2 fun j hj => decide_eq_true (all j (List.mem_range.1 hj)),
    List.length_range]

theorem eliminate_of_live {entry : String}
    (all : ∀ j < (find t).length, j ∈ live (find t) entry) :
    eliminate t entry = ⟨t, find t⟩ := by
  have alive : ∀ p ∈ (find t).zipIdx, p.2 ∈ live (find t) entry := fun p hp =>
    all p.2 (List.getElem?_eq_some_iff.1 (List.mem_zipIdx_iff_getElem?.1 hp)).1
  have none : (find t).zipIdx.filter (fun p => p.2 ∉ live (find t) entry) = [] :=
    List.filter_eq_nil_iff.2 fun p hp => by simpa using alive p hp
  have kept : retain t (live (find t) entry) 0 (find t).zipIdx = find t := by
    rw [retain_eq_map_fst alive, List.zipIdx_map_fst]
    intro p hp
    have known {j : Nat} (hj : j ∈ p.1.deps) : j < (find t).length :=
      lt_length_of_mem_deps (List.fst_mem_of_mem_zipIdx hp) hj
    rw [List.filter_eq_self.2 fun j hj => decide_eq_true (all j (known hj))]
    refine (List.map_congr_left fun j hj => ?_).trans (List.map_id _)
    exact newIndex_eq_self fun k hk => all k (Nat.lt_trans hk (known hj))
  show Retained.mk (Text.splice t (((find t).zipIdx.filter fun p => p.2 ∉ live (find t) entry).map _))
    (retain t (live (find t) entry) 0 (find t).zipIdx) = _
  rw [none, kept, List.map_nil, Text.splice_nil]

end Functions

theorem outside_map_bare (removed : List FunctionDef) :
    outside (removed.map bare) = outside removed := by
  funext k
  rw [outside, List.all_map]
  rfl

theorem leavesLine_map_bare (t : Text) (removed : List FunctionDef) (f : FunctionDef) :
    leavesLine t (removed.map bare) (bare f) = leavesLine t removed f := by
  rw [leavesLine, outside_map_bare]
  rfl

/-- Elimination leaves the tokens outside of the removed functions as they are, the functions found in
its text are those it returns, and doing it again changes nothing, if the next token behind a removed
function is no `#`, or is a directive and the function starts a line. -/
theorem eliminate_stable (t : Text) (entry : String)
    (lines : ∀ f ∈ dead t entry, leavesLine t (dead t entry) f = true) :
    wording (significant (eliminate t entry).text) =
        wording ((significant t).filter (outside (dead t entry))) ∧
      find (eliminate t entry).text = (eliminate t entry).functions ∧
      eliminate (eliminate t entry).text entry = eliminate t entry := by
  have text : (eliminate t entry).text =
      excise t (live (find t) entry) (scan [] (significant t)).zipIdx := by
    rw [excise, ← removals_find]
    exact Text.splice_eq_spliceFrom (pairwise_start_removals t _)
  have leaves : ∀ f ∈ (dead t entry).map bare, leavesLine t ((dead t entry).map bare) f = true := by
    intro f hf
    obtain ⟨g, hg, rfl⟩ := List.mem_map.1 hf
    rw [leavesLine_map_bare]
    exact lines g hg
  have known : ∀ p ∈ (scan [] (significant t)).zipIdx, p.2 ∉ live (find t) entry →
      p.1 ∈ (dead t entry).map bare := by
    intro p hp gone
    rw [← map_bare_find] at hp
    obtain ⟨q, hq, rfl⟩ := List.mem_map.1 hp
    exact List.mem_map_of_mem (List.mem_map_of_mem (List.mem_filter.2 ⟨hq, by simpa using gone⟩))
  have apart : ∀ f ∈ (dead t entry).map bare,
      (∃ i, i ∉ live (find t) entry ∧ (f, i) ∈ (scan [] (significant t)).zipIdx) ∨
        ∀ k ∈ significant t, f.contains k.start = false := by
    intro f hf
    obtain ⟨g, hg, rfl⟩ := List.mem_map.1 hf
    obtain ⟨q, hq, rfl⟩ := List.mem_map.1 hg
    obtain ⟨member, gone⟩ := List.mem_filter.1 hq
    rw [← map_bare_find]
    exact Or.inl ⟨q.2, by simpa using gone, List.mem_map_of_mem member⟩
  obtain ⟨later, tokens, same, scanned⟩ := excised_of_sequence (sequence_scan (significant t))
    (List.nil_append _).symm nofun (follow_scan t) leaves known apart
  rw [← text, List.nil_append] at tokens
  rw [← tokens] at same scanned
  rw [outside_map_bare] at same
  have found := find_eliminate scanned
  refine ⟨same, found, ?_⟩
  have all : ∀ j < (find (eliminate t entry).text).length,
      j ∈ live (find (eliminate t entry).text) entry := by
    rw [found]
    exact fun j inside => mem_live_eliminate inside
  rw [eliminate_of_live all, found]

/-- A function on lines of its own goes without a trace, also in front of a directive. -/
theorem eliminate_stable_before_directive :
    let t := "int a;\nfloat f() \x7b return 1.0; \x7d\n#define X 1\nvoid main() \x7b\x7d".toList
    let left := eliminate t "main"
    (dead t "main").map FunctionDef.name = ["f"] ∧
      left.text = "int a;\n#define X 1\nvoid main() \x7b\x7d".toList ∧
      wording (significant left.text) = wording ((significant t).filter (outside (dead t "main"))) ∧
      find left.text = left.functions ∧ eliminate left.text "main" = left := by
  intro t left
  have lines : ∀ f ∈ dead t "main", leavesLine t (dead t "main") f = true := by decide +kernel
  exact ⟨by decide +kernel, by decide +kernel, eliminate_stable t "main" lines⟩

/-- The line break goes with a function that does not start its line: the directive behind it is then
none any more, the next function swallows it, and a second elimination says so. -/
theorem not_eliminate_stable :
    let t := "int a; float f() \x7b\x7d\n#define X\nvoid main() \x7b\x7d".toList
    let left := eliminate t "main"
    left.text = "int a; #define X\nvoid main() \x7b\x7d".toList ∧
      wording (significant left.text) ≠ wording ((significant t).filter (outside (dead t "main"))) ∧
      find left.text ≠ left.functions ∧ eliminate left.text "main" ≠ left := by
  decide +kernel

end ShaderPass.LiveCode
