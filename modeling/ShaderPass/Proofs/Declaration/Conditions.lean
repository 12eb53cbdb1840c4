import ShaderPass.Proofs.Condition.Chains
import ShaderPass.Proofs.Declaration.Separation
import ShaderPass.Proofs.FunctionDef.Sequence

/-! The conditions of declarations. A declaration names what the conditional chains test that are open in
front of it, and the chains inside functions have no part in that. -/
namespace ShaderPass

open Condition

namespace Token

def directives (ts : List Token) : List Text :=
  (ts.filter isDirective).map lexeme

abbrev IsNested (ts : List Token) : Prop :=
  Conditional.wellNested 0 (directives ts) = true

def NestsBlocks (ts : List Token) : Prop :=
  ∀ k us, k :: us <:+ ts → k.isPunct '\x7b' = true →
    ∀ n, Bracket.closeOffset? (k :: us) = some n → IsNested (us.take n)

/-- The conditional lines of a text are well nested, as a whole and between every opening brace and the
brace that closes it. -/
structure NestsConditions (t : Text) : Prop where
  whole : IsNested (significant t)
  blocks : ∀ i < (significant t).length, ∀ k ∈ (significant t)[i]?, k.isPunct '\x7b' = true →
    ∀ j ∈ Bracket.matchingClose? (significant t) i, IsNested (((significant t).take j).drop (i + 1))

def chainsBehind? (chains : List (List Text)) (ts : List Token) : Option (List (List Text)) :=
  (directives ts).foldlM follow? chains

section Nesting

variable {ts us : List Token}

theorem directives_append (ts us : List Token) : directives (ts ++ us) = directives ts ++ directives us := by
  rw [directives, List.filter_append, List.map_append, directives, directives]

theorem IsNested.append (first : IsNested ts) (second : IsNested us) : IsNested (ts ++ us) := by
  rwa [IsNested, directives_append, wellNested_append first]

theorem chainsBehind?_append (chains : List (List Text)) (ts us : List Token) :
    chainsBehind? chains (ts ++ us) = (chainsBehind? chains ts).bind (chainsBehind? · us) := by
  rw [chainsBehind?, directives_append, List.foldlM_append]
  rfl

theorem chainsBehind?_of_isNested (nested : IsNested ts) (chains : List (List Text)) :
    chainsBehind? chains ts = some chains :=
  foldlM_follow?_of_even nested chains

theorem NestsBlocks.of_suffix (blocks : NestsBlocks ts) (part : us <:+ ts) : NestsBlocks us :=
  fun k vs suffix => blocks k vs (suffix.trans part)

theorem IsNested.cons {k : Token} (plain : k.isDirective = false) (nested : IsNested ts) :
    IsNested (k :: ts) := by
  rwa [IsNested, directives, List.filter_cons_of_neg (by simp [plain])]

theorem isDirective_of_isPunct {k : Token} {c : Char} (punct : k.isPunct c = true) :
    k.isDirective = false := by
  have kind := (Bool.and_eq_true_iff.1 punct).1
  simp only [decide_eq_true_eq] at kind
  simp [isDirective, kind]

theorem isNested_block {k : Token} {n : Nat} (blocks : NestsBlocks (k :: ts))
    (opens : k.isPunct '\x7b' = true) (closed : Bracket.closeOffset? (k :: ts) = some n) :
    IsNested (k :: ts.take n) :=
  (blocks k ts (List.suffix_refl _) opens n closed).cons (isDirective_of_isPunct opens)

theorem NestsConditions.nestsBlocks {t : Text} (nests : NestsConditions t) :
    NestsBlocks (significant t) := by
  rintro k us ⟨front, cut⟩ opens n found
  have found' := found
  rw [Bracket.closeOffset?_cons (b := Bracket.brace) (by decide) opens] at found'
  split at found'
  · obtain ⟨m, search, rfl⟩ := Option.map_eq_some_iff.1 found'
    obtain ⟨close, at_m, closes⟩ := Bracket.exists_of_closeAfter search
    have drop : (significant t).drop front.length = k :: us := by rw [← cut, List.drop_left]
    have inside := nests.blocks front.length (by rw [← cut]; simp) k (by rw [← cut]; simp) opens
      (m + 1 + front.length) (by rw [Bracket.matchingClose?, drop, found]; rfl)
    have whole : ((significant t).take (m + 1 + front.length)).drop (front.length + 1) = us.take m := by
      rw [← cut, Nat.add_comm (m + 1), List.take_length_add_append, List.drop_length_add_append,
        List.take_succ_cons, List.drop_succ_cons, List.drop_zero]
    rw [whole] at inside
    rw [List.take_add_one, at_m]
    exact inside.append (.cons (isDirective_of_isPunct closes) Conditional.wellNested_nil)
  · cases found'

end Nesting

end Token

namespace FunctionDef

open Token

def isOutside (functions : List FunctionDef) (k : Token) : Bool :=
  functions.all fun f => !f.contains k.start

section Scan

variable {statement ts : List Token}

theorem isOutside_iff {functions : List FunctionDef} {k : Token} :
    isOutside functions k = true ↔ ∀ f ∈ functions, f.contains k.start = false := by
  simp [isOutside]

theorem filter_isOutside_nil (ts : List Token) : ts.filter (isOutside []) = ts :=
  List.filter_eq_self.2 fun _ _ => rfl

theorem exists_front_of_notMem {us front later : List Token} {k : Token}
    (cut : us ++ ts = front ++ k :: later) (absent : k ∉ us) :
    ∃ front', front = us ++ front' ∧ ts = front' ++ k :: later := by
  rcases List.append_eq_append_iff.1 cut with found | ⟨rest, rfl, behind⟩
  · exact found
  · cases rest with
    | nil => exact ⟨[], (List.append_nil _).symm.trans (List.append_nil _).symm, behind.symm⟩
    | cons k' rest =>
      obtain ⟨rfl, -⟩ := List.cons.inj behind
      exact absurd (List.mem_append_right _ List.mem_cons_self) absent

theorem isOutside_of_front {us : List Token} (ordered : Ordered (us ++ ts)) :
    ∀ u ∈ us, isOutside (scan [] ts) u = true := by
  intro u hu
  refine List.all_eq_true.2 fun f hf => ?_
  obtain ⟨k, hk, start⟩ := (sequence_scan ts).exists_start hf
  have apart := (List.pairwise_append.1 ordered.1).2.2 u hu k hk
  have filled := ordered.2 u (List.mem_append_left _ hu)
  simp only [contains, Bool.not_eq_true', Bool.and_eq_false_iff, decide_eq_false_iff_not]
  omega

theorem chainsBehind?_function {f : FunctionDef} {fs : List FunctionDef}
    {body rest front later : List Token} {k : Token} (spans : f.Spans body) (ordered : Ordered (body ++ rest))
    (nested : IsNested body ∨ rest = []) (cut : body ++ rest = front ++ k :: later)
    (free : f.contains k.start = false)
    (ih : ∀ front', rest = front' ++ k :: later → ∀ chains,
      chainsBehind? chains (front'.filter (isOutside fs)) = chainsBehind? chains front')
    (chains : List (List Text)) :
    chainsBehind? chains (front.filter (isOutside (f :: fs))) = chainsBehind? chains front := by
  obtain ⟨-, within, behind⟩ := @Spans.start_lt_stop f [] body rest spans ordered
  have contained {u : Token} (hu : u ∈ body) : f.contains u.start = true := by
    simpa [contains] using within u hu
  obtain ⟨front', rfl, tail⟩ := exists_front_of_notMem cut fun member => by
    rw [contained member] at free
    cases free
  have gone : body.filter (isOutside (f :: fs)) = [] :=
    List.filter_eq_nil_iff.2 fun u hu => by simp [isOutside, contained hu]
  have kept : front'.filter (isOutside (f :: fs)) = front'.filter (isOutside fs) := by
    refine List.filter_congr fun u hu => ?_
    have := behind u (by rw [tail]; exact List.mem_append_left _ hu)
    simp [isOutside, contains, this]
  rcases nested with nested | nothing
  · rw [List.filter_append, gone, kept, List.nil_append, chainsBehind?_append,
      chainsBehind?_of_isNested nested, Option.bind_some, ih front' tail]
  · rw [nothing] at tail
    simp at tail

theorem chainsBehind?_scan (ordered : Ordered (statement.reverse ++ ts))
    (nested : IsNested statement.reverse) (blocks : NestsBlocks ts) {front later : List Token} {k : Token}
    (cut : statement.reverse ++ ts = front ++ k :: later) (outside : isOutside (scan statement ts) k = true)
    (chains : List (List Text)) :
    chainsBehind? chains (front.filter (isOutside (scan statement ts))) = chainsBehind? chains front := by
  fun_induction scan statement ts generalizing front chains with
  | case1 statement => rw [filter_isOutside_nil]
  | case2 statement t ts ends ih =>
    rw [List.append_cons] at ordered cut
    have free := isOutside_of_front ordered
    rcases List.append_eq_append_iff.1 cut with ⟨front', rfl, behind⟩ | ⟨rest, chunk, -⟩
    · rw [List.filter_append, List.filter_eq_self.2 free, chainsBehind?_append _ (_ ++ [t]),
        chainsBehind?_append _ (_ ++ [t])]
      congr 1
      funext chains'
      exact ih (ordered.sublist (List.sublist_append_right _ _)) rfl
        (blocks.of_suffix (List.suffix_cons t ts)) behind outside chains'
    · rw [List.filter_eq_self.2 fun u hu => free u (chunk ▸ List.mem_append_left _ hu)]
  | case3 statement t ts inside block n type name last first first_eq last_eq header ih =>
    have regroup : statement.reverse ++ t :: ts = (statement.reverse ++ t :: ts.take n) ++ ts.drop n := by
      simp
    obtain ⟨free, outside⟩ := Bool.and_eq_true_iff.1 outside
    have ordered := regroup ▸ ordered
    refine chainsBehind?_function (spans_of_parts first_eq rfl rfl) ordered ?_ (regroup ▸ cut)
      (by simpa using free) (fun front' behind => ?_) chains
    · cases closed : Bracket.closeOffset? (t :: ts) with
      | some m =>
        obtain rfl : n = m := by simp [n, closed]
        exact .inl (nested.append (isNested_block blocks block closed))
      | none => exact .inr (by simp [n, closed])
    · exact ih (ordered.sublist (List.sublist_append_right _ _)) Conditional.wellNested_nil
        (blocks.of_suffix ((List.drop_suffix n ts).trans (List.suffix_cons t ts))) behind outside
  | case4 statement t ts inside block n no_header ih =>
    have regroup : statement.reverse ++ t :: ts =
        ((ts.take n).reverse ++ t :: statement).reverse ++ ts.drop n := by simp
    cases closed : Bracket.closeOffset? (t :: ts) with
    | some m =>
      obtain rfl : n = m := by simp [n, closed]
      refine ih (regroup ▸ ordered) ?_ (blocks.of_suffix ((List.drop_suffix n ts).trans
        (List.suffix_cons t ts))) (regroup ▸ cut) outside chains
      rw [List.reverse_append, List.reverse_cons, List.append_assoc, List.reverse_reverse]
      exact nested.append (isNested_block blocks block closed)
    | none =>
      have size : n = ts.length := by simp [n, closed]
      rw [size, List.drop_length, scan, filter_isOutside_nil]
  | case5 statement t ts inside no_block ih =>
    have regroup : statement.reverse ++ t :: ts = (t :: statement).reverse ++ ts := by simp
    rw [Bool.not_eq_true, Bool.or_eq_false_iff] at inside
    refine ih (regroup ▸ ordered) ?_ (blocks.of_suffix (List.suffix_cons t ts)) (regroup ▸ cut) outside
      chains
    rw [List.reverse_cons]
    exact nested.append (.cons inside.1 Conditional.wellNested_nil)

end Scan

theorem isOutside_find (t : Text) : isOutside (find t) = isOutside (scan [] (significant t)) := by
  funext k
  rw [isOutside, find, List.all_map]
  rfl

theorem chainsBehind?_outside {t : Text} (nests : NestsConditions t) {front later : List Token} {k : Token}
    (cut : significant t = front ++ k :: later) (outside : isOutside (find t) k = true)
    (chains : List (List Text)) :
    chainsBehind? chains (front.filter (isOutside (find t))) = chainsBehind? chains front := by
  rw [isOutside_find] at outside ⊢
  exact @chainsBehind?_scan [] _ (ordered_significant t) Conditional.wellNested_nil nests.nestsBlocks _ _ _ cut outside
    chains

end FunctionDef

namespace Declaration

open Token FunctionDef Compile

section Statements

variable {ts : List Token}

theorem isNested_statement (blocks : NestsBlocks ts) :
    IsNested (ts.take (statementLength ts)) ∨ statementLength ts = ts.length := by
  fun_induction statementLength ts with
  | case1 => exact .inr rfl
  | case2 => exact .inl Conditional.wellNested_nil
  | case3 t ts inside block n closed ih =>
    rcases ih (blocks.of_suffix ((List.drop_suffix n ts).trans (List.suffix_cons t ts))) with nested | size
    · left
      rw [List.take_add, List.take_succ_cons, List.drop_succ_cons]
      exact (isNested_block blocks block closed).append nested
    · right
      obtain ⟨-, length, -⟩ := blockSize_append_of_closed block closed []
      rw [List.length_take] at length
      rw [size, List.length_drop, List.length_cons]
      omega
  | case4 t ts inside block closed => exact .inr rfl
  | case5 t ts inside block ih =>
    rw [Bool.not_eq_true, Bool.or_eq_false_iff] at inside
    rcases ih (blocks.of_suffix (List.suffix_cons t ts)) with nested | size
    · exact .inl (nested.cons inside.1)
    · exact .inr (by rw [size, List.length_cons])

theorem exists_passed (blocks : NestsBlocks ts) : afterStatement (statementLength ts) ts = [] ∨
    ∃ n, n ≤ statementLength ts + 1 ∧ IsNested (ts.take n) ∧
      afterStatement (statementLength ts) ts = ts.drop n := by
  rcases isNested_statement blocks with nested | size
  · cases rest : ts.drop (statementLength ts) with
    | nil =>
      left
      rw [afterStatement, rest]
    | cons k us =>
      right
      by_cases semicolon : k.isPunct ';' = true
      · have last : ts[statementLength ts]? = some k := by rw [← List.head?_drop, rest, List.head?_cons]
        refine ⟨statementLength ts + 1, Nat.le_refl _, ?_, ?_⟩
        · rw [List.take_add_one, last]
          exact nested.append (.cons (isDirective_of_isPunct semicolon) Conditional.wellNested_nil)
        · rw [← List.tail_drop, rest, afterStatement, rest]
          exact if_pos semicolon
      · refine ⟨statementLength ts, Nat.le_succ _, nested, ?_⟩
        rw [afterStatement, rest]
        exact if_neg semicolon
  · left
    rw [afterStatement, size, List.drop_length]

end Statements

section Run

variable {t : Text} {stage : Stage} {P : Statement → Prop}

theorem find?_eq_none_iff {functions : List FunctionDef} {k : Token} :
    functions.find? (·.contains k.start) = none ↔ isOutside functions k = true := by
  simp [isOutside, List.find?_eq_none]

def NamesOpen (t : Text) (d : Declaration) : Prop :=
  ∃ front k later chains, significant t = front ++ k :: later ∧ isOutside (find t) k = true ∧
    d.start = k.start ∧ chainsBehind? [] (front.filter (isOutside (find t))) = some chains ∧
    d.descriptor.defines = Stack.identifiers (chains.map frame)

theorem exists_passed_outside (nests : NestsConditions t) {front ts : List Token} {k : Token}
    (cut : significant t = front ++ k :: ts) (identifier : k.isIdentifier = true)
    (outside : isOutside (find t) k = true) :
    afterStatement (statementLength ts) ts = [] ∨
      ∃ passed, k :: ts = passed ++ afterStatement (statementLength ts) ts ∧
        IsNested (passed.filter (isOutside (find t))) := by
  have part : k :: ts <:+ significant t := ⟨front, cut.symm⟩
  have ordered := (ordered_significant t).sublist part.sublist
  rcases exists_passed (nests.nestsBlocks.of_suffix ((List.suffix_cons k ts).trans part)) with
    nothing | ⟨n, within, nested, rest⟩
  · exact .inl nothing
  refine .inr ⟨k :: ts.take n, by rw [rest, List.cons_append, List.take_append_drop], ?_⟩
  have free : ∀ u ∈ k :: ts.take n, isOutside (find t) u = true := by
    intro u hu
    refine List.all_eq_true.2 fun f hf => ?_
    have from_start : k.start ≤ u.start :=
      ordered.start_le_of_head? rfl (List.cons_subset_cons k (List.take_subset n ts) hu)
    have around := find_around cut identifier (isOutside_iff.1 outside) f hf
    simp only [contains, Bool.not_eq_true', Bool.and_eq_false_iff, decide_eq_false_iff_not]
    rcases around with before | ⟨j, behind, start⟩
    · omega
    · -- the function starts behind the statement
      have split : k :: ts =
          (k :: ts.take (statementLength ts + 1)) ++ ts.drop (statementLength ts + 1) := by simp
      have member : u ∈ k :: ts.take (statementLength ts + 1) :=
        List.cons_subset_cons k (List.take_subset_take_left ts within) hu
      rw [split] at ordered
      have apart := (List.pairwise_append.1 ordered.1).2.2 u member j behind
      have filled := ordered.2 u (List.mem_append_left _ member)
      omega
  rw [List.filter_eq_self.2 free]
  exact nested.cons (isDirective_of_isIdentifier identifier)

theorem isNested_function {front ts : List Token} {k : Token} {f : FunctionDef}
    (cut : significant t = front ++ k :: ts) (inside : (find t).find? (·.contains k.start) = some f) :
    IsNested ((k :: ts.takeWhile fun u => u.start < f.stop).filter (isOutside (find t))) := by
  have taken := List.find?_some inside
  simp only [contains, Bool.and_eq_true, decide_eq_true_eq] at taken
  have ordered := (ordered_significant t).sublist (cut ▸ List.sublist_append_right front (k :: ts))
  rw [List.filter_eq_nil_iff.2]
  · exact Conditional.wellNested_nil
  · intro u hu free
    have free := List.all_eq_true.1 free f (List.mem_of_find?_eq_some inside)
    have from_start : k.start ≤ u.start :=
      ordered.start_le_of_head? rfl (List.cons_subset_cons k (List.takeWhile_subset _) hu)
    have before : u.start < f.stop := by
      rcases List.mem_cons.1 hu with rfl | hu
      · exact taken.2
      · exact of_decide_eq_true (List.all_eq_true.1 List.all_takeWhile u hu)
    simp only [contains, Bool.not_eq_true', Bool.and_eq_false_iff, decide_eq_false_iff_not] at free
    omega

theorem chainsBehind?_passed {front passed : List Token} {chains : List (List Text)}
    (opened : chainsBehind? [] (front.filter (isOutside (find t))) = some chains)
    (nested : IsNested (passed.filter (isOutside (find t)))) :
    chainsBehind? [] ((front ++ passed).filter (isOutside (find t))) = some chains := by
  rw [List.filter_append, chainsBehind?_append, opened, Option.bind_some, chainsBehind?_of_isNested nested]

theorem exists_follow? (nests : NestsConditions t) {front ts : List Token} {k : Token}
    (cut : significant t = front ++ k :: ts) (outside : isOutside (find t) k = true)
    (directive : k.isDirective = true) {chains : List (List Text)}
    (opened : chainsBehind? [] (front.filter (isOutside (find t))) = some chains) :
    ∃ chains', follow? chains k.lexeme = some chains' ∧
      chainsBehind? [] ((front ++ [k]).filter (isOutside (find t))) = some chains' := by
  have single : chainsBehind? chains [k] = follow? chains k.lexeme := by
    simp [chainsBehind?, directives, directive]
  have whole := chainsBehind?_of_isNested nests.whole []
  rw [cut, List.append_cons, chainsBehind?_append, chainsBehind?_append,
    ← chainsBehind?_outside nests cut outside, opened, Option.bind_some, single] at whole
  obtain ⟨chains', step, -⟩ := Option.bind_eq_some_iff.1 whole
  refine ⟨chains', step, ?_⟩
  rw [List.filter_append, List.filter_cons_of_pos outside, List.filter_nil, chainsBehind?_append, opened,
    Option.bind_some, single, step]

/-- The stack of conditions along a run is what the chains test that are open outside functions. -/
theorem Run.namesOpen (nests : NestsConditions t) {front ts : List Token} {stack : Condition.Stack}
    {tags : List (String × String)} {ds : List Declaration}
    (run : Run t stage (find t) P stack tags ts ds) (cut : significant t = front ++ ts)
    {chains : List (List Text)}
    (opened : chainsBehind? [] (front.filter (isOutside (find t))) = some chains)
    (known : stack = chains.map frame) : ∀ d ∈ ds, NamesOpen t d := by
  induction run generalizing front chains with
  | done => simp
  | @pass stack stack' tags tags' k ts ts' ds step later ih =>
    cases step with
    | @function f inside =>
      refine ih ?_ (chainsBehind?_passed opened (isNested_function cut inside)) known
      rw [List.append_assoc, List.cons_append, List.takeWhile_append_dropWhile, cut]
    | directive outside directive =>
      obtain ⟨chains', step, opened'⟩ :=
        exists_follow? nests cut (find?_eq_none_iff.1 outside) directive opened
      exact ih (by rw [cut, List.append_cons]) opened' (by rw [known, update_map_frame step])
    | other outside no_directive no_identifier =>
      have nested : IsNested ([k].filter (isOutside (find t))) := by
        rw [List.filter_cons_of_pos (find?_eq_none_iff.1 outside)]
        exact .cons no_directive Conditional.wellNested_nil
      exact ih (by rw [cut, List.append_cons]) (chainsBehind?_passed opened nested) known
    | statement outside identifier nothing =>
      rcases exists_passed_outside nests cut identifier (find?_eq_none_iff.1 outside) with
        empty | ⟨passed, split, nested⟩
      · rw [empty] at later
        cases later
        simp
      · exact ih (by rw [cut, split, List.append_assoc]) (chainsBehind?_passed opened nested) known
  | @declaration stack tags k ts d ds outside identifier found holds later ih =>
    intro d' member
    rcases List.mem_cons.1 member with rfl | member
    · have start := (start_of_parse? rfl found).1
      refine ⟨front, k, ts, chains, cut, find?_eq_none_iff.1 outside, start, opened, ?_⟩
      rw [← known]
      rfl
    · rcases exists_passed_outside nests cut identifier (find?_eq_none_iff.1 outside) with
        empty | ⟨passed, split, nested⟩
      · rw [empty] at later
        cases later
        cases member
      · exact ih (by rw [cut, split, List.append_assoc]) (chainsBehind?_passed opened nested) known d' member

/-- Declarations outside functions name what the chains test that are open in front of them, from the
outermost chain on. The lines inside functions open no chain there and close none. -/
theorem defines_of_chains (t : Text) (stage : Stage) {r s : Report} {ds : List Declaration}
    (extracted : (extract t stage (find t)).runWith r = (.ok ds, s)) (nests : NestsConditions t) :
    ∀ d ∈ ds, ∃ chains,
      (∀ cs, Around (directives ((significant t).filter (·.start < d.start))) cs ↔ cs = chains) ∧
      (∀ cs, Around (directives (((significant t).filter (·.start < d.start)).filter
        (isOutside (find t)))) cs ↔ cs = chains) ∧
      d.descriptor.defines = (chains.flatten.flatMap Define.tested).eraseDups := by
  intro d member
  have run := run_of_outcome ((composed_extractFrom _ _ _ _ _ _).outcome_of_ok extracted)
  have none_open : chainsBehind? [] (([] : List Token).filter (isOutside (find t))) = some [] := rfl
  obtain ⟨front, k, later, chains, cut, outside, start, opened, defines⟩ :=
    run.namesOpen nests (List.nil_append _).symm none_open rfl d member
  have in_front : (significant t).filter (·.start < d.start) = front := by
    have ordered := ordered_significant t
    rw [cut] at ordered
    have ahead : ∀ u ∈ front, decide (u.start < d.start) = true := by
      intro u hu
      have apart := (List.pairwise_append.1 ordered.1).2.2 u hu k List.mem_cons_self
      have filled := ordered.2 u (List.mem_append_left _ hu)
      rw [start, decide_eq_true_eq]
      omega
    have behind : ∀ u ∈ k :: later, ¬ decide (u.start < d.start) = true := by
      intro u hu
      have from_start : k.start ≤ u.start :=
        (ordered.sublist (List.sublist_append_right _ _)).start_le_of_head? rfl hu
      rw [start, decide_eq_true_eq]
      omega
    rw [cut, List.filter_append, List.filter_eq_self.2 ahead, List.filter_eq_nil_iff.2 behind,
      List.append_nil]
  have only {ts : List Token} (opened : chainsBehind? [] ts = some chains) (cs : List (List Text)) :
      Around (directives ts) cs ↔ cs = chains.reverse := by
    rw [around_iff, show (directives ts).foldlM follow? [] = some chains from opened, Option.some.injEq,
      eq_comm, List.reverse_eq_iff]
  rw [in_front]
  refine ⟨chains.reverse, only ?_, only opened, ?_⟩
  · rw [← chainsBehind?_outside nests cut outside, opened]
  · rw [defines, identifiers_map_frame]

theorem defines_of_chains_in_branch :
    let t := ("#if A\n#ifdef B\nvoid f() \x7b\n#if C\n#endif\n\x7d\n#elif D > 1\n" ++
      "uniform sampler2D u;\n#endif\n#endif").toList
    NestsConditions t ∧ ∃ ds s, (extract t .fragment (find t)).runWith {} = (.ok ds, s) ∧
      ds.map (fun d => d.descriptor.defines) = [["A", "B", "D"]] ∧
      ∀ d ∈ ds, ∃ chains,
        Around (directives (((significant t).filter (·.start < d.start)).filter
          (isOutside (find t)))) chains ∧
        d.descriptor.defines = (chains.flatten.flatMap Define.tested).eraseDups := by
  intro t
  have nests : NestsConditions t := ⟨by decide +kernel, by decide +kernel⟩
  have conditions : ((extract t .fragment (find t)).runWith {}).1.toOption.map
      (List.map fun d => d.descriptor.defines) = some [["A", "B", "D"]] := by decide +kernel
  obtain ⟨ds, s, run, listed⟩ := exists_of_toOption_map conditions
  refine ⟨nests, ds, s, run, listed, fun d member => ?_⟩
  obtain ⟨chains, -, outside, defines⟩ := defines_of_chains t .fragment run nests d member
  exact ⟨chains, (outside chains).2 rfl, defines⟩

end Run

end Declaration
end ShaderPass
