import ShaderPass.Proofs.FunctionDef.Relocation

/-! The tokens of a text as a sequence of function definitions and other statements. Definitions stand
on their own: one can be left out, or moved, without the search for the others noticing. -/
namespace ShaderPass.FunctionDef

open Token ShaderPass.Bracket

def Spans (f : FunctionDef) (ts : List Token) : Prop :=
  ∃ first last, ts.head? = some first ∧ ts.getLast? = some last ∧ f.start = first.start ∧
    f.stop = last.stop

theorem spans_of_parts {statement body : List Token} {t first : Token} {f : FunctionDef}
    (first_eq : statement.getLast? = some first) (start : f.start = first.start)
    (stop : f.stop = (body.getLastD t).stop) : f.Spans (statement.reverse ++ t :: body) := by
  refine ⟨first, body.getLastD t, ?_, ?_, start, stop⟩
  · rw [List.head?_append, List.head?_reverse, first_eq, Option.some_or]
  · rw [List.getLast?_append, List.getLast?_cons, List.getLastD_eq_getLast?, Option.some_or]

def isEnd (t : Token) : Bool :=
  t.isDirective || t.isPunct ';' || t.isPunct '\x7d'

/-- Tokens as a sequence of definitions with other statements between them. Whatever follows one of
them is searched on its own. -/
inductive Sequence : List Token → List FunctionDef → Prop where
  | rest {ts} : scan [] ts = [] → Sequence ts []
  | other {ts later fs} : (∀ k, ts.getLast? = some k → isEnd k = true) →
      (∀ us, scan [] (ts ++ us) = scan [] us) → Sequence later fs → Sequence (ts ++ later) fs
  | definition {ts f later fs} : f.Spans ts → (∀ k, ts.getLast? = some k → isEnd k = true) →
      (∀ us, scan [] (ts ++ us) = f :: scan [] us) → Sequence later fs →
      Sequence (ts ++ later) (f :: fs)
  | unclosed {ts f} : f.Spans ts → scan [] ts = [f] → Sequence ts [f]

theorem scan_cons_of_header {statement : List Token} {t type name last first : Token} (ts : List Token)
    (inside : (t.isDirective || t.isPunct ';') = false) (block : t.isPunct '\x7b' = true)
    (header : header? statement = some (type, name)) (head : statement.head? = some last)
    (start : statement.getLast? = some first) : scan statement (t :: ts) =
      { name := name.name
        returnType := type.name
        start := first.start
        stop := ((ts.take (blockSize t ts)).getLastD t).stop
        paramStop := last.stop } :: scan [] (ts.drop (blockSize t ts)) := by
  rw [scan, if_neg (by simp [inside]), if_pos block, header, head, start]
  rfl

theorem isSome_header?_of_parts {statement : List Token}
    (none : ∀ type name last first, header? statement = some (type, name) →
      statement.head? = some last → statement.getLast? = some first → False) :
    (header? statement).isSome = false := by
  rw [Bool.eq_false_iff]
  intro found
  obtain ⟨first, start⟩ := getLast?_of_header found
  obtain ⟨⟨type, name⟩, header⟩ := Option.isSome_iff_exists.1 found
  cases statement with
  | nil => cases start
  | cons last rest => exact none type name last first header rfl start

theorem blockSize_append_of_closed {t : Token} {ts : List Token} {n : Nat}
    (block : t.isPunct '\x7b' = true) (closed : closeOffset? (t :: ts) = some n) (us : List Token) :
    blockSize t (ts.take n ++ us) = n ∧ (ts.take n).length = n ∧
      ∃ k, (ts.take n).getLast? = some k ∧ k.isPunct '\x7d' = true := by
  have brace_mem : brace ∈ all := mem_all_iff.2 (Or.inr (Or.inr rfl))
  obtain ⟨lexeme, m, found, rfl⟩ := (closeOffset?_eq_some_iff brace_mem block).1 closed
  have lt := closeAfter_lt found
  obtain ⟨k, at_m, closes⟩ := exists_of_closeAfter found
  have size : (ts.take (m + 1)).length = m + 1 := by
    rw [List.length_take]
    omega
  refine ⟨?_, size, k, ?_, closes⟩
  · rw [blockSize, closeOffset?_cons brace_mem block, if_pos lexeme]
    rcases closeAfter_append_cases brace (Nat.le_refl 1) (ts.take (m + 1)) with
      ⟨m', -, always⟩ | ⟨e, -, always⟩
    · have := always (ts.drop (m + 1))
      rw [List.take_append_drop, found] at this
      rw [always us, ← this]
      rfl
    · have := always (ts.drop (m + 1))
      rw [List.take_append_drop, found, size] at this
      obtain ⟨_, _, eq⟩ := Option.map_eq_some_iff.1 this.symm
      omega
  · rw [List.getLast?_eq_getElem?, size, Nat.add_sub_cancel, List.getElem?_take, if_pos (by omega), at_m]

def Pending (statement : List Token) : Prop :=
  ∀ us, scan [] (statement.reverse ++ us) = scan statement us

theorem Pending.cons {statement : List Token} (h : Pending statement) {t : Token}
    (inside : (t.isDirective || t.isPunct ';') = false) (no_block : t.isPunct '\x7b' = false) :
    Pending (t :: statement) := by
  intro us
  rw [List.reverse_cons, List.append_assoc, List.singleton_append, h (t :: us),
    scan_cons_of_other us inside no_block]

section Block

variable {statement ts : List Token} {t : Token} (pending : Pending statement)
  (inside : (t.isDirective || t.isPunct ';') = false) (block : t.isPunct '\x7b' = true)
include pending inside block

theorem Pending.skip_block (no_header : (header? statement).isSome = false) {n : Nat}
    (closed : closeOffset? (t :: ts) = some n) :
    Pending ((ts.take n).reverse ++ t :: statement) := by
  intro us
  obtain ⟨size, length, -⟩ := blockSize_append_of_closed block closed us
  have reversed : ((ts.take n).reverse ++ t :: statement).reverse ++ us =
      statement.reverse ++ t :: (ts.take n ++ us) := by simp
  rw [reversed, pending, scan_cons_of_block _ inside block no_header, size,
    List.take_left' length, List.drop_left' length]

theorem Pending.rest_of_open (no_header : (header? statement).isSome = false)
    (no_close : closeOffset? (t :: ts) = none) : scan [] (statement.reverse ++ t :: ts) = [] := by
  have size : blockSize t ts = ts.length := by rw [blockSize, no_close, Option.getD_none]
  rw [pending, scan_cons_of_block _ inside block no_header, size, List.drop_length, scan]

theorem Pending.sequence_of_header {type name last first : Token}
    (header : header? statement = some (type, name)) (head : statement.head? = some last)
    (start : statement.getLast? = some first)
    (later : Sequence (ts.drop (blockSize t ts)) (scan [] (ts.drop (blockSize t ts)))) :
    Sequence (statement.reverse ++ t :: ts) (scan statement (t :: ts)) := by
  rw [scan_cons_of_header _ inside block header head start]
  cases closed : closeOffset? (t :: ts) with
  | some n =>
    obtain rfl : blockSize t ts = n := by rw [blockSize, closed, Option.getD_some]
    have regroup : statement.reverse ++ t :: ts =
        (statement.reverse ++ t :: ts.take (blockSize t ts)) ++ ts.drop (blockSize t ts) := by simp
    rw [regroup]
    refine .definition (spans_of_parts start rfl rfl) (fun k at_end => ?_) (fun us => ?_) later
    · obtain ⟨-, -, k', close, closes⟩ := blockSize_append_of_closed block closed []
      rw [List.getLast?_append, List.getLast?_cons, close] at at_end
      rw [← Option.some.inj at_end]
      simp [isEnd, closes]
    · obtain ⟨size, length, -⟩ := blockSize_append_of_closed block closed us
      rw [List.append_assoc, List.cons_append, pending,
        scan_cons_of_header _ inside block header head start, size,
        List.take_left' length, List.drop_left' length]
  | none =>
    have size : blockSize t ts = ts.length := by rw [blockSize, closed, Option.getD_none]
    rw [size, List.take_length, List.drop_length, scan]
    refine .unclosed (spans_of_parts start rfl rfl) ?_
    rw [pending, scan_cons_of_header _ inside block header head start, size, List.take_length,
      List.drop_length, scan]

end Block

theorem sequence_of_pending {statement : List Token} (pending : Pending statement)
    (ts : List Token) : Sequence (statement.reverse ++ ts) (scan statement ts) := by
  fun_induction scan statement ts with
  | case1 statement =>
    rw [List.append_nil]
    refine .rest ?_
    have := pending []
    rwa [List.append_nil, scan] at this
  | case2 statement t ts ends ih =>
    rw [List.append_cons]
    refine .other ?_ (fun us => ?_) (ih fun us => rfl)
    · intro k last
      rw [List.getLast?_concat, Option.some.injEq] at last
      rw [← last, isEnd, ends, Bool.true_or]
    · rw [← List.append_cons, pending, scan_cons_of_ends us ends]
  | case3 statement t ts inside block n type name last first first_eq last_eq header ih =>
    rw [Bool.not_eq_true] at inside
    have found := pending.sequence_of_header inside block header last_eq first_eq (ih fun _ => rfl)
    rwa [scan_cons_of_header _ inside block header last_eq first_eq] at found
  | case4 statement t ts inside block n no_header ih =>
    rw [Bool.not_eq_true] at inside
    have no_header := isSome_header?_of_parts no_header
    cases closed : closeOffset? (t :: ts) with
    | some m =>
      obtain rfl : n = m := by simp [n, closed]
      have regroup : statement.reverse ++ t :: ts =
          ((ts.take n).reverse ++ t :: statement).reverse ++ ts.drop n := by simp
      rw [regroup]
      exact ih (pending.skip_block inside block no_header closed)
    | none =>
      have size : n = ts.length := by simp [n, closed]
      rw [size, List.drop_length, scan]
      exact .rest (pending.rest_of_open inside block no_header closed)
  | case5 statement t ts inside no_block ih =>
    rw [Bool.not_eq_true] at inside no_block
    have regroup : statement.reverse ++ t :: ts = (t :: statement).reverse ++ ts := by simp
    rw [regroup]
    exact ih (pending.cons inside no_block)

def displace (z z' : Nat) (f : FunctionDef) : FunctionDef :=
  { f with
    start := f.start - z + z'
    stop := f.stop - z + z'
    paramStop := f.paramStop - z + z' }

theorem header?_map_move (z z' : Nat) (statement : List Token) :
    header? (statement.map (Token.move z z')) =
      (header? statement).map fun h => (h.1.move z z', h.2.move z z') := by
  cases statement with
  | nil => rfl
  | cons last rest =>
    have search := closeAfter_map (Token.move z z') (fun _ _ => rfl) ⟨')', '('⟩ 0 (last :: rest)
    simp only [header?, List.head?_map, List.head?_cons, Option.map_some, Option.bind_eq_bind,
      Option.bind_some, move_isPunct, search]
    by_cases closes : last.isPunct ')' = true
    · simp only [closes, if_true]
      cases closeAfter ⟨')', '('⟩ 0 (last :: rest) with
      | none => rfl
      | some n =>
        simp only [Option.bind_some, ← List.map_drop]
        rcases (last :: rest).drop (n + 1) with _ | ⟨name, _ | ⟨type, later⟩⟩
        · rfl
        · rfl
        · simp only [List.map_cons, move_isIdentifier]
          by_cases both : (name.isIdentifier && type.isIdentifier) = true
          · refine (if_pos both).trans ?_
            rw [if_pos both, Option.map_some]
          · refine (if_neg both).trans ?_
            rw [if_neg both, Option.map_none]
    · simp only [closes]
      rfl

theorem scan_map_move {z : Nat} (z' : Nat) {statement ts : List Token}
    (behind : ∀ t ∈ statement ++ ts, z ≤ t.start) :
    scan (statement.map (Token.move z z')) (ts.map (Token.move z z')) =
      (scan statement ts).map (displace z z') := by
  fun_induction scan statement ts with
  | case1 statement => rw [List.map_nil, scan, List.map_nil]
  | case2 statement t ts ends ih =>
    have ends' : ((t.move z z').isDirective || (t.move z z').isPunct ';') = true := ends
    rw [List.map_cons, scan_cons_of_ends _ ends']
    exact ih fun u hu => behind u (by simp_all)
  | case3 statement t ts inside block n type name last first first_eq last_eq header ih =>
    have inside' : ((t.move z z').isDirective || (t.move z z').isPunct ';') = false := by
      simpa using inside
    have block' : (t.move z z').isPunct '\x7b' = true := block
    have stop_behind {u : Token} (hu : u ∈ statement ++ t :: ts) := move_stop z' (behind u hu)
    have close : (ts.take n).getLastD t ∈ statement ++ t :: ts :=
      List.mem_append_right _ (((List.take_sublist n ts).cons_cons t).mem List.getLastD_mem_cons)
    have param : last ∈ statement ++ t :: ts :=
      List.mem_append_left _ (List.mem_of_mem_head? last_eq)
    rw [List.map_cons, scan_cons_of_header _ inside' block'
      (by rw [header?_map_move, header, Option.map_some]) (by rw [List.head?_map, last_eq, Option.map_some])
      (by rw [List.getLast?_map, first_eq, Option.map_some]), blockSize_map_move,
      show blockSize t ts = n from rfl, ← List.map_take, ← List.map_drop, getLastD_map, List.map_cons,
      stop_behind close, stop_behind param]
    congr 1
    exact ih fun u hu => behind u (List.mem_append_right _
      (List.mem_cons_of_mem _ (List.mem_of_mem_drop (by simpa using hu))))
  | case4 statement t ts inside block n no_header ih =>
    have inside' : ((t.move z z').isDirective || (t.move z z').isPunct ';') = false := by
      simpa using inside
    have block' : (t.move z z').isPunct '\x7b' = true := block
    have no_header := isSome_header?_of_parts no_header
    rw [List.map_cons, scan_cons_of_block _ inside' block' (by rwa [isSome_header?_map_move]),
      blockSize_map_move, show blockSize t ts = n from rfl, ← List.map_take, ← List.map_drop]
    have rest := ih fun u hu => behind u ?_
    · rw [List.map_append, List.map_reverse, List.map_cons] at rest
      exact rest
    · have := List.mem_of_mem_take (a := u) (i := n) (l := ts)
      have := List.mem_of_mem_drop (a := u) (i := n) (l := ts)
      simp only [List.mem_append, List.mem_reverse, List.mem_cons] at hu ⊢
      tauto
  | case5 statement t ts inside no_block ih =>
    have inside' : ((t.move z z').isDirective || (t.move z z').isPunct ';') = false := by
      simpa using inside
    have no_block' : (t.move z z').isPunct '\x7b' = false := by simpa using no_block
    rw [List.map_cons, scan_cons_of_other _ inside' no_block']
    refine ih fun u hu => behind u ?_
    simp only [List.mem_append, List.mem_cons] at hu ⊢
    tauto

theorem sequence_scan (ts : List Token) : Sequence ts (scan [] ts) :=
  @sequence_of_pending [] (fun _ => rfl) ts

theorem Spans.exists_start {f : FunctionDef} {ts : List Token} (h : f.Spans ts) :
    ∃ k ∈ ts, f.start = k.start := by
  obtain ⟨first, -, head, -, start, -⟩ := h
  exact ⟨first, List.mem_of_mem_head? head, start⟩

theorem Sequence.exists_start {ts : List Token} {fs : List FunctionDef} (h : Sequence ts fs)
    {f : FunctionDef} (member : f ∈ fs) : ∃ k ∈ ts, f.start = k.start := by
  induction h with
  | rest => cases member
  | other _ _ _ ih =>
    obtain ⟨k, inside, start⟩ := ih member
    exact ⟨k, List.mem_append_right _ inside, start⟩
  | definition spans _ _ _ ih =>
    rcases List.mem_cons.1 member with rfl | member
    · obtain ⟨k, inside, start⟩ := spans.exists_start
      exact ⟨k, List.mem_append_left _ inside, start⟩
    · obtain ⟨k, inside, start⟩ := ih member
      exact ⟨k, List.mem_append_right _ inside, start⟩
  | unclosed spans =>
    obtain rfl := List.mem_singleton.1 member
    exact spans.exists_start

theorem deps_of_mem_scan {statement ts : List Token} {f : FunctionDef} (h : f ∈ scan statement ts) :
    f.deps = [] := by
  fun_induction scan statement ts with
  | case1 => cases h
  | case2 statement t ts ends ih => exact ih h
  | case3 statement t ts inside block n type name last first first_eq last_eq header ih =>
    rcases List.mem_cons.1 h with rfl | h
    · rfl
    · exact ih h
  | case4 statement t ts inside block n no_header ih => exact ih h
  | case5 statement t ts inside no_block ih => exact ih h

theorem Spans.start_lt_stop {f : FunctionDef} {front body later : List Token} (h : f.Spans body)
    (ordered : Ordered (front ++ (body ++ later))) :
    (∀ k ∈ front, k.start < f.start) ∧ (∀ k ∈ body, f.start ≤ k.start ∧ k.start < f.stop) ∧
      ∀ k ∈ later, f.stop ≤ k.start := by
  obtain ⟨first, last, head, close, start, stop⟩ := h
  obtain ⟨-, inside, across⟩ := List.pairwise_append.1 ordered.1
  obtain ⟨body_apart, -, behind⟩ := List.pairwise_append.1 inside
  have filled {k : Token} (hk : k ∈ body) : k.start < k.stop :=
    ordered.2 k (List.mem_append_right _ (List.mem_append_left _ hk))
  have first_mem := List.mem_of_mem_head? head
  have last_mem := List.mem_of_mem_getLast? close
  rw [start, stop]
  refine ⟨fun k hk => ?_, fun k hk => ⟨?_, ?_⟩, fun k hk => behind last last_mem k hk⟩
  · have := across k hk first (List.mem_append_left _ first_mem)
    have := ordered.2 k (List.mem_append_left _ hk)
    omega
  · obtain ⟨middle, rfl⟩ := List.head?_eq_some_iff.1 head
    rcases List.mem_cons.1 hk with rfl | hk'
    · exact Nat.le_refl _
    · have := (List.pairwise_cons.1 body_apart).1 k hk'
      have := filled first_mem
      omega
  · obtain ⟨inner, rfl⟩ := List.getLast?_eq_some_iff.1 close
    rcases List.mem_append.1 hk with hk' | hk'
    · have := (List.pairwise_append.1 body_apart).2.2 k hk' last (by simp)
      have := filled hk
      have := filled last_mem
      omega
    · rw [List.mem_singleton.1 hk']
      exact filled last_mem

end ShaderPass.FunctionDef
