import ShaderPass.Proofs.Declaration.Entries
import ShaderPass.Proofs.FunctionDef.Sequence

/-! Declarations and function definitions, found by two searches, are disjoint ranges: a statement that
starts outside all definitions ends in front of the next one. -/
namespace ShaderPass

open Token ShaderPass.Bracket

namespace Bracket

theorem exists_closeAfter_of_add {b : Bracket} {e d m : Nat} {ts : List Token} (lower : 1 ≤ e)
    (positive : 1 ≤ d) (found : closeAfter b (e + d) ts = some m) :
    ∃ n m', closeAfter b e ts = some n ∧ closeAfter b d (ts.drop (n + 1)) = some m' ∧
      m = n + 1 + m' := by
  induction ts generalizing e m with
  | nil => cases found
  | cons t ts ih =>
    rw [closeAfter] at found ⊢
    by_cases opens : t.isPunct b.opening = true
    · rw [if_pos opens] at found ⊢
      obtain ⟨k, hk, rfl⟩ := Option.map_eq_some_iff.1 found
      rw [Nat.add_right_comm] at hk
      obtain ⟨n, m', inner, outer, rfl⟩ := ih (by omega) hk
      exact ⟨n + 1, m', by rw [inner]; rfl, outer, by omega⟩
    · rw [if_neg opens] at found ⊢
      by_cases closes : t.isPunct b.closing = true
      · rw [if_pos closes, if_neg (by omega)] at found
        rw [if_pos closes]
        obtain ⟨k, hk, rfl⟩ := Option.map_eq_some_iff.1 found
        by_cases last : e = 1
        · subst last
          rw [if_pos rfl]
          rw [Nat.add_sub_cancel_left] at hk
          exact ⟨0, k, rfl, hk, by omega⟩
        · have less : e + d - 1 = e - 1 + d := by omega
          rw [less] at hk
          rw [if_neg last]
          obtain ⟨n, m', inner, outer, rfl⟩ := ih (by omega) hk
          exact ⟨n + 1, m', by rw [inner]; rfl, outer, by omega⟩
      · rw [if_neg closes] at found ⊢
        obtain ⟨k, hk, rfl⟩ := Option.map_eq_some_iff.1 found
        obtain ⟨n, m', inner, outer, rfl⟩ := ih lower hk
        exact ⟨n + 1, m', by rw [inner]; rfl, outer, by omega⟩

theorem closeAfter_cons_cases {b : Bracket} {d m : Nat} {t : Token} {ts : List Token}
    (positive : 1 ≤ d) (found : closeAfter b d (t :: ts) = some m) :
    (t.isPunct b.opening = true ∧ ∃ n m', closeAfter b 1 ts = some n ∧
        closeAfter b d (ts.drop (n + 1)) = some m' ∧ m = n + 1 + m' + 1) ∨
      (t.isPunct b.opening = false ∧ (m = 0 ∨
        ∃ d' m', 1 ≤ d' ∧ closeAfter b d' ts = some m' ∧ m = m' + 1)) := by
  rw [closeAfter] at found
  cases opens : t.isPunct b.opening with
  | true =>
    rw [if_pos opens] at found
    obtain ⟨k, deeper, rfl⟩ := Option.map_eq_some_iff.1 found
    rw [Nat.add_comm] at deeper
    obtain ⟨n, m', inner, outer, rfl⟩ := exists_closeAfter_of_add (Nat.le_refl 1) positive deeper
    exact Or.inl ⟨rfl, n, m', inner, outer, rfl⟩
  | false =>
    rw [if_neg (by simp [opens])] at found
    refine Or.inr ⟨rfl, ?_⟩
    split at found
    · split at found
      · exact Or.inl (Option.some.inj found).symm
      · obtain ⟨m', outer, rfl⟩ := Option.map_eq_some_iff.1 found
        exact Or.inr ⟨d - 1, m', by omega, outer, rfl⟩
    · obtain ⟨m', outer, rfl⟩ := Option.map_eq_some_iff.1 found
      exact Or.inr ⟨d, m', positive, outer, rfl⟩

end Bracket

namespace Declaration

open Statement FunctionDef Compile

theorem statementLength_le_of_closeAfter {t : Text} {ts : List Token}
    (standing : ∀ k ∈ ts, k ∈ significant t) {d m : Nat} (positive : 1 ≤ d)
    (found : closeAfter brace d ts = some m) :
    statementLength ts ≤ m + 1 + statementLength (ts.drop (m + 1)) := by
  induction len : ts.length using Nat.strongRecOn generalizing ts d m with
  | ind size ih =>
    cases ts with
    | nil => cases found
    | cons k ts =>
      rw [List.length_cons] at len
      have standing' : ∀ u ∈ ts, u ∈ significant t :=
        fun u hu => standing u (List.mem_cons_of_mem _ hu)
      cases ends : k.isDirective || k.isPunct ';' with
      | true =>
        rw [statementLength_cons_of_ends ends]
        exact Nat.zero_le _
      | false =>
        rw [List.drop_succ_cons]
        rcases closeAfter_cons_cases positive found with
          ⟨block, n, m', inner, outer, rfl⟩ | ⟨no_block, rfl | ⟨d', m', positive', outer, rfl⟩⟩
        · have single : k.lexeme = [brace.opening] :=
            lexeme_of_isPunct (standing k List.mem_cons_self) block
          have offset : closeOffset? (k :: ts) = some (n + 1) := by
            rw [closeOffset?_cons (by decide) block, if_pos single, inner]
            rfl
          have rest := ih (ts.drop (n + 1)).length (by rw [List.length_drop]; omega)
            (fun u hu => standing' u (List.mem_of_mem_drop hu)) positive outer rfl
          rw [List.drop_drop, show n + 1 + (m' + 1) = n + 1 + m' + 1 by omega] at rest
          rw [statementLength_cons_of_block ends block offset]
          omega
        · rw [statementLength_cons_of_other ends no_block, List.drop_zero]
          omega
        · have rest := ih ts.length (by omega) standing' positive' outer rfl
          rw [statementLength_cons_of_other ends no_block]
          omega

/-- If no definition takes in a place behind the start of the pending statement, the search goes on
anew where that statement ends. -/
theorem scan_of_untouched {statement ts : List Token} {first : Token} {p : Nat}
    (last : statement.getLast? = some first) (start : first.start ≤ p) (ordered : Ordered ts)
    (behind : ∀ k ∈ ts, p < k.start) (apart : ∀ f ∈ FunctionDef.scan statement ts, f.contains p = false) :
    FunctionDef.scan statement ts = FunctionDef.scan [] (ts.drop (statementLength ts + 1)) := by
  fun_induction FunctionDef.scan statement ts with
  | case1 => rw [List.drop_nil, FunctionDef.scan]
  | case2 statement t ts ends ih =>
    rw [statementLength_cons_of_ends ends, List.drop_succ_cons, List.drop_zero]
  | case3 statement t ts inside block n type name close first' first_eq _ header ih =>
    -- The definition starts with the pending statement and ends behind the place.
    rw [last, Option.some.injEq] at first_eq
    subst first_eq
    have taken := apart _ List.mem_cons_self
    have member : (ts.take n).getLastD t ∈ t :: ts :=
      ((List.take_sublist n ts).cons_cons t).mem List.getLastD_mem_cons
    have := behind _ member
    have := ordered.2 _ member
    simp only [contains, Bool.and_eq_false_iff, decide_eq_false_iff_not] at taken
    omega
  | case4 statement t ts inside block n no_header ih =>
    rw [Bool.not_eq_true] at inside
    have last' : ((ts.take n).reverse ++ t :: statement).getLast? = some first := by
      rw [List.getLast?_append, List.getLast?_cons, last]
      rfl
    rw [ih last' (ordered.sublist ((List.drop_sublist n ts).trans (List.sublist_cons_self t ts)))
      (fun k hk => behind k (List.mem_cons_of_mem _ (List.mem_of_mem_drop hk))) apart]
    cases closed : closeOffset? (t :: ts) with
    | some m =>
      obtain rfl : n = m := by simp [n, closed]
      rw [statementLength_cons_of_block inside block closed, List.drop_drop, List.drop_succ_cons]
      congr 2
      omega
    | none =>
      have size : n = ts.length := by simp [n, closed]
      rw [statementLength_cons_of_open inside block closed, size, List.drop_length, List.drop_nil,
        List.drop_eq_nil_of_le (by simp)]
  | case5 statement t ts inside no_block ih =>
    rw [Bool.not_eq_true] at inside no_block
    have last' : (t :: statement).getLast? = some first := by rw [List.getLast?_cons, last]; rfl
    rw [ih last' (ordered.sublist (List.sublist_cons_self t ts))
      (fun k hk => behind k (List.mem_cons_of_mem _ hk)) apart,
      statementLength_cons_of_other inside no_block, List.drop_succ_cons]

section Around

variable {t : Text} {ts : List Token} {v : Token}

theorem start_le_of_append {us : List Token} (ordered : Ordered (us ++ v :: ts)) :
    ∀ k ∈ us, k.start ≤ v.start := by
  intro k hk
  have apart := (List.pairwise_append.1 ordered.1).2.2 k hk v List.mem_cons_self
  have filled := ordered.2 k (List.mem_append_left _ hk)
  omega

theorem start_lt_of_append {us pre : List Token} (ordered : Ordered (us ++ (pre ++ v :: ts))) {k : Token}
    (hk : k ∈ ts) : v.start < k.start := by
  have own : Ordered (v :: ts) :=
    ordered.sublist ((List.sublist_append_right pre _).trans (List.sublist_append_right us _))
  exact Nat.lt_of_lt_of_le (own.2 v List.mem_cons_self) ((List.pairwise_cons.1 own.1).1 k hk)

theorem exists_start_of_untouched {statement rest : List Token} {first : Token}
    (last : statement.getLast? = some first) (start : first.start ≤ v.start) (ordered : Ordered rest)
    (behind : ∀ k ∈ rest, v.start < k.start)
    (outside : ∀ f ∈ FunctionDef.scan statement rest, f.contains v.start = false)
    {f : FunctionDef} (hf : f ∈ FunctionDef.scan statement rest) :
    ∃ k ∈ rest.drop (statementLength rest + 1), f.start = k.start := by
  rw [scan_of_untouched last start ordered behind outside] at hf
  exact (sequence_scan _).exists_start hf

theorem exists_closeAfter_behind {pre : List Token} {h : Token} (block : h.isPunct '{' = true)
    (word : ∀ c, v.isPunct c = false) {n : Nat}
    (closed : closeOffset? (h :: (pre ++ v :: ts)) = some n) (long : pre.length < n) :
    ∃ d m, 1 ≤ d ∧ closeAfter brace d ts = some m ∧ n = pre.length + 1 + (m + 1) := by
  obtain ⟨-, m, search, rfl⟩ := (closeOffset?_eq_some_iff (b := brace) (by decide) block).1 closed
  obtain ⟨k, at_m, closes⟩ := exists_of_closeAfter search
  have other : m ≠ pre.length := by
    rintro rfl
    rw [List.getElem?_append_right (Nat.le_refl _), Nat.sub_self, List.getElem?_cons_zero,
      Option.some.injEq] at at_m
    rw [← at_m, word] at closes
    cases closes
  rw [List.append_cons] at search
  rcases closeAfter_append_cases brace (Nat.le_refl 1) (pre ++ [v]) with
    ⟨n, lt, always⟩ | ⟨d, positive, always⟩
  · rw [always, Option.some.injEq] at search
    rw [List.length_append, List.length_singleton] at lt
    omega
  · rw [always, List.length_append, List.length_singleton] at search
    obtain ⟨m', inner, rfl⟩ := Option.map_eq_some_iff.1 search
    exact ⟨d, m', positive, inner, by omega⟩

theorem length_of_stop_le {pre : List Token} {h : Token} (ordered : Ordered (h :: (pre ++ v :: ts)))
    {n : Nat} (ahead : (((pre ++ v :: ts).take n).getLastD h).stop ≤ v.start) : n ≤ pre.length := by
  refine Nat.le_of_not_lt fun long => ?_
  have member : v ∈ h :: (pre ++ v :: ts).take n := by
    obtain ⟨m, size⟩ : ∃ m, n - pre.length = m + 1 := ⟨n - pre.length - 1, by omega⟩
    rw [List.take_append, size, List.take_succ_cons]
    simp
  have last := Ordered.stop_le_getLastD (ordered.sublist ((List.take_sublist n _).cons_cons h)) member
  have filled := ordered.2 v (by simp)
  omega

theorem exists_start_in_block {statement pre : List Token} {h : Token}
    (standing : ∀ k ∈ ts, k ∈ significant t)
    (ordered : Ordered ((statement.reverse ++ h :: pre) ++ v :: ts))
    (behind : ∀ k ∈ ts, v.start < k.start) (block : h.isPunct '\x7b' = true)
    (word : ∀ c, v.isPunct c = false) {n : Nat}
    (closed : closeOffset? (h :: (pre ++ v :: ts)) = some n) (long : pre.length < n)
    (outside : ∀ f ∈ FunctionDef.scan (((pre ++ v :: ts).take n).reverse ++ h :: statement)
      ((pre ++ v :: ts).drop n), f.contains v.start = false) :
    ∀ f ∈ FunctionDef.scan (((pre ++ v :: ts).take n).reverse ++ h :: statement)
        ((pre ++ v :: ts).drop n),
      ∃ k ∈ ts.drop (statementLength ts + 1), f.start = k.start := by
  obtain ⟨d, m, positive, search, size⟩ := exists_closeAfter_behind block word closed long
  have rest : (pre ++ v :: ts).drop n = ts.drop (m + 1) := by
    rw [size, List.append_cons, ← List.drop_drop, List.drop_left' (by simp)]
  rw [rest] at outside ⊢
  have further := statementLength_le_of_closeAfter standing positive search
  obtain ⟨first, last⟩ : ∃ first, (h :: statement).getLast? = some first :=
    ⟨_, List.getLast?_eq_some_getLast (List.cons_ne_nil _ _)⟩
  have last' : (((pre ++ v :: ts).take n).reverse ++ h :: statement).getLast? = some first := by
    rw [List.getLast?_append, last]
    rfl
  have start : first.start ≤ v.start := by
    refine start_le_of_append ordered first ?_
    have member := List.mem_of_getLast? last
    simp only [List.mem_cons] at member
    simp only [List.mem_append, List.mem_reverse, List.mem_cons]
    tauto
  intro f hf
  obtain ⟨k, hk, same⟩ := exists_start_of_untouched last' start
    (ordered.sublist ((List.drop_sublist _ ts).trans
      ((List.sublist_cons_self v ts).trans (List.sublist_append_right _ _))))
    (fun k hk => behind k (List.mem_of_mem_drop hk)) outside hf
  rw [List.drop_drop] at hk
  exact ⟨k, (List.drop_sublist_drop_left ts (by omega)).mem hk, same⟩

theorem exists_of_append_cons {pre rest : List Token} {h : Token} (other : h ≠ v)
    (whole : pre ++ v :: ts = h :: rest) : ∃ pre', pre = h :: pre' ∧ rest = pre' ++ v :: ts := by
  rcases List.append_eq_cons_iff.1 whole with ⟨-, same⟩ | found
  · exact absurd (List.cons.inj same).1.symm other
  · exact found

def EndsOrStartsBehind (v : Token) (ts : List Token) (f : FunctionDef) : Prop :=
  f.stop ≤ v.start ∨ ∃ k ∈ ts.drop (statementLength ts + 1), f.start = k.start

section Cases

variable {statement pre : List Token} {h first : Token} {n : Nat}

theorem stop_le_of_outside (ordered : Ordered (statement.reverse ++ h :: (pre ++ v :: ts)))
    (first_eq : statement.getLast? = some first) {f : FunctionDef} (start : f.start = first.start)
    (stop : f.stop = (((pre ++ v :: ts).take n).getLastD h).stop)
    (outside : f.contains v.start = false) : n ≤ pre.length ∧ f.stop ≤ v.start := by
  have first_mem : first ∈ statement.reverse := by simpa using List.mem_of_getLast? first_eq
  have first_le := (List.pairwise_append.1 ordered.1).2.2 first first_mem v (by simp)
  have first_filled := ordered.2 first (List.mem_append_left _ first_mem)
  simp only [contains, Bool.and_eq_false_iff, decide_eq_false_iff_not] at outside
  have stop_le : f.stop ≤ v.start := by omega
  have tail : Ordered (h :: (pre ++ v :: ts)) := ordered.sublist (List.sublist_append_right _ _)
  exact ⟨length_of_stop_le tail (stop ▸ stop_le), stop_le⟩

theorem startsBehind_of_block (standing : ∀ k ∈ ts, k ∈ significant t)
    (ordered : Ordered (statement.reverse ++ h :: (pre ++ v :: ts)))
    (behind : ∀ k ∈ ts, v.start < k.start) (block : h.isPunct '\x7b' = true)
    (word : ∀ c, v.isPunct c = false)
    (size : n = (closeOffset? (h :: (pre ++ v :: ts))).getD (pre ++ v :: ts).length)
    (long : ¬ n ≤ pre.length)
    (outside : ∀ f ∈ FunctionDef.scan (((pre ++ v :: ts).take n).reverse ++ h :: statement)
      ((pre ++ v :: ts).drop n), f.contains v.start = false) :
    ∀ f ∈ FunctionDef.scan (((pre ++ v :: ts).take n).reverse ++ h :: statement)
      ((pre ++ v :: ts).drop n), EndsOrStartsBehind v ts f := by
  cases closed : closeOffset? (h :: (pre ++ v :: ts)) with
  | none =>
    rw [closed, Option.getD_none] at size
    rw [size, List.drop_length, FunctionDef.scan]
    exact fun f hf => absurd hf List.not_mem_nil
  | some k =>
    obtain rfl : n = k := by rw [size, closed, Option.getD_some]
    exact fun f hf => Or.inr (exists_start_in_block standing (by simpa using ordered) behind block
      word closed (Nat.lt_of_not_le long) outside f hf)

theorem startsBehind_of_start (ordered : Ordered (statement.reverse ++ v :: ts))
    (behind : ∀ k ∈ ts, v.start < k.start)
    (outside : ∀ f ∈ FunctionDef.scan (v :: statement) ts, f.contains v.start = false) :
    ∀ f ∈ FunctionDef.scan (v :: statement) ts, EndsOrStartsBehind v ts f := by
  obtain ⟨first, last⟩ : ∃ first, (v :: statement).getLast? = some first :=
    ⟨_, List.getLast?_eq_some_getLast (List.cons_ne_nil _ _)⟩
  have start : first.start ≤ v.start := by
    rcases List.mem_cons.1 (List.mem_of_getLast? last) with rfl | member
    · exact Nat.le_refl _
    · exact start_le_of_append ordered first (List.mem_reverse.2 member)
  have tail := ordered.sublist ((List.sublist_cons_self v ts).trans (List.sublist_append_right _ _))
  exact fun f hf => Or.inr (exists_start_of_untouched last start tail behind outside hf)

end Cases

theorem scan_around (statement pre : List Token) (standing : ∀ k ∈ ts, k ∈ significant t)
    (ordered : Ordered (statement.reverse ++ (pre ++ v :: ts))) (identifier : v.isIdentifier = true)
    (outside : ∀ f ∈ FunctionDef.scan statement (pre ++ v :: ts), f.contains v.start = false) :
    ∀ f ∈ FunctionDef.scan statement (pre ++ v :: ts), EndsOrStartsBehind v ts f := by
  have word (c : Char) : v.isPunct c = false := by simp [isPunct, of_decide_eq_true identifier]
  have no_block {h : Token} (block : h.isPunct '\x7b' = true) : h ≠ v := by
    rintro rfl
    rw [word] at block
    cases block
  have behind : ∀ k ∈ ts, v.start < k.start := fun k hk => start_lt_of_append ordered hk
  generalize whole : pre ++ v :: ts = all at ordered outside ⊢
  -- Along the search `pre` gets shorter, and `statement` collects what was passed.
  fun_induction FunctionDef.scan statement all generalizing pre with
  | case1 => simp at whole
  | case2 statement h rest ends ih =>
    have other : h ≠ v := by
      rintro rfl
      simp [isDirective_of_isIdentifier identifier, word] at ends
    obtain ⟨pre, rfl, rfl⟩ := exists_of_append_cons other whole
    exact ih _ rfl (ordered.sublist ((List.sublist_cons_self _ _).trans (List.sublist_append_right _ _)))
      outside
  | case3 =>
    rename_i statement h rest inside block n type name last first first_eq last_eq header ih
    obtain ⟨pre, rfl, rfl⟩ := exists_of_append_cons (no_block block) whole
    obtain ⟨short, stop_le⟩ := stop_le_of_outside ordered first_eq rfl rfl (outside _ List.mem_cons_self)
    have rest : (pre ++ v :: ts).drop n = pre.drop n ++ v :: ts := List.drop_append_of_le_length short
    intro f hf
    rcases List.mem_cons.1 hf with rfl | hf
    · exact Or.inl stop_le
    · refine ih _ rest.symm ?_ (fun g hg => outside g (List.mem_cons_of_mem _ hg)) f hf
      exact ordered.sublist ((List.drop_sublist n _).trans
        ((List.sublist_cons_self _ _).trans (List.sublist_append_right _ _)))
  | case4 =>
    rename_i statement h rest inside block n no_header ih
    obtain ⟨pre, rfl, rfl⟩ := exists_of_append_cons (no_block block) whole
    have regroup : ((List.take n (pre ++ v :: ts)).reverse ++ h :: statement).reverse ++
        (pre ++ v :: ts).drop n = statement.reverse ++ h :: (pre ++ v :: ts) := by simp
    by_cases short : n ≤ pre.length
    · have rest : (pre ++ v :: ts).drop n = pre.drop n ++ v :: ts :=
        List.drop_append_of_le_length short
      exact ih _ rest.symm (regroup ▸ ordered) outside
    · exact startsBehind_of_block standing ordered behind block word rfl short outside
  | case5 =>
    rename_i statement h rest inside no_block ih
    cases pre with
    | nil =>
      obtain ⟨rfl, rfl⟩ := List.cons.inj whole
      exact startsBehind_of_start ordered behind outside
    | cons h' pre =>
      rw [List.cons_append] at whole
      obtain ⟨rfl, rfl⟩ := List.cons.inj whole
      refine ih _ rfl ?_ outside
      rwa [List.reverse_cons, List.append_assoc, List.singleton_append]

/-- A definition ends in front of an identifier outside all definitions, or starts behind its statement. -/
theorem find_around {front : List Token} (cut : significant t = front ++ v :: ts)
    (identifier : v.isIdentifier = true) (outside : ∀ f ∈ find t, f.contains v.start = false) :
    ∀ f ∈ find t, EndsOrStartsBehind v ts f := by
  intro f hf
  obtain ⟨g, hg, rfl⟩ := List.mem_map.1 hf
  have ordered := ordered_significant t
  rw [cut] at ordered
  refine scan_around (t := t) [] front (fun k hk => by rw [cut]; simp [hk]) ordered identifier
    (fun h hh => ?_) g (cut ▸ hg)
  refine outside { h with deps := depsIn t _ h } (List.mem_map_of_mem ?_)
  rwa [cut]

end Around

section Run

variable {source : Text} {stage : Stage} {functions : List FunctionDef} {P : Statement → Prop}

def StartsOutside (functions : List FunctionDef) (s : Statement) : Prop :=
  ∀ t, s.tokens.head? = some t → ∀ f ∈ functions, f.contains t.start = false

theorem Run.startsOutside {stack : Condition.Stack} {tags : List (String × String)} {ts : List Token}
    {ds : List Declaration} (run : Run source stage functions P stack tags ts ds) :
    Run source stage functions (StartsOutside functions) stack tags ts ds := by
  induction run with
  | done => exact .done _ _
  | pass step _ ih => exact .pass step ih
  | declaration outside identifier found _ _ ih =>
    refine .declaration outside identifier found (fun t head f hf => ?_) ih
    obtain rfl := Option.some.inj head
    simpa using List.find?_eq_none.1 outside f hf

theorem Run.disjoint {t : Text} {ds : List Declaration}
    (run : Run t stage (find t) P [] [] (significant t) ds) {d : Declaration} (member : d ∈ ds) :
    ∀ f ∈ find t, d.stop ≤ f.start ∨ f.stop ≤ d.start := by
  obtain ⟨front, first, us, d₀, stack, tags, cut, -, identifier, outside, parsed, rfl⟩ :=
    run.startsOutside.exists_statement (ordered_significant t) (endsIn_find t)
      (List.nil_append _).symm (fun _ _ _ _ _ last => by cases last) member
  obtain ⟨start, stop⟩ := start_of_parse? (t := first) rfl parsed
  intro f hf
  rcases find_around cut identifier (outside first rfl) f hf with before | ⟨k, behind, starts⟩
  · exact Or.inr (start ▸ before)
  · refine Or.inl ?_
    show d₀.stop ≤ f.start
    rw [stop, starts]
    have lt : statementLength us < us.length := by
      have := List.length_pos_of_mem behind
      rw [List.length_drop] at this
      omega
    have ordered := ordered_significant t
    rw [cut] at ordered
    have tail : Ordered us := ordered.sublist
      ((List.sublist_cons_self first us).trans (List.sublist_append_right _ _))
    have later := tail.1.sublist (List.drop_sublist (statementLength us) us)
    rw [List.drop_eq_getElem_cons lt, List.pairwise_cons] at later
    show (((first :: us)[statementLength us + 1]?).map Token.stop).getD _ ≤ _
    rw [List.getElem?_cons_succ, List.getElem?_eq_getElem lt]
    exact later.1 k behind

end Run

end Declaration
end ShaderPass
