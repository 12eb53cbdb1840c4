import ShaderPass.Proofs.Declaration.Relaying
import ShaderPass.Proofs.Text.Runs

/-! Extraction around an exchange of tokens: in front of it and behind it the same declarations are
found. -/
namespace ShaderPass.Declaration

open Token ShaderPass.Bracket Compile Statement FunctionDef

section Statements

theorem ends_of_statementLength {ts : List Token} {t : Token}
    (at_end : ts[statementLength ts]? = some t) : (t.isDirective || t.isPunct ';') = true := by
  fun_induction statementLength ts with
  | case1 => cases at_end
  | case2 t' ts ends =>
    obtain rfl := Option.some.inj at_end
    exact ends
  | case3 t' ts _ _ n _ ih =>
    have index : n + 1 + statementLength (ts.drop n) = n + statementLength (ts.drop n) + 1 := by omega
    rw [index, List.getElem?_cons_succ, ← List.getElem?_drop] at at_end
    exact ih at_end
  | case4 t' ts _ _ _ => simp at at_end
  | case5 t' ts _ _ ih => exact ih (by simpa using at_end)

theorem afterStatement_suffix_drop (n : Nat) (ts : List Token) :
    afterStatement n ts <:+ ts.drop n := by
  unfold afterStatement
  cases ts.drop n with
  | nil => exact List.suffix_refl _
  | cons t rest =>
    dsimp only
    split
    · exact List.suffix_cons _ _
    · exact List.suffix_refl _

theorem afterStatement_suffix (n : Nat) (ts : List Token) : afterStatement n ts <:+ ts :=
  (afterStatement_suffix_drop n ts).trans (List.drop_suffix n ts)

theorem afterStatement_append {n : Nat} {ts : List Token} (inside : n < ts.length)
    (us : List Token) : afterStatement n (ts ++ us) = afterStatement n ts ++ us := by
  unfold afterStatement
  rw [List.drop_append_of_le_length (Nat.le_of_lt inside), List.drop_eq_getElem_cons inside]
  dsimp only [List.cons_append]
  split <;> rfl

theorem afterStatement_map_move (z z' n : Nat) (ts : List Token) :
    afterStatement n (ts.map (move z z')) = (afterStatement n ts).map (move z z') := by
  unfold afterStatement
  rw [← List.map_drop]
  cases ts.drop n with
  | nil => rfl
  | cons t rest =>
    rw [List.map_cons]
    dsimp only
    by_cases ends : t.isPunct ';' = true
    · rw [if_pos ends, if_pos (show (t.move z z').isPunct ';' = true from ends)]
    · rw [if_neg ends, if_neg (show ¬ (t.move z z').isPunct ';' = true from ends), List.map_cons]

end Statements

section Functions

variable {a z z' : Nat}

theorem contains_front {f g : FunctionDef} (h : FunctionDef.Moved a z z' f g) (grows : a < z')
    {p : Nat} (front : p ≤ a) : f.contains p = g.contains p := by
  obtain ⟨start_out, stop_out, start, stop⟩ := h
  rw [relocate] at start stop
  rw [Bool.eq_iff_iff]
  simp only [contains, Bool.and_eq_true, decide_eq_true_eq]
  split at start <;> split at stop <;> omega

theorem contains_behind {f g : FunctionDef} (h : FunctionDef.Moved a z z' f g) (grows : a < z')
    {p : Nat} (behind : z ≤ p ∧ a < p) : f.contains p = g.contains (p - z + z') := by
  obtain ⟨start_out, stop_out, start, stop⟩ := h
  rw [relocate] at start stop
  rw [Bool.eq_iff_iff]
  simp only [contains, Bool.and_eq_true, decide_eq_true_eq]
  split at start <;> split at stop <;> omega

theorem find?_rel {fs gs : List FunctionDef}
    (moved : List.Forall₂ (FunctionDef.Moved a z z') fs gs) {p q : FunctionDef → Bool}
    (same : ∀ f g, FunctionDef.Moved a z z' f g → p f = q g) :
    Option.Rel (FunctionDef.Moved a z z') (fs.find? p) (gs.find? q) := by
  induction moved with
  | nil => exact .none
  | @cons f g fs gs first _ ih =>
    rw [List.find?_cons, List.find?_cons, same f g first]
    cases q g with
    | true => exact .some first
    | false => exact ih

theorem eq_none_of_rel {α β : Type} {R : α → β → Prop} {x : Option α} {y : Option β}
    (h : Option.Rel R x y) (nothing : x = none) : y = none := by
  cases h with
  | none => rfl
  | some _ => cases nothing

theorem exists_of_rel {α β : Type} {R : α → β → Prop} {x : Option α} {y : Option β} {u : α}
    (h : Option.Rel R x y) (something : x = some u) : ∃ v, y = some v ∧ R u v := by
  cases h with
  | none => cases something
  | some related =>
    obtain rfl := Option.some.inj something
    exact ⟨_, rfl, related⟩

theorem dropWhile_congr {α : Type} {p q : α → Bool} {l : List α} (same : ∀ x ∈ l, p x = q x) :
    l.dropWhile p = l.dropWhile q := by
  induction l with
  | nil => rfl
  | cons x l ih =>
    rw [List.dropWhile_cons, List.dropWhile_cons, same x List.mem_cons_self,
      ih fun y hy => same y (List.mem_cons_of_mem _ hy)]

end Functions

section Run

variable {source : Text} {stage : Stage} {functions : List FunctionDef} {P : Statement → Prop}

theorem Passes.suffix {stack stack' : Condition.Stack} {tags tags' : List (String × String)}
    {t : Token} {ts ts' : List Token}
    (h : Passes source stage functions stack tags t ts stack' tags' ts') : ts' <:+ ts := by
  cases h with
  | function _ => exact List.dropWhile_suffix _
  | directive _ _ => exact List.suffix_refl _
  | other _ _ _ => exact List.suffix_refl _
  | statement _ _ _ => exact afterStatement_suffix _ _

/-- What a statement that makes a declaration is made of: qualifiers with a storage, and what they
qualify. -/
theorem exists_body_of_parse? {s : Statement} {t : Token} (head : s.tokens.head? = some t)
    {d : Declaration} (parsed : outcome (parse? source stage s) = some (some d)) :
    ∃ q rest storage range found, Qualifiers.read source {} s = some (q, rest) ∧
      q.storage = some (storage, range) ∧
      outcome (body? source stage q storage (Text.lineOf source t.start) rest) = some (some found) ∧
      d = assemble source s t q range found := by
  rw [outcome_parse? source stage head] at parsed
  cases read : Qualifiers.read source {} s with
  | none => rw [read] at parsed; cases parsed
  | some found =>
    obtain ⟨q, rest⟩ := found
    rw [read] at parsed
    dsimp only at parsed
    cases kind : q.storage with
    | none => rw [kind] at parsed; cases parsed
    | some storage =>
      rw [kind] at parsed
      obtain ⟨body, body_eq, made⟩ := Option.map_eq_some_iff.1 parsed
      obtain ⟨found, rfl, rfl⟩ := Option.map_eq_some_iff.1 made
      exact ⟨q, rest, storage.1, storage.2, found, rfl, kind, body_eq, rfl⟩

theorem ident?_ne_none_of_body? {q : Qualifiers} {storage : Storage} {line : Nat} {rest : Statement}
    {found : Category × Descriptor}
    (body : outcome (body? source stage q storage line rest) = some (some found)) :
    rest.ident? ≠ none := by
  intro no_type
  rw [outcome_body?_of_no_type _ _ _ _ _ no_type] at body
  cases body

theorem exists_of_parse? {s : Statement} {t : Token} (head : s.tokens.head? = some t)
    {d : Declaration} (parsed : outcome (parse? source stage s) = some (some d)) :
    ∃ q rest range found, Qualifiers.read source {} s = some (q, rest) ∧ rest.ident? ≠ none ∧
      d = assemble source s t q range found := by
  obtain ⟨q, rest, storage, range, found, read, -, body, made⟩ := exists_body_of_parse? head parsed
  exact ⟨q, rest, range, found, read, ident?_ne_none_of_body? body, made⟩

theorem start_of_parse? {s : Statement} {t : Token} (head : s.tokens.head? = some t)
    {d : Declaration} (parsed : outcome (parse? source stage s) = some (some d)) :
    d.start = t.start ∧
      d.stop = (s.tokens[s.size]?.map Token.stop).getD (Text.byteLen source) := by
  obtain ⟨q, rest, range, found, -, -, rfl⟩ := exists_of_parse? head parsed
  exact ⟨rfl, rfl⟩

theorem stop_of_parse? {s : Statement} {t : Token} (head : s.tokens.head? = some t)
    {d : Declaration} (parsed : outcome (parse? source stage s) = some (some d)) {e : Token}
    (last : s.tokens[s.size]? = some e) : d.stop = e.stop := by
  rw [(start_of_parse? head parsed).2, last]
  rfl

theorem Run.exists_start {stack : Condition.Stack} {tags : List (String × String)}
    {ts : List Token} {ds : List Declaration} (h : Run source stage functions P stack tags ts ds)
    {d : Declaration} (member : d ∈ ds) :
    ∃ t ∈ ts, d.start = t.start ∧ t.isIdentifier = true := by
  induction h with
  | done => cases member
  | pass step later ih =>
    obtain ⟨t, ht, start⟩ := ih member
    exact ⟨t, List.mem_cons_of_mem _ (step.suffix.mem ht), start⟩
  | @declaration stack tags t ts d' ds _ identifier found _ later ih =>
    rcases List.mem_cons.1 member with rfl | member
    · exact ⟨t, List.mem_cons_self, (start_of_parse? rfl found).1, identifier⟩
    · obtain ⟨t', ht', start⟩ := ih member
      have suffix := afterStatement_suffix (statementLength ts) ts
      exact ⟨t', List.mem_cons_of_mem _ (suffix.mem ht'), start⟩

theorem Run.ascending {stack : Condition.Stack} {tags : List (String × String)} {ts : List Token}
    {ds : List Declaration} (h : Run source stage functions P stack tags ts ds)
    (ordered : Ordered ts) (standing : ∀ t ∈ ts, t.StandsIn source) :
    ds.Pairwise (fun d e => d.stop ≤ e.start) ∧ ∀ d ∈ ds, d.start < d.stop := by
  induction h with
  | done => exact ⟨.nil, by simp⟩
  | pass step later ih =>
    exact ih (ordered.sublist (step.suffix.sublist.trans (List.sublist_cons_self _ _)))
      fun t ht => standing t (List.mem_cons_of_mem _ (step.suffix.mem ht))
  | @declaration stack tags t ts d ds _ identifier found _ later ih =>
    have suffix := afterStatement_suffix (statementLength ts) ts
    obtain ⟨apart, filled⟩ := ih
      (ordered.sublist (suffix.sublist.trans (List.sublist_cons_self _ _)))
      fun u hu => standing u (List.mem_cons_of_mem _ (suffix.mem hu))
    obtain ⟨start, stop⟩ := start_of_parse? (t := t) rfl found
    have first := ordered.2 t List.mem_cons_self
    have pairs := List.pairwise_cons.1 ordered.1
    rw [statementAt] at stop
    dsimp only at stop
    rw [List.getElem?_cons_succ] at stop
    cases at_end : ts[statementLength ts]? with
    | none =>
      -- The statement is the last one.
      have nothing : afterStatement (statementLength ts) ts = [] := by
        rw [afterStatement, List.drop_eq_nil_of_le (List.getElem?_eq_none_iff.1 at_end)]
      have none_later : ds = [] := by
        rw [nothing] at later
        cases later
        rfl
      rw [at_end, Option.map_none, Option.getD_none] at stop
      have bound := (standing t List.mem_cons_self).isBoundary_stop.le_byteLen
      subst none_later
      refine ⟨List.pairwise_singleton _ _, fun e he => ?_⟩
      rw [List.mem_singleton.1 he]
      show d.start < d.stop
      omega
    | some u =>
      rw [at_end, Option.map_some, Option.getD_some] at stop
      obtain ⟨lt, rfl⟩ := List.getElem?_eq_some_iff.1 at_end
      have u_filled := ordered.2 _ (List.mem_cons_of_mem t (List.getElem_mem lt))
      have t_first := pairs.1 _ (List.getElem_mem lt)
      have behind : ∀ v ∈ ts.drop (statementLength ts + 1), ts[statementLength ts].stop ≤ v.start := by
        have tail := pairs.2.sublist (List.drop_sublist (statementLength ts) ts)
        rw [List.drop_eq_getElem_cons lt, List.pairwise_cons] at tail
        exact tail.1
      refine ⟨List.pairwise_cons.2 ⟨fun e he => ?_, apart⟩, fun e he => ?_⟩
      · obtain ⟨v, hv, start_e, identifier_v⟩ := later.exists_start he
        show d.stop ≤ e.start
        rw [stop, start_e]
        have member := (afterStatement_suffix_drop _ _).mem hv
        rw [List.drop_eq_getElem_cons lt] at member
        rcases List.mem_cons.1 member with rfl | member
        · -- An identifier does not end a statement.
          have ends := ends_of_statementLength at_end
          have kind := of_decide_eq_true identifier_v
          simp [isDirective, isPunct, kind] at ends
        · exact behind v member
      · rcases List.mem_cons.1 he with rfl | he
        · show d.start < d.stop
          omega
        · exact filled e he

end Run

section Behind

variable {a z z' : Nat} {source source' : Text} {stage : Stage} {fs gs : List FunctionDef}
  (agree : Agree a z z' source source') (grows : a < z')
  (moved : List.Forall₂ (FunctionDef.Moved a z z') fs gs)

include agree

theorem parse?_behind {t : Token} {ts : List Token} (ordered : Ordered (t :: ts))
    (behind : ∀ u ∈ t :: ts, Behind a z u) {found : Option Declaration}
    (parsed : outcome (parse? source stage (statementAt t ts)) = some found)
    (closed : found ≠ none → (statementAt t ts).Closed) :
    ∃ found', outcome (parse? source' stage
        (statementAt (t.move z z') (ts.map (move z z')))) = some found' ∧
      Option.Rel (Moved z z') found found' := by
  have copy : statementAt (t.move z z') (ts.map (move z z')) =
      ⟨(t :: ts).map (move z z'), statementLength ts + 1⟩ := by
    rw [statementAt, statementLength_map_move, List.map_cons]
  rw [copy]
  have after (u : Token) (hu : u ∈ t :: ts) : z ≤ u.start := (behind u hu).1
  refine parse?_alike (alike_behind agree _ ordered after) rfl
    (fun x hx => after x (List.mem_of_mem_take hx)) stage ?_ parsed closed
  show ((((t :: ts).map (move z z'))[statementLength ts + 1]?).map Token.stop).getD _ =
    (((t :: ts)[statementLength ts + 1]?).map Token.stop).getD _ - z + z'
  rw [List.getElem?_map]
  cases at_end : (t :: ts)[statementLength ts + 1]? with
  | none => exact agree.length
  | some u => exact move_stop z' (after u (List.mem_of_getElem? at_end))

include grows moved in
theorem Passes.behind {stack stack' : Condition.Stack} {tags tags' : List (String × String)}
    {t : Token} {ts ts' : List Token} (ordered : Ordered (t :: ts))
    (behind : ∀ u ∈ t :: ts, Behind a z u)
    (step : Passes source stage fs stack tags t ts stack' tags' ts') :
    Passes source' stage gs stack tags (t.move z z') (ts.map (move z z')) stack' tags'
      (ts'.map (move z z')) := by
  have find : Option.Rel (FunctionDef.Moved a z z') (fs.find? (·.contains t.start))
      (gs.find? (·.contains (t.move z z').start)) :=
    find?_rel moved fun _ _ same => contains_behind same grows (behind t List.mem_cons_self)
  cases step with
  | @function f inside =>
    obtain ⟨g, inside', same⟩ := exists_of_rel find inside
    have cut : (ts.dropWhile fun t => t.start < f.stop).map (move z z') =
        (ts.map (move z z')).dropWhile fun t => t.start < g.stop := by
      rw [List.dropWhile_map]
      congr 1
      apply dropWhile_congr
      intro u hu
      obtain ⟨-, stop_out, -, stop⟩ := same
      have := behind u (List.mem_cons_of_mem _ hu)
      rw [relocate] at stop
      simp only [Behind] at this
      show decide (u.start < f.stop) = decide ((u.move z z').start < g.stop)
      rw [Bool.eq_iff_iff, decide_eq_true_eq, decide_eq_true_eq, move_start]
      split at stop <;> omega
    rw [cut]
    exact .function inside'
  | directive outside directive => exact .directive (eq_none_of_rel find outside) directive
  | other outside no_directive no_identifier =>
    exact .other (eq_none_of_rel find outside) no_directive no_identifier
  | statement outside identifier nothing =>
    obtain ⟨found', parsed, related⟩ := parse?_behind agree ordered behind nothing (by simp)
    obtain rfl := eq_none_of_rel related rfl
    have step := @Passes.statement _ _ _ stack tags _ _ (eq_none_of_rel find outside) identifier parsed
    rwa [statementLength_map_move, afterStatement_map_move] at step

include grows moved in
theorem Run.behind {stack : Condition.Stack} {tags : List (String × String)} {ts : List Token}
    {ds : List Declaration} (ordered : Ordered ts) (behind : ∀ u ∈ ts, Behind a z u)
    (run : Run source stage fs Closed stack tags ts ds) :
    ∃ ds', Run source' stage gs Closed stack tags (ts.map (move z z')) ds' ∧
      List.Forall₂ (Moved z z') ds ds' := by
  induction run with
  | done stack tags => exact ⟨[], .done stack tags, .nil⟩
  | pass step later ih =>
    have sub := step.suffix
    obtain ⟨ds', run, related⟩ := ih
      (ordered.sublist (sub.sublist.trans (List.sublist_cons_self _ _)))
      fun u hu => behind u (List.mem_cons_of_mem _ (sub.mem hu))
    exact ⟨ds', .pass (step.behind agree grows moved ordered behind) run, related⟩
  | @declaration stack tags t ts d ds outside identifier found closed later ih =>
    have sub := afterStatement_suffix (statementLength ts) ts
    obtain ⟨ds', run, related⟩ := ih
      (ordered.sublist (sub.sublist.trans (List.sublist_cons_self _ _)))
      fun u hu => behind u (List.mem_cons_of_mem _ (sub.mem hu))
    obtain ⟨found', parsed, same⟩ := parse?_behind agree ordered behind found fun _ => closed
    obtain ⟨d', rfl, same'⟩ := exists_of_rel same rfl
    have outside' : gs.find? (·.contains (t.move z z').start) = none :=
      eq_none_of_rel (find?_rel moved fun _ _ same =>
        contains_behind same grows (behind t List.mem_cons_self)) outside
    refine ⟨d'.under stack tags :: ds', ?_, .cons (same'.under stack tags) related⟩
    refine .declaration outside' identifier parsed (closed.of_marks ?_) ?_
    · rw [statementAt, statementLength_map_move, ← List.map_cons, window, ← List.map_take,
        marks_map_move]
      rfl
    · rwa [statementLength_map_move, afterStatement_map_move]

end Behind

/-- The tokens from a statement on, before and after an exchange in the statement; `first` starts it. -/
structure Site (source : Text) (a z z' : Nat) (first : Token) (rest rest' : List Token) : Prop where
  head : rest.head? = some first
  head' : ∃ first', rest'.head? = some first' ∧ first'.start = first.start ∧
    first'.isIdentifier = true
  identifier : first.isIdentifier = true
  start : first.start ≤ a
  exchange : ∃ own before after k later, Exchange a z z' before after k later ∧
    rest = own ++ (before ++ k :: later) ∧
    rest' = own ++ (after ++ (k :: later).map (move z z')) ∧
    ∀ t ∈ own, InFront source a t

section Front

variable {a z z' : Nat} {first : Token} {rest rest' : List Token} {source source' : Text}
  {stage : Stage} {fs gs : List FunctionDef} {front : List Token}

theorem Site.start_lt (site : Site source a z z' first rest rest') (ordered : Ordered (front ++ rest))
    {t : Token} (member : t ∈ (front ++ rest).drop (front.length + 1)) : first.start < t.start := by
  obtain ⟨tail, rfl⟩ := List.head?_eq_some_iff.1 site.head
  rw [← List.drop_drop, List.drop_left, List.drop_one, List.tail_cons] at member
  have tail_ordered := ordered.sublist (List.sublist_append_right _ _)
  have filled := tail_ordered.2 first List.mem_cons_self
  have apart := (List.pairwise_cons.1 tail_ordered.1).1 t member
  exact Nat.lt_of_lt_of_le filled apart

theorem Site.stop_le (site : Site source a z z' first rest rest') (ordered : Ordered (front ++ rest))
    {t : Token} (member : t ∈ front) : t.stop ≤ first.start :=
  (List.pairwise_append.1 ordered.1).2.2 t member first (List.mem_of_mem_head? site.head)

theorem Site.stop_function_le (site : Site source a z z' first rest rest')
    (ordered : Ordered (front ++ rest)) {f : FunctionDef} {t : Token}
    (member : t ∈ (front ++ rest).dropWhile fun u => u.start < f.stop)
    (reached : t.start = first.start) : f.stop ≤ first.start := by
  apply Nat.le_of_not_lt
  intro inside
  obtain ⟨tail, rest_eq⟩ := List.head?_eq_some_iff.1 site.head
  have dropped : ∀ u ∈ front ++ [first], decide (u.start < f.stop) = true := by
    intro u hu
    rw [decide_eq_true_eq]
    rcases List.mem_append.1 hu with hu | hu
    · have filled := ordered.2 u (List.mem_append_left _ hu)
      exact Nat.lt_trans (Nat.lt_of_lt_of_le filled (site.stop_le ordered hu)) inside
    · rw [List.mem_singleton.1 hu]
      exact inside
  have regroup : front ++ rest = (front ++ [first]) ++ tail := by simp [rest_eq]
  rw [regroup, List.dropWhile_append_of_pos dropped] at member
  have behind := site.start_lt (t := t) ordered (by
    rw [rest_eq, ← List.drop_drop, List.drop_left]
    exact (List.dropWhile_suffix _).mem member)
  omega

theorem dropWhile_append_of_head? {us : List Token} {u : Token} (head : us.head? = some u)
    {stop : Nat} (le : stop ≤ u.start) (ts : List Token) :
    (ts ++ us).dropWhile (fun t => t.start < stop) = ts.dropWhile (fun t => t.start < stop) ++ us := by
  obtain ⟨us, rfl⟩ := List.head?_eq_some_iff.1 head
  have stays : decide (u.start < stop) = false := decide_eq_false (Nat.not_lt.2 le)
  exact Text.dropWhile_append_cons (p := fun t => decide (t.start < stop)) stays ts us

theorem Site.statementLength_lt (site : Site source a z z' first rest rest')
    (ordered : Ordered (front ++ rest)) {t : Token}
    (member : t ∈ afterStatement (statementLength (front ++ rest)) (front ++ rest))
    (reached : t.start = first.start) :
    statementLength (front ++ rest) < front.length ∧
      statementLength (front ++ rest') = statementLength (front ++ rest) := by
  have lt : statementLength (front ++ rest) < front.length := by
    apply Nat.lt_of_not_le
    intro le
    have beyond : statementLength (front ++ rest) ≠ front.length := by
      intro same
      have at_end : (front ++ rest)[statementLength (front ++ rest)]? = some first := by
        rw [same, List.getElem?_append_right (Nat.le_refl _), Nat.sub_self, ← List.head?_eq_getElem?,
          site.head]
      have ends := ends_of_statementLength at_end
      have kind := of_decide_eq_true site.identifier
      simp [isDirective, isPunct, kind] at ends
    have member := (afterStatement_suffix_drop _ _).mem member
    have cut : statementLength (front ++ rest) =
        front.length + 1 + (statementLength (front ++ rest) - (front.length + 1)) := by omega
    rw [cut, ← List.drop_drop] at member
    have := site.start_lt ordered (List.mem_of_mem_drop member)
    omega
  refine ⟨lt, ?_⟩
  obtain ⟨own, before, after, k, later, exchange, rfl, rfl, -⟩ := site.exchange
  rw [← List.append_assoc front own] at lt
  rw [← List.append_assoc front own, ← List.append_assoc front own]
  rcases statementLength_exchange exchange (front ++ own) with ⟨n, -, old, new⟩ | ⟨m, old, -⟩
  · rw [old, new]
  · rw [old, List.length_append] at lt
    omega

theorem Site.parse?_front (site : Site source a z z' first rest rest')
    (agree : Agree a z z' source source') {x : Token} (ordered : Ordered (x :: front ++ rest))
    (ahead : ∀ t ∈ x :: front, InFront source a t) {n : Nat} (inside : n < front.length)
    {found : Option Declaration}
    (parsed : outcome (parse? source stage ⟨x :: (front ++ rest), n + 1⟩) = some found)
    (closed : found ≠ none → Closed ⟨x :: (front ++ rest), n + 1⟩) :
    ∃ found', outcome (parse? source' stage ⟨x :: (front ++ rest'), n + 1⟩) = some found' ∧
      Option.Rel (Moved 0 0) found found' := by
  obtain ⟨own, before, after, k, later, exchange, rfl, rfl, own_ahead⟩ := site.exchange
  have regroup (us : List Token) : x :: (front ++ (own ++ us)) = x :: front ++ own ++ us := by simp
  rw [regroup] at parsed closed ⊢
  have size : n + 1 ≤ (x :: front ++ own).length := by
    rw [List.length_append, List.length_cons]
    omega
  have alike : Alike 0 0 source source' _ _ := alike_front exchange agree size
    (ordered.sublist (by
      rw [List.cons_append, List.cons_append, ← List.append_assoc front]
      exact (List.sublist_append_left _ _).cons_cons x)) fun t ht =>
        (List.mem_append.1 ht).elim (ahead t) (own_ahead t)
  refine parse?_alike alike rfl (fun _ _ => Nat.zero_le _) stage ?_ parsed closed
  have last (us : List Token) (bound : n + 1 < (x :: front ++ own).length) :
      (x :: front ++ own ++ us)[n + 1]? = (x :: front ++ own)[n + 1]? :=
    List.getElem?_append_left bound
  have bound : n + 1 < (x :: front ++ own).length := by
    rw [List.length_append, List.length_cons]
    omega
  show (((x :: front ++ own ++ _)[n + 1]?).map Token.stop).getD _ =
    (((x :: front ++ own ++ _)[n + 1]?).map Token.stop).getD _ - 0 + 0
  rw [last _ bound, last _ bound, List.getElem?_eq_getElem bound]
  rfl

theorem Site.passes_front (site : Site source a z z' first rest rest')
    (agree : Agree a z z' source source') (grows : a < z')
    (moved : List.Forall₂ (FunctionDef.Moved a z z') fs gs) {x : Token}
    (ordered : Ordered (x :: front ++ rest)) (ahead : ∀ t ∈ x :: front, InFront source a t)
    {stack stack' : Condition.Stack} {tags tags' : List (String × String)} {ts : List Token}
    (step : Passes source stage fs stack tags x (front ++ rest) stack' tags' ts) {t : Token}
    (member : t ∈ ts) (reached : t.start = first.start) :
    ∃ front', front' <:+ front ∧ ts = front' ++ rest ∧
      Passes source' stage gs stack tags x (front ++ rest') stack' tags' (front' ++ rest') := by
  have ordered' : Ordered (front ++ rest) := ordered.sublist (List.sublist_cons_self _ _)
  have before_site : x.start ≤ a := (ahead x List.mem_cons_self).start_le
  have find : Option.Rel (FunctionDef.Moved a z z') (fs.find? (·.contains x.start))
      (gs.find? (·.contains x.start)) :=
    find?_rel moved fun _ _ same => contains_front same grows before_site
  cases step with
  | @function f inside =>
    obtain ⟨g, inside', same⟩ := exists_of_rel find inside
    have out := site.stop_function_le ordered' member reached
    have stop : g.stop = f.stop := by
      rw [same.stop, relocate, if_pos (Nat.le_trans out site.start)]
    obtain ⟨first', head', start', -⟩ := site.head'
    have step := @Passes.function source' stage _ stack tags _ (front ++ rest') _ inside'
    rw [stop, dropWhile_append_of_head? head' (start'.symm ▸ out)] at step
    exact ⟨_, List.dropWhile_suffix _, dropWhile_append_of_head? site.head out front, step⟩
  | directive outside directive =>
    exact ⟨front, List.suffix_refl _, rfl,
      .directive (eq_none_of_rel find outside) directive⟩
  | other outside no_directive no_identifier =>
    exact ⟨front, List.suffix_refl _, rfl,
      .other (eq_none_of_rel find outside) no_directive no_identifier⟩
  | statement outside identifier nothing =>
    obtain ⟨lt, same⟩ := site.statementLength_lt ordered' member reached
    obtain ⟨found', parsed, related⟩ := site.parse?_front agree ordered ahead lt nothing (by simp)
    obtain rfl := eq_none_of_rel related rfl
    refine ⟨_, afterStatement_suffix _ front, afterStatement_append lt rest, ?_⟩
    rw [← afterStatement_append lt, ← same]
    rw [← same] at parsed
    exact .statement (eq_none_of_rel find outside) identifier parsed

theorem Site.declares_front (site : Site source a z z' first rest rest')
    (agree : Agree a z z' source source') (grows : a < z')
    (moved : List.Forall₂ (FunctionDef.Moved a z z') fs gs) {x : Token}
    (ordered : Ordered (x :: front ++ rest)) (ahead : ∀ t ∈ x :: front, InFront source a t)
    (outside : fs.find? (·.contains x.start) = none) (identifier : x.isIdentifier = true)
    {d : Declaration}
    (found : outcome (parse? source stage (statementAt x (front ++ rest))) = some (some d))
    (closed : Closed (statementAt x (front ++ rest))) {t : Token}
    (member : t ∈ afterStatement (statementLength (front ++ rest)) (front ++ rest))
    (reached : t.start = first.start) :
    ∃ front' d', front' <:+ front ∧
      afterStatement (statementLength (front ++ rest)) (front ++ rest) = front' ++ rest ∧
      Moved 0 0 d d' ∧ d.stop ≤ first.start ∧ ∀ stack tags ds',
        Run source' stage gs Closed stack [] (front' ++ rest') ds' →
        Run source' stage gs Closed stack tags (x :: (front ++ rest')) (d'.under stack tags :: ds') := by
  have ordered' : Ordered (front ++ rest) := ordered.sublist (List.sublist_cons_self _ _)
  obtain ⟨lt, same⟩ := site.statementLength_lt ordered' member reached
  obtain ⟨found', parsed, copy⟩ := site.parse?_front agree ordered ahead lt found fun _ => closed
  obtain ⟨d', rfl, copy'⟩ := exists_of_rel copy rfl
  have outside' : gs.find? (·.contains x.start) = none :=
    eq_none_of_rel (find?_rel moved fun _ _ same => contains_front same grows
      (ahead x List.mem_cons_self).start_le) outside
  have last : (x :: (front ++ rest))[statementLength (front ++ rest) + 1]? =
      some front[statementLength (front ++ rest)] := by
    rw [List.getElem?_cons_succ, List.getElem?_append_left lt, List.getElem?_eq_getElem lt]
  refine ⟨_, d', afterStatement_suffix _ front, afterStatement_append lt rest, copy', ?_, ?_⟩
  · rw [stop_of_parse? rfl found last]
    exact site.stop_le ordered' (List.getElem_mem lt)
  · intro stack tags ds' later'
    refine .declaration outside' identifier ?_ (closed.of_marks ?_) ?_
    · rw [statementAt, same]
      exact parsed
    · rw [statementAt, same, statementAt, window, window, List.take_succ_cons,
        List.take_succ_cons, List.take_append_of_le_length (Nat.le_of_lt lt),
        List.take_append_of_le_length (Nat.le_of_lt lt)]
    · rw [same, afterStatement_append lt]
      exact later'

theorem Site.run_front (site : Site source a z z' first rest rest')
    (agree : Agree a z z' source source') (grows : a < z')
    (moved : List.Forall₂ (FunctionDef.Moved a z z') fs gs) (ordered : Ordered (front ++ rest))
    (ahead : ∀ t ∈ front, InFront source a t) {stack : Condition.Stack} {tags : List (String × String)}
    {ds : List Declaration} (run : Run source stage fs Closed stack tags (front ++ rest) ds)
    (reached : ∃ d ∈ ds, d.start = first.start) :
    ∃ stack₁ tags₁ ds₁ ds₂ ds₁', ds = ds₁ ++ ds₂ ∧ Run source stage fs Closed stack₁ tags₁ rest ds₂ ∧
      (∃ d ∈ ds₂, d.start = first.start) ∧ List.Forall₂ (Moved 0 0) ds₁ ds₁' ∧
      (∀ d ∈ ds₁, d.stop ≤ first.start) ∧
      ∀ ds₂', Run source' stage gs Closed stack₁ tags₁ rest' ds₂' →
        Run source' stage gs Closed stack tags (front ++ rest') (ds₁' ++ ds₂') := by
  induction len : front.length using Nat.strongRecOn generalizing front stack tags ds with
  | ind n ih =>
    cases front with
    | nil => exact ⟨stack, tags, [], ds, [], rfl, run, reached, .nil, by simp, fun _ run' => run'⟩
    | cons x front =>
      rw [List.length_cons] at len
      rw [List.cons_append] at run
      -- Behind a step that ends in front of the site, what stands in front of it is shorter.
      have further {front' : List Token} (suffix : front' <:+ front) : front'.length < n ∧
          Ordered (front' ++ rest) ∧ ∀ t ∈ front', InFront source a t := by
        refine ⟨?_, ?_, fun t ht => ahead t (List.mem_cons_of_mem _ (suffix.mem ht))⟩
        · exact Nat.lt_of_le_of_lt suffix.length_le (by omega)
        · exact ordered.sublist ((suffix.sublist.trans (List.sublist_cons_self _ _)).append_right rest)
      cases run with
      | pass step later =>
        obtain ⟨d, member, start⟩ := reached
        obtain ⟨t, ht, start', -⟩ := later.exists_start member
        obtain ⟨front', suffix, rfl, step'⟩ := site.passes_front agree grows moved ordered
          ahead step ht (start'.symm.trans start)
        obtain ⟨shorter, ordered', ahead'⟩ := further suffix
        obtain ⟨stack₁, tags₁, ds₁, ds₂, ds₁', cut, run, reached', same, stops, run'⟩ :=
          ih _ shorter ordered' ahead' later ⟨d, member, start⟩ rfl
        exact ⟨stack₁, tags₁, ds₁, ds₂, ds₁', cut, run, reached', same, stops,
          fun ds₂' later' => .pass step' (run' ds₂' later')⟩
      | @declaration _ _ _ _ d ds outside identifier found closed later =>
        obtain ⟨d', member, reached⟩ := reached
        have x_first : d.start < first.start := by
          rw [(start_of_parse? (t := x) rfl found).1]
          exact Nat.lt_of_lt_of_le (ordered.2 x (by simp)) (site.stop_le ordered List.mem_cons_self)
        have member : d' ∈ ds := by
          rcases List.mem_cons.1 member with rfl | member
          · exact absurd reached (Nat.ne_of_lt x_first)
          · exact member
        obtain ⟨t, ht, start', -⟩ := later.exists_start member
        obtain ⟨front', d₁, suffix, same, copy, stop, step'⟩ := site.declares_front agree grows moved
          ordered ahead outside identifier found closed ht (start'.symm.trans reached)
        rw [same] at later
        obtain ⟨shorter, ordered', ahead'⟩ := further suffix
        obtain ⟨stack₁, tags₁, ds₁, ds₂, ds₁', rfl, run, reached', related, stops, run'⟩ :=
          ih _ shorter ordered' ahead' later ⟨d', member, reached⟩ rfl
        refine ⟨stack₁, tags₁, d.under stack tags :: ds₁, ds₂, d₁.under stack tags :: ds₁', rfl, run,
          reached', .cons (copy.under stack tags) related, ?_, ?_⟩
        · intro d₂ hd₂
          rcases List.mem_cons.1 hd₂ with rfl | hd₂
          · exact stop
          · exact stops d₂ hd₂
        · intro ds₂' later'
          exact step' stack tags _ (run' ds₂' later')

end Front

theorem statementLength_of_head? {ts : List Token} {t : Token} (head : ts.head? = some t)
    (identifier : t.isIdentifier = true) :
    ∃ us, ts = t :: us ∧ statementAt t us = ⟨ts, statementLength ts⟩ ∧
      afterStatement (statementLength us) us = afterStatement 0 (ts.drop (statementLength ts)) := by
  obtain ⟨us, rfl⟩ := List.head?_eq_some_iff.1 head
  have inside : (t.isDirective || t.isPunct ';') = false ∧ t.isPunct '\x7b' = false := by
    have kind := of_decide_eq_true identifier
    simp [isDirective, isPunct, kind]
  rw [statementLength_cons_of_other inside.1 inside.2]
  exact ⟨us, rfl, rfl, rfl⟩

theorem Statement.Closed.exchange {own before after tail : List Token} {z z' m : Nat}
    (h : Closed ⟨own ++ (before ++ tail), own.length + (before.length + m)⟩)
    (old : nested [] (marks before) = true) (new : nested [] (marks after) = true) :
    Closed ⟨own ++ (after ++ tail.map (move z z')), own.length + (after.length + m)⟩ := by
  obtain ⟨stack, closed⟩ := h
  have passes {ts : List Token} (nested_ts : nested [] (marks ts) = true) (stack : List Bracket) :
      nested stack (marks ts ++ marks (tail.take m)) = nested stack (marks (tail.take m)) :=
    nested_append [] nested_ts stack _
  refine ⟨stack, ?_⟩
  rw [window, List.take_length_add_append, List.take_length_add_append, marks_append,
    marks_append] at closed ⊢
  rw [← List.map_take, marks_map_move, nested_append_congr fun stack => ?_]
  · exact closed
  · rw [passes new, passes old]

theorem Statement.Closed.of_append {own before tail : List Token} {m : Nat}
    (h : Closed ⟨own ++ (before ++ tail), own.length + before.length + m⟩) : Closed ⟨tail, m⟩ := by
  have behind := h.drop (own.length + before.length)
  rw [Statement.drop] at behind
  dsimp only at behind
  rw [← List.append_assoc, ← List.length_append, List.drop_left, List.length_append,
    Nat.add_sub_cancel_left] at behind
  exact behind

section Own

variable {a z z' : Nat} {own before after later : List Token} {k : Token} {source source' : Text}
  {inner' : Text} {range' : Nat × Nat} {stage : Stage} {fs gs : List FunctionDef}

theorem declaration_of_start {P : Statement → Prop} {first : Token} {us : List Token}
    {stack : Condition.Stack} {tags : List (String × String)} {ds : List Declaration}
    (run : Run source stage fs P stack tags (first :: us) ds) (only : ∀ t ∈ us, first.start < t.start)
    {d₀ : Declaration} (member : d₀ ∈ ds) (start : d₀.start = first.start) :
    ∃ d ds₂, ds = d.under stack tags :: ds₂ ∧ d₀ = d.under stack tags ∧
      fs.find? (·.contains first.start) = none ∧
      outcome (parse? source stage (statementAt first us)) = some (some d) ∧
      P (statementAt first us) ∧
      Run source stage fs P stack [] (afterStatement (statementLength us) us) ds₂ := by
  cases run with
  | pass step later =>
    obtain ⟨t, ht, start', -⟩ := later.exists_start member
    have := only t (step.suffix.mem ht)
    omega
  | @declaration _ _ _ _ d ds₂ outside identifier found holds later =>
    refine ⟨d, ds₂, rfl, ?_, outside, found, holds, later⟩
    rcases List.mem_cons.1 member with here | member
    · exact here
    · obtain ⟨t, ht, start', -⟩ := later.exists_start member
      have := only t ((afterStatement_suffix (statementLength us) us).mem ht)
      omega

/-- A statement that goes beyond an exchanged list has the same tokens behind it before and after. -/
theorem exists_statementLength (exchange : Exchange a z z' before after k later)
    (inside : own.length ≤ statementLength (own ++ (before ++ k :: later))) :
    ∃ m, statementLength (own ++ (before ++ k :: later)) = own.length + before.length + (m + 1) ∧
      statementLength (own ++ (after ++ (k :: later).map (move z z'))) =
        own.length + after.length + (m + 1) := by
  rcases statementLength_exchange exchange own with ⟨n, lt, old, -⟩ | found
  · omega
  · exact found

theorem Run.behind_statement (agree : Agree a z z' source source') (grows : a < z')
    (moved : List.Forall₂ (FunctionDef.Moved a z z') fs gs)
    (exchange : Exchange a z z' before after k later) (ordered : Ordered (own ++ (before ++ k :: later)))
    {stack : Condition.Stack} {tags : List (String × String)} {ds : List Declaration} {m : Nat}
    (run : Run source stage fs Closed stack tags (afterStatement 0 (later.drop m)) ds) :
    ∃ ds', Run source' stage gs Closed stack tags
        (afterStatement 0 ((later.map (move z z')).drop m)) ds' ∧ List.Forall₂ (Moved z z') ds ds' := by
  have tail_sub : afterStatement 0 (later.drop m) <:+ later :=
    (afterStatement_suffix 0 _).trans (List.drop_suffix _ _)
  have later_sub : later.Sublist (own ++ (before ++ k :: later)) :=
    (List.sublist_cons_self k later).trans
      ((List.sublist_append_right _ _).trans (List.sublist_append_right _ _))
  obtain ⟨ds', run', related⟩ := run.behind agree grows moved
    (ordered.sublist (tail_sub.sublist.trans later_sub))
    fun u hu => exchange.behind u (tail_sub.mem hu)
  refine ⟨ds', ?_, related⟩
  rw [← List.map_drop, afterStatement_map_move]
  exact run'

/-- At the site itself the declaration is found with its new layout, and the same ones behind it. -/
theorem run_site (agree : Agree a z z' source source') (grows : a < z')
    (moved : List.Forall₂ (FunctionDef.Moved a z z') fs gs)
    (exchange : Exchange a z z' before after k later) (new : IsList source' after inner' range')
    {first : Token} (site : Site source a z z' first (own ++ (before ++ k :: later))
      (own ++ (after ++ (k :: later).map (move z z'))))
    (own_ahead : ∀ t ∈ own, InFront source a t) (ordered : Ordered (own ++ (before ++ k :: later)))
    (behind : ∀ t ∈ k :: later, z ≤ t.start)
    (inside : own.length ≤ statementLength (own ++ (before ++ k :: later)))
    (nested_old : nested [] (marks before) = true) (nested_new : nested [] (marks after) = true)
    {stack : Condition.Stack} {tags : List (String × String)} {ds : List Declaration}
    (run : Run source stage fs Closed stack tags (own ++ (before ++ k :: later)) ds)
    (reached : ∃ d ∈ ds, d.start = first.start ∧ Counts source own before d.layoutRange) :
    ∃ d d' ds₂ ds₂', ds = d :: ds₂ ∧ d.start = first.start ∧
      Relaid (Layout.parse inner') d d' ∧ List.Forall₂ (Moved z z') ds₂ ds₂' ∧
      Run source' stage gs Closed stack tags
        (own ++ (after ++ (k :: later).map (move z z'))) (d' :: ds₂') := by
  obtain ⟨first', head', start', identifier'⟩ := site.head'
  obtain ⟨us, cut, statement, rest⟩ := statementLength_of_head? site.head site.identifier
  obtain ⟨us', cut', statement', rest'⟩ := statementLength_of_head? head' identifier'
  obtain ⟨m, size, size'⟩ := exists_statementLength exchange inside
  obtain ⟨d₀, member, start₀, counts⟩ := reached
  have only : ∀ t ∈ us, first.start < t.start := by
    intro t ht
    have front : Ordered ([] ++ (own ++ (before ++ k :: later))) := ordered
    refine site.start_lt front ?_
    rw [List.nil_append, cut]
    exact ht
  rw [cut] at run
  obtain ⟨d, ds₂, rfl, rfl, outside, found, closed, later_run⟩ :=
    declaration_of_start run only member start₀
  rw [statement, size] at found closed
  have closed_tail : Closed ⟨k :: later, m + 1⟩ := closed.of_append
  rw [Nat.add_assoc] at found closed
  obtain ⟨d', parsed, relaid⟩ := parse?_exchange agree new ordered own_ahead behind site.head head'
    stage found counts closed_tail
  rw [rest, size, drop_append_append, List.drop_succ_cons] at later_run
  obtain ⟨ds₂', run', related⟩ := later_run.behind_statement agree grows moved exchange ordered
  have outside' : gs.find? (·.contains first'.start) = none := by
    rw [start']
    exact eq_none_of_rel (find?_rel moved fun _ _ same => contains_front same grows site.start) outside
  refine ⟨_, d'.under stack tags, ds₂, ds₂', rfl, start₀, relaid.under stack tags, related, ?_⟩
  rw [cut']
  refine .declaration outside' identifier' ?_ ?_ ?_
  · rw [statement', size', Nat.add_assoc]
    exact parsed
  · rw [statement', size', Nat.add_assoc]
    exact closed.exchange nested_old nested_new
  · rw [rest', size', drop_append_append, List.map_cons, List.drop_succ_cons]
    exact run'

end Own

end ShaderPass.Declaration
