import ShaderPass.Proofs.Declaration.Separation

/-! Statements outside functions and blocks are reached: whatever precedes one is passed over without
touching it, so extraction arrives at its first token. -/
namespace ShaderPass

open Token ShaderPass.Bracket

namespace Bracket

def ClosedIn (b : Bracket) (ts : List Token) : Prop :=
  ∀ k us, k :: us <:+ ts → k.isPunct b.opening = true → (closeOffset? (k :: us)).isSome = true

theorem ClosedIn.of_suffix {b : Bracket} {ts us : List Token} (h : b.ClosedIn ts) (part : us <:+ ts) :
    b.ClosedIn us :=
  fun k vs suffix => h k vs (suffix.trans part)

theorem closedIn_of_no_opening {b : Bracket} {ts : List Token}
    (none : ∀ k ∈ ts, k.isPunct b.opening = false) : b.ClosedIn ts := by
  intro k us part opens
  rw [none k (part.mem List.mem_cons_self)] at opens
  cases opens

theorem ClosedIn.exists_closeOffset? {b : Bracket} (hb : b ∈ all) {k last : Token} {us : List Token}
    (h : b.ClosedIn (k :: us)) (opens : k.isPunct b.opening = true)
    (at_last : (k :: us).getLast? = some last) (no_close : last.isPunct b.closing = false) :
    ∃ n, closeOffset? (k :: us) = some n ∧ n < us.length := by
  obtain ⟨n, found⟩ := Option.isSome_iff_exists.1 (h k us (List.suffix_refl _) opens)
  refine ⟨n, found, ?_⟩
  obtain ⟨-, m, search, rfl⟩ := (closeOffset?_eq_some_iff hb opens).1 found
  obtain ⟨close, at_m, closes⟩ := exists_of_closeAfter search
  have bound := closeAfter_lt search
  refine Nat.lt_of_le_of_ne bound fun same => ?_
  rw [List.getLast?_eq_getElem?, List.length_cons, Nat.add_sub_cancel, ← same,
    List.getElem?_cons_succ, at_m, Option.some.injEq] at at_last
  rw [← at_last, closes] at no_close
  cases no_close

end Bracket

namespace Declaration

open FunctionDef Compile

theorem statementLength_lt_of_getLast? {ts : List Token} {last : Token} (closed : brace.ClosedIn ts)
    (at_last : ts.getLast? = some last) (ends : (last.isDirective || last.isPunct ';') = true)
    (later : List Token) : statementLength (ts ++ later) < ts.length := by
  have no_close : last.isPunct brace.closing = false := by
    cases punct : last.isPunct brace.closing with
    | false => rfl
    | true =>
      rw [isPunct, Bool.and_eq_true, decide_eq_true_eq, decide_eq_true_eq] at punct
      simp [isDirective, isPunct, punct.1, punct.2, brace] at ends
  induction len : ts.length using Nat.strongRecOn generalizing ts with
  | ind size ih =>
    cases ts with
    | nil => cases at_last
    | cons k us =>
      rw [List.length_cons] at len
      rw [List.cons_append]
      cases here : k.isDirective || k.isPunct ';' with
      | true =>
        rw [statementLength_cons_of_ends here]
        omega
      | false =>
        cases block : k.isPunct '\x7b' with
        | true =>
          obtain ⟨n, found, inside⟩ :=
            closed.exists_closeOffset? (b := brace) (by decide) block at_last no_close
          have rest := ih (us.drop n).length (by rw [List.length_drop]; omega)
            (closed.of_suffix ((List.drop_suffix n us).trans (List.suffix_cons k us)))
            (by rw [List.getLast?_drop, if_neg (by omega), ← at_last]
                exact (List.getLast?_cons_of_ne_nil (List.ne_nil_of_length_pos (by omega))).symm) rfl
          rw [List.length_drop] at rest
          have whole : closeOffset? (k :: (us ++ later)) = some n := closeOffset?_append_of_some found later
          rw [statementLength_cons_of_block here block whole,
            List.drop_append_of_le_length (Nat.le_of_lt inside)]
          omega
        | false =>
          have some_token : us ≠ [] := by
            rintro rfl
            rw [List.getLast?_singleton, Option.some.injEq] at at_last
            rw [at_last, ends] at here
            cases here
          have rest := ih us.length (by omega) (closed.of_suffix (List.suffix_cons k us))
            (by rwa [List.getLast?_cons_of_ne_nil some_token] at at_last) rfl
          rw [statementLength_cons_of_other here block]
          omega

/-- A statement outside functions and blocks: in front of its first token all blocks are closed, and a
statement or a function has ended. -/
structure TopLevel (t : Text) (front : List Token) (first : Token) (behind : List Token) : Prop where
  tokens : significant t = front ++ first :: behind
  outside : ∀ f ∈ find t, f.contains first.start = false
  closed : brace.ClosedIn front
  fresh : ∀ last, front.getLast? = some last → (last.isDirective || last.isPunct ';') = true ∨
    ∃ f ∈ find t, f.stop = last.stop

section Reaching

variable {t : Text} {front rest behind : List Token} {first k : Token}

theorem TopLevel.statementLength_lt (top : TopLevel t front first behind) (part : k :: rest <:+ front)
    (identifier : k.isIdentifier = true) (outside : ∀ f ∈ find t, f.contains k.start = false) :
    statementLength (rest ++ first :: behind) < rest.length := by
  have kind := of_decide_eq_true identifier
  obtain ⟨gone, rfl⟩ := part
  obtain ⟨last, at_last⟩ : ∃ last, (k :: rest).getLast? = some last :=
    ⟨_, List.getLast?_eq_some_getLast (List.cons_ne_nil _ _)⟩
  have whole : (gone ++ k :: rest).getLast? = some last := by
    rw [List.getLast?_append, at_last, Option.some_or]
  rcases top.fresh last whole with ends | ⟨f, hf, stop⟩
  · have some_token : rest ≠ [] := by
      rintro rfl
      rw [List.getLast?_singleton, Option.some.injEq] at at_last
      simp [← at_last, isDirective, isPunct, kind] at ends
    refine statementLength_lt_of_getLast? (top.closed.of_suffix ?_) ?_ ends _
    · exact (List.suffix_cons k rest).trans (List.suffix_append gone _)
    · rwa [List.getLast?_cons_of_ne_nil some_token] at at_last
  · have cut : significant t = gone ++ k :: (rest ++ first :: behind) := by simp [top.tokens]
    have ordered := ordered_significant t
    rw [cut, ← List.cons_append] at ordered
    have own := ordered.sublist (List.sublist_append_right gone _)
    have member := List.mem_of_getLast? at_last
    have last_le : last.stop ≤ first.start :=
      (List.pairwise_append.1 own.1).2.2 last member first List.mem_cons_self
    have first_le : k.stop ≤ last.stop := by
      rcases List.mem_cons.1 member with rfl | member
      · exact Nat.le_refl _
      · have := (List.pairwise_cons.1 (own.sublist (List.sublist_append_left _ _)).1).1 last member
        exact Nat.le_trans this (Nat.le_add_right _ _)
    have filled := own.2 k List.mem_cons_self
    rcases find_around cut identifier outside f hf with before | ⟨j, behind_statement, start⟩
    · omega
    · -- The function that ends in front of the token starts behind the statement.
      obtain ⟨-, -, -, -, -, -, -, -, -, grows, grows'⟩ := (boundedBy_find t).1 f hf
      refine Nat.lt_of_not_le fun long => ?_
      have later : j ∈ first :: behind := by
        rw [List.drop_append, List.drop_eq_nil_of_le (by omega), List.nil_append] at behind_statement
        exact List.mem_of_mem_drop behind_statement
      have := (own.sublist (List.sublist_append_right _ _)).start_le_of_head? rfl later
      omega

variable {stage : Stage} {P : Statement → Prop} {stack : Condition.Stack}
  {tags : List (String × String)} {ds : List Declaration}

/-- A step in front of a statement outside functions and blocks does not go beyond its start. -/
theorem TopLevel.afterStatement_eq (top : TopLevel t front first behind) (part : k :: rest <:+ front)
    (identifier : k.isIdentifier = true) (outside : (find t).find? (·.contains k.start) = none) :
    ∃ rest', rest' <:+ rest ∧
      afterStatement (statementLength (rest ++ first :: behind)) (rest ++ first :: behind) =
        rest' ++ first :: behind := by
  have lt := top.statementLength_lt part identifier fun f hf => by
    simpa using List.find?_eq_none.1 outside f hf
  exact ⟨_, afterStatement_suffix _ _, afterStatement_append lt _⟩

theorem TopLevel.dropWhile_eq (top : TopLevel t front first behind) (part : k :: rest <:+ front)
    {f : FunctionDef} (inside : (find t).find? (·.contains k.start) = some f) :
    ∃ rest', rest' <:+ rest ∧ (rest ++ first :: behind).dropWhile (fun u => u.start < f.stop) =
      rest' ++ first :: behind := by
  have member := List.mem_of_find?_eq_some inside
  have taken := List.find?_some inside
  have free := top.outside f member
  have ordered := ordered_significant t
  obtain ⟨gone, rfl⟩ := part
  rw [top.tokens] at ordered
  have apart := (List.pairwise_append.1 ordered.1).2.2 k (by simp) first List.mem_cons_self
  have filled := ordered.2 k (by simp)
  simp only [contains, Bool.and_eq_true, decide_eq_true_eq] at taken
  simp only [contains, Bool.and_eq_false_iff, decide_eq_false_iff_not] at free
  refine ⟨rest.dropWhile fun u => u.start < f.stop, List.dropWhile_suffix _, ?_⟩
  exact dropWhile_append_of_head? rfl (by omega) rest

theorem TopLevel.exists_run_of_suffix (top : TopLevel t front first behind) {ts : List Token}
    (part : rest <:+ front) (cut : ts = rest ++ first :: behind)
    (run : Run t stage (find t) P stack tags ts ds) :
    ∃ stack' tags' ds', ds' <:+ ds ∧ Run t stage (find t) P stack' tags' (first :: behind) ds' := by
  induction run generalizing rest with
  | done => simp at cut
  | @pass stack stack' tags tags' k us ts' ds step later ih =>
    cases rest with
    | nil =>
      obtain ⟨rfl, rfl⟩ := List.cons.inj cut
      exact ⟨stack, tags, ds, List.suffix_refl _, .pass step later⟩
    | cons k' rest =>
      obtain ⟨rfl, rfl⟩ := List.cons.inj cut
      have further := (List.suffix_cons k rest).trans part
      cases step with
      | function inside =>
        obtain ⟨rest', part', same⟩ := top.dropWhile_eq part inside
        exact ih (part'.trans further) same
      | directive => exact ih further rfl
      | other => exact ih further rfl
      | statement outside identifier =>
        obtain ⟨rest', part', same⟩ := top.afterStatement_eq part identifier outside
        exact ih (part'.trans further) same
  | @declaration stack tags k us d ds outside identifier found holds later ih =>
    cases rest with
    | nil =>
      obtain ⟨rfl, rfl⟩ := List.cons.inj cut
      exact ⟨stack, tags, _, List.suffix_refl _, .declaration outside identifier found holds later⟩
    | cons k' rest =>
      obtain ⟨rfl, rfl⟩ := List.cons.inj cut
      obtain ⟨rest', part', same⟩ := top.afterStatement_eq part identifier outside
      obtain ⟨stack', tags', ds', later_part, run'⟩ :=
        ih (part'.trans ((List.suffix_cons k rest).trans part)) same
      exact ⟨stack', tags', ds', later_part.trans (List.suffix_cons _ _), run'⟩

theorem TopLevel.exists_run (top : TopLevel t front first behind)
    (run : Run t stage (find t) P [] [] (significant t) ds) :
    ∃ stack tags ds', ds' <:+ ds ∧ Run t stage (find t) P stack tags (first :: behind) ds' := by
  rw [top.tokens] at run
  exact top.exists_run_of_suffix (List.suffix_refl front) rfl run

theorem TopLevel.exists_parse? (top : TopLevel t front first behind)
    (identifier : first.isIdentifier = true)
    (run : Run t stage (find t) P [] [] (significant t) ds) :
    ∃ found, outcome (parse? t stage (statementAt first behind)) = some found ∧
      ∀ d ∈ found, ∃ stack tags, under stack tags d ∈ ds := by
  obtain ⟨stack, tags, ds', part, run'⟩ := top.exists_run run
  cases run' with
  | pass step later =>
    cases step with
    | function inside =>
      have free := top.outside _ (List.mem_of_find?_eq_some inside)
      rw [List.find?_some inside] at free
      cases free
    | directive _ directive =>
      rw [isDirective_of_isIdentifier identifier] at directive
      cases directive
    | other _ _ no_identifier =>
      rw [identifier] at no_identifier
      cases no_identifier
    | statement _ _ nothing => exact ⟨none, nothing, fun d same => absurd same (Option.not_mem_none d)⟩
  | declaration _ _ found _ _ =>
    refine ⟨_, found, fun d same => ?_⟩
    obtain rfl := Option.some.inj same
    exact ⟨stack, tags, part.mem List.mem_cons_self⟩

end Reaching

end Declaration
end ShaderPass
