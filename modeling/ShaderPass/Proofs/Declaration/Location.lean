import ShaderPass.Proofs.Declaration.Extraction

/-! Where declarations stand: each is found at a token that follows no identifier, and its layout list
stands in front of an identifier. -/
namespace ShaderPass

open Token ShaderPass.Bracket Compile

namespace FunctionDef

def EndsIn (ts : List Token) (f : FunctionDef) : Prop :=
  ∃ last ∈ ts, f.stop = last.stop ∧ (last.isIdentifier = false ∨ ∀ t ∈ ts, t.stop ≤ f.stop)

theorem EndsIn.append {us : List Token} {f : FunctionDef} (h : EndsIn us f) {ts : List Token}
    (ordered : Ordered (ts ++ us)) : EndsIn (ts ++ us) f := by
  obtain ⟨last, member, stop, ends⟩ := h
  refine ⟨last, List.mem_append_right _ member, stop, ends.imp_right fun final t ht => ?_⟩
  rcases List.mem_append.1 ht with ht | ht
  · have apart := (List.pairwise_append.1 ordered.1).2.2 t ht last member
    exact Nat.le_trans apart (stop ▸ Nat.le_add_right _ _)
  · exact final t ht

theorem Ordered.stop_le_getLastD {t : Token} {ts : List Token} (ordered : Ordered (t :: ts))
    {u : Token} (member : u ∈ t :: ts) : u.stop ≤ (ts.getLastD t).stop := by
  induction ts generalizing t u with
  | nil =>
    rw [List.mem_singleton.1 member]
    exact Nat.le_refl _
  | cons v ts ih =>
    have tail : Ordered (v :: ts) := ordered.sublist (List.sublist_cons_self t _)
    rw [List.getLastD_cons]
    rcases List.mem_cons.1 member with rfl | member
    · have apart := (List.pairwise_cons.1 ordered.1).1 v List.mem_cons_self
      exact Nat.le_trans (Nat.le_trans apart (Nat.le_add_right _ _)) (ih tail List.mem_cons_self)
    · exact ih tail member

theorem blockSize_ends {t : Token} {ts : List Token} (block : t.isPunct brace.opening = true)
    (ordered : Ordered (t :: ts)) :
    ((ts.take (blockSize t ts)).getLastD t).isIdentifier = false ∨
      ∀ u ∈ t :: ts, u.stop ≤ ((ts.take (blockSize t ts)).getLastD t).stop := by
  have hb : brace ∈ all := by decide
  cases found : closeOffset? (t :: ts) with
  | none =>
    right
    intro u hu
    rw [blockSize, found, Option.getD_none, List.take_length]
    exact Ordered.stop_le_getLastD ordered hu
  | some n =>
    left
    rw [blockSize, found, Option.getD_some]
    rw [closeOffset?_cons hb block] at found
    split at found
    · obtain ⟨m, search, rfl⟩ := Option.map_eq_some_iff.1 found
      obtain ⟨close, at_m, closes⟩ := exists_of_closeAfter search
      obtain ⟨lt, rfl⟩ := List.getElem?_eq_some_iff.1 at_m
      rw [← List.take_append_getElem lt, List.getLastD_concat]
      rw [isPunct, Bool.and_eq_true, decide_eq_true_eq] at closes
      simp [isIdentifier, closes.1]
    · cases found

theorem endsIn_scan (statement ts : List Token) (ordered : Ordered (statement.reverse ++ ts)) :
    ∀ f ∈ scan statement ts, EndsIn (statement.reverse ++ ts) f := by
  fun_induction scan statement ts with
  | case1 => simp
  | case2 statement t ts ends ih =>
    intro f hf
    have regroup : statement.reverse ++ t :: ts = (statement.reverse ++ [t]) ++ ts := by simp
    rw [regroup] at ordered ⊢
    exact (ih (ordered.sublist (List.sublist_append_right _ _)) f hf).append ordered
  | case3 statement t ts _ block n type name last first _ _ _ ih =>
    intro f hf
    have tail : Ordered (t :: ts) := ordered.sublist (List.sublist_append_right _ _)
    rcases List.mem_cons.1 hf with rfl | hf
    · have member : (ts.take n).getLastD t ∈ t :: ts :=
        ((List.take_sublist n ts).cons_cons t).mem List.getLastD_mem_cons
      refine EndsIn.append ?_ ordered
      exact ⟨_, member, rfl, blockSize_ends block tail⟩
    · have regroup : statement.reverse ++ t :: ts =
          (statement.reverse ++ t :: ts.take n) ++ ts.drop n := by simp
      rw [regroup] at ordered ⊢
      exact (ih (ordered.sublist (List.sublist_append_right _ _)) f hf).append ordered
  | case4 statement t ts _ _ n _ ih =>
    have regroup : ((ts.take n).reverse ++ t :: statement).reverse ++ ts.drop n =
        statement.reverse ++ t :: ts := by simp
    rw [regroup] at ih
    exact ih ordered
  | case5 statement t ts _ _ ih =>
    have regroup : (t :: statement).reverse ++ ts = statement.reverse ++ t :: ts := by simp
    rw [regroup] at ih
    exact ih ordered

theorem endsIn_find (t : Text) : ∀ f ∈ find t, EndsIn (significant t) f := by
  intro f hf
  obtain ⟨g, hg, rfl⟩ := List.mem_map.1 hf
  exact endsIn_scan [] (significant t) (ordered_significant t) g hg

end FunctionDef

namespace Declaration

open Statement FunctionDef

section Run

variable {source : Text} {stage : Stage} {functions : List FunctionDef} {P : Statement → Prop}
  {tokens : List Token}

def Fresh (ts : List Token) : Prop :=
  ∀ t, ts.getLast? = some t → t.isIdentifier = false

theorem fresh_afterStatement (pre : List Token) (t : Token) (ts : List Token) :
    ∃ skipped, ts = skipped ++ afterStatement (statementLength ts) ts ∧
      ∀ first us, afterStatement (statementLength ts) ts = first :: us →
        first.isIdentifier = true → Fresh (pre ++ t :: skipped) := by
  have split := List.take_append_drop (statementLength ts) ts
  unfold afterStatement
  cases rest : ts.drop (statementLength ts) with
  | nil => exact ⟨ts, by simp, nofun⟩
  | cons u rest' =>
    rw [rest] at split
    dsimp only
    by_cases ends : u.isPunct ';' = true
    · rw [if_pos ends]
      refine ⟨ts.take (statementLength ts) ++ [u], by simpa using split.symm, ?_⟩
      intro first us _ _ v last
      rw [← List.cons_append, ← List.append_assoc, List.getLast?_concat, Option.some.injEq] at last
      rw [isPunct, Bool.and_eq_true, decide_eq_true_eq] at ends
      simp [← last, isIdentifier, ends.1]
    · rw [if_neg ends]
      refine ⟨ts.take (statementLength ts), split.symm, ?_⟩
      intro first us same identifier
      obtain ⟨rfl, -⟩ := List.cons.inj same
      have at_end : ts[statementLength ts]? = some u := by
        rw [← List.head?_drop, rest, List.head?_cons]
      have directive := ends_of_statementLength at_end
      rw [isDirective_of_isIdentifier identifier, Bool.false_or] at directive
      exact absurd directive ends

theorem Passes.fresh (ordered : Ordered tokens) (ends : ∀ f ∈ functions, EndsIn tokens f)
    {stack stack' : Condition.Stack} {tags tags' : List (String × String)} {t : Token}
    {pre ts ts' : List Token} (cut : tokens = pre ++ t :: ts)
    (step : Passes source stage functions stack tags t ts stack' tags' ts') :
    ∃ skipped, ts = skipped ++ ts' ∧
      ∀ first us, ts' = first :: us → first.isIdentifier = true → Fresh (pre ++ t :: skipped) := by
  have single (other : t.isIdentifier = false) : Fresh (pre ++ t :: []) := by
    intro u last
    rw [List.getLast?_concat, Option.some.injEq] at last
    rwa [← last]
  cases step with
  | @function f inside =>
    refine ⟨ts.takeWhile fun u => u.start < f.stop, List.takeWhile_append_dropWhile.symm,
      fun first us rest _ u last => ?_⟩
    obtain ⟨skipped, skipped_eq⟩ := List.getLast?_eq_some_iff.1 last
    have whole : tokens = skipped ++ u :: first :: us := by
      rw [← List.singleton_append, ← List.append_assoc, ← skipped_eq, ← rest, List.append_assoc,
        List.cons_append, List.takeWhile_append_dropWhile, cut]
    have before_stop : u.start < f.stop := by
      rcases List.mem_cons.1 (List.mem_of_mem_getLast? (List.getLast?_append_cons .. ▸ last)) with
        rfl | member
      · have := List.find?_some inside
        rw [contains, Bool.and_eq_true, decide_eq_true_eq, decide_eq_true_eq] at this
        exact this.2
      · exact of_decide_eq_true (List.all_eq_true.1 List.all_takeWhile u member)
    have behind_stop : f.stop ≤ first.start := by
      have := List.head?_dropWhile_not (fun u : Token => decide (u.start < f.stop)) ts
      rw [rest, List.head?_cons] at this
      simpa using this
    obtain ⟨last, member, stop, final⟩ := ends f (List.mem_of_find?_eq_some inside)
    rw [whole] at member ordered final
    obtain ⟨-, pairs, across⟩ := List.pairwise_append.1 ordered.1
    -- The token that ends the function is the last one skipped.
    have here : last = u := by
      rcases List.mem_append.1 member with member | member
      · have := across last member u (by simp)
        omega
      · rcases List.mem_cons.1 member with here | member
        · exact here
        · have tail : Ordered (first :: us) :=
            ordered.sublist ((List.sublist_cons_self u _).trans (List.sublist_append_right skipped _))
          have filled := tail.2 last member
          have := tail.start_le_of_head? rfl member
          omega
    rcases final with other | final
    · rwa [← here]
    · have := final first (by simp)
      have := ordered.2 first (by simp)
      omega
  | directive _ directive =>
    refine ⟨[], rfl, fun _ _ _ _ => single ?_⟩
    have kind := of_decide_eq_true directive
    simp [isIdentifier, kind]
  | other _ _ no_identifier => exact ⟨[], rfl, fun _ _ _ _ => single no_identifier⟩
  | statement _ _ _ => exact fresh_afterStatement pre t ts

theorem Run.exists_statement (ordered : Ordered tokens) (ends : ∀ f ∈ functions, EndsIn tokens f)
    {stack : Condition.Stack} {tags : List (String × String)} {pre ts : List Token}
    {ds : List Declaration} (cut : tokens = pre ++ ts)
    (run : Run source stage functions P stack tags ts ds)
    (fresh : ∀ first us, ts = first :: us → first.isIdentifier = true → Fresh pre)
    {d : Declaration} (member : d ∈ ds) :
    ∃ front first us d₀ stack' tags', tokens = front ++ first :: us ∧ Fresh front ∧
      first.isIdentifier = true ∧ P (statementAt first us) ∧
      Compile.outcome (parse? source stage (statementAt first us)) = some (some d₀) ∧
      d = d₀.under stack' tags' := by
  induction run generalizing pre with
  | done => cases member
  | @pass _ _ _ _ t ts ts' ds step later ih =>
    obtain ⟨skipped, rfl, fresh'⟩ := step.fresh ordered ends cut
    exact ih (by rw [cut, List.append_assoc, List.cons_append]) fresh' member
  | @declaration stack tags t ts d' ds outside identifier found holds later ih =>
    rcases List.mem_cons.1 member with rfl | member
    · exact ⟨pre, t, ts, d', stack, tags, cut, fresh t ts rfl identifier, identifier, holds, found, rfl⟩
    · obtain ⟨skipped, split, fresh'⟩ := fresh_afterStatement pre t ts
      refine ih ?_ fresh' member
      rw [List.append_assoc, List.cons_append, ← split, cut]

end Run

end Declaration
end ShaderPass
