import ShaderPass.Proofs.Declaration.Extraction
import ShaderPass.Proofs.Define.Scanning
import ShaderPass.Proofs.Text.Lines
import ShaderPass.Proofs.Token.Cutting

/-! The conditions of declarations are read off tokens, and the defines of a text off its lines. The
two agree where every directive that tests a define has a line to itself. -/
namespace ShaderPass

namespace Token

def standsAlone (t : Text) (k : Token) : Bool :=
  !k.lexeme.contains '\n' && ((Text.takeBytes k.start t).reverse.takeWhile (· ≠ '\n')).all isBlank

theorem exists_of_directive {t : Text} {k : Token} (member : k ∈ significant t)
    (directive : k.isDirective = true) : ∃ u w, t = u ++ (k.lexeme ++ w) ∧
      Text.byteLen u = k.start ∧ (w = [] ∨ ∃ v, w = '\n' :: v) := by
  obtain ⟨front, later, tokens⟩ := List.append_of_mem member
  obtain ⟨qs, rs, cut, -, start, -⟩ := exists_of_sig_eq tokens
  refine ⟨flat qs, flat rs, ?_, by omega, ?_⟩
  · rw [← flat_cons k.kind, ← flat_append, ← cut]
    exact (flatten_pieces _ _).symm
  · cases rest : flat rs with
    | nil => exact Or.inl rfl
    | cons c v =>
      obtain ⟨other, suffix⟩ := exists_pieces_suffix cut
      rw [flat_cons, rest] at suffix
      obtain ⟨a, s, -, first, -⟩ := classify_of_pieces (by simp) suffix
      rw [show k.kind = .directive from of_decide_eq_true directive] at first
      rw [eq_lineFeed_of_directive first]
      exact Or.inr ⟨v, rfl⟩

theorem exists_line_of_standsAlone {t : Text} {k : Token} (member : k ∈ significant t)
    (directive : k.isDirective = true) (alone : standsAlone t k = true) :
    ∃ line ∈ Text.lines t, Directive.parse? line = Directive.parse? k.lexeme := by
  obtain ⟨one_line, blank⟩ := Bool.and_eq_true_iff.1 alone
  obtain ⟨c, x, lexeme, -⟩ := exists_cons_of_mem_significant member
  obtain ⟨u, w, text, start, after⟩ := exists_of_directive member directive
  obtain ⟨v, split, before⟩ := Text.exists_eq_append_lastLine u
  rw [← start, text, Text.takeBytes_byteLen_append] at blank
  -- the line is what precedes the directive on it and the directive itself
  let line := (u.reverse.takeWhile (· ≠ '\n')).reverse ++ k.lexeme
  have parsed : Directive.parse? line = Directive.parse? k.lexeme := by
    apply Directive.parse?_blank_append
    intro c preceding
    exact List.all_eq_true.1 blank c (List.mem_reverse.1 preceding)
  have no_feed : '\n' ∉ line := by
    intro feed
    rcases List.mem_append.1 feed with preceding | inside
    · have := List.all_eq_true.1 List.all_takeWhile _ (List.mem_reverse.1 preceding)
      simp at this
    · simp [inside] at one_line
  have piece : line ∈ Text.feedLines t := by
    have whole := Text.mem_splitOn no_feed before after
    rwa [List.append_assoc, ← List.append_assoc v, ← split, ← text] at whole
  have some_text : line ≠ [] := by simp [line, lexeme]
  rcases Text.mem_linesOf piece some_text with listed | listed
  · exact ⟨line, listed, parsed⟩
  · exact ⟨Text.dropReturn line, listed, (Directive.parse?_dropReturn line).trans parsed⟩

end Token

namespace Declaration

open Compile

variable {source : Text} {stage : Stage} {functions : List FunctionDef}

def TestedBy (functions : List FunctionDef) (tokens : List Token) (name : String) : Prop :=
  ∃ k ∈ tokens, k.isDirective = true ∧ functions.find? (·.contains k.start) = none ∧
    name ∈ Define.tested k.lexeme

theorem Passes.testedBy {tokens : List Token} {stack stack' : Condition.Stack}
    {tags tags' : List (String × String)} {t : Token} {ts ts' : List Token}
    (step : Passes source stage functions stack tags t ts stack' tags' ts') (here : t ∈ tokens)
    (known : ∀ name ∈ stack.flatten, TestedBy functions tokens name) :
    ∀ name ∈ stack'.flatten, TestedBy functions tokens name := by
  cases step with
  | function _ => exact known
  | directive outside directive =>
    intro name member
    rcases Condition.Stack.mem_flatten_update member with before | tests
    · exact known name before
    · exact ⟨t, here, directive, outside, tests⟩
  | other _ _ _ => exact known
  | statement _ _ _ => exact known

theorem Run.testedBy {P : Statement → Prop} {tokens : List Token} {stack : Condition.Stack}
    {tags : List (String × String)} {ts : List Token} {ds : List Declaration}
    (run : Run source stage functions P stack tags ts ds) (among : ts ⊆ tokens)
    (known : ∀ name ∈ stack.flatten, TestedBy functions tokens name) :
    ∀ d ∈ ds, ∀ name ∈ d.descriptor.defines, TestedBy functions tokens name := by
  induction run with
  | done stack tags => simp
  | @pass stack stack' tags tags' t ts ts' ds step later ih =>
    apply ih
    · exact fun k member => among (List.mem_cons_of_mem t (step.suffix.subset member))
    · exact step.testedBy (among List.mem_cons_self) known
  | @declaration stack tags t ts d ds outside identifier found holds later ih =>
    intro d' member name enclosing
    rcases List.mem_cons.1 member with rfl | member
    · exact known name (Condition.Stack.mem_identifiers.1 enclosing)
    · have rest := afterStatement_suffix (statementLength ts) ts
      exact ih (fun k member => among (List.mem_cons_of_mem t (rest.subset member))) known d' member
        name enclosing

/-- Where every directive that tests a define stands alone, the conditions of all declarations are
among the defines of the text. -/
theorem defines_scanned (t : Text) (stage : Stage) {r s : Report} {ds : List Declaration}
    (extracted : (extract t stage (FunctionDef.find t)).runWith r = (.ok ds, s))
    (alone : ∀ k ∈ Token.significant t, k.isDirective = true →
      (FunctionDef.find t).find? (·.contains k.start) = none → Define.tested k.lexeme ≠ [] →
        Token.standsAlone t k = true) :
    ∀ d ∈ ds, ∀ name ∈ d.descriptor.defines, ∃ define ∈ Define.scan t, define.name = name := by
  intro d member name enclosing
  have value := (composed_extractFrom _ _ _ _ _ _).outcome_of_ok extracted
  obtain ⟨k, among, directive, outside, tests⟩ :=
    (run_of_outcome value).testedBy (List.Subset.refl _) (by simp) d member name enclosing
  obtain ⟨line, listed, parsed⟩ := Token.exists_line_of_standsAlone among directive
    (alone k among directive outside (List.ne_nil_of_mem tests))
  have known : name ∈ Define.names (Define.scan t) :=
    Define.mem_names_scan listed (Define.tested_of_parse? parsed ▸ tests)
  exact List.mem_map.1 known

theorem defines_scanned_indented :
    let t := "  #if A && B > 1\r\nuniform sampler2D u;\n#endif".toList
    ∃ ds s, (extract t .fragment (FunctionDef.find t)).runWith {} = (.ok ds, s) ∧
      ds.map (fun d => d.descriptor.defines) = [["A", "B"]] ∧
      ∀ d ∈ ds, ∀ name ∈ d.descriptor.defines, ∃ define ∈ Define.scan t, define.name = name := by
  intro t
  have conditions : ((extract t .fragment (FunctionDef.find t)).runWith {}).1.toOption.map
      (List.map fun d => d.descriptor.defines) = some [["A", "B"]] := by decide +kernel
  rcases run : (extract t .fragment (FunctionDef.find t)).runWith {} with ⟨result, s⟩
  rw [run] at conditions
  cases result with
  | error failure => cases conditions
  | ok ds =>
    refine ⟨ds, s, rfl, Option.some.inj conditions, ?_⟩
    exact defines_scanned t .fragment run (by decide +kernel)

/-- A condition on two lines is one condition of the declaration, but only its first line is searched
for defines. -/
theorem not_defines_scanned :
    let t := "#if A \\\n && B\nuniform sampler2D u;\n#endif".toList
    ∃ ds s, (extract t .fragment (FunctionDef.find t)).runWith {} = (.ok ds, s) ∧
      ¬ ∀ d ∈ ds, ∀ name ∈ d.descriptor.defines, ∃ define ∈ Define.scan t, define.name = name := by
  intro t
  have conditions : ((extract t .fragment (FunctionDef.find t)).runWith {}).1.toOption.map
      (List.map fun d => d.descriptor.defines) = some [["A", "B"]] := by decide +kernel
  have listed : Define.names (Define.scan t) = ["A"] := by decide +kernel
  rcases run : (extract t .fragment (FunctionDef.find t)).runWith {} with ⟨result, s⟩
  rw [run] at conditions
  cases result with
  | error failure => cases conditions
  | ok ds =>
    refine ⟨ds, s, rfl, fun agree => ?_⟩
    obtain ⟨d, member, defines⟩ := List.mem_map.1
      (show ["A", "B"] ∈ ds.map fun d => d.descriptor.defines by
        rw [Option.some.inj conditions]
        exact List.mem_singleton_self _)
    have known : "B" ∈ Define.names (Define.scan t) :=
      List.mem_map.2 (agree d member "B" (by simp [defines]))
    rw [listed] at known
    simp at known

end Declaration

end ShaderPass
