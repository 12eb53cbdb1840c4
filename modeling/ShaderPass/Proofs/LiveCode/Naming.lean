import ShaderPass.Directive
import ShaderPass.Proofs.LiveCode.Elimination

/-! What keeps a function alive: its name in a definition that stays. Elimination reads nothing but
the names and the definitions, so a macro defined outside of them keeps nothing alive. -/
namespace ShaderPass.LiveCode

def definitions (t : Text) (functions : List FunctionDef) : List (String × Text) :=
  functions.map fun f => (f.name, Text.slice f.start f.stop t)

def Retained.definitions (r : Retained) : List (String × Text) :=
  LiveCode.definitions r.text r.functions

theorem Stays.definition {t output : Text} {f g : FunctionDef} (h : Stays output 0 t f g)
    (ranged : Ranged t f) :
    (f.name, Text.slice f.start f.stop t) = (g.name, Text.slice g.start g.stop output) := by
  obtain ⟨name, -, x, y, rfl, start, stop, -⟩ := h
  have := ranged.start_le
  have := ranged.paramStop_le
  have len := Text.byteLen_slice ranged.start ranged.stop (by omega)
  rw [name, ← start, ← stop, ← len, ← start]
  exact congrArg _ (Text.slice_append _ _ _).symm

theorem definitions_eliminate (t : Text) (entry : String) :
    (eliminate t entry).definitions =
      ((definitions t (FunctionDef.find t)).zipIdx.filter
        (·.2 ∈ live (FunctionDef.find t) entry)).map Prod.fst := by
  let alive := live (FunctionDef.find t) entry
  have text : (eliminate t entry).text =
      Text.spliceFrom 0 (Text.dropBytes 0 t) (removals t alive (FunctionDef.find t).zipIdx) :=
    Text.splice_eq_spliceFrom (pairwise_start_removals t alive)
  have stays := stays_retain alive (Text.isBoundary_zero t) (Nat.le_refl 0)
    (FunctionDef.find t).zipIdx (follow_find t)
  rw [← text] at stays
  rw [Retained.definitions, definitions, definitions, List.zipIdx_map, List.filter_map, List.map_map,
    eq_comm, ← List.forall₂_eq_eq_eq, List.forall₂_map_left_iff, List.forall₂_map_right_iff]
  refine ((List.forall₂_and_left _ _).2 ⟨fun _ member => member, stays⟩).imp ?_
  rintro ⟨f, i⟩ g ⟨member, stays, -⟩
  have known := List.fst_mem_of_mem_zipIdx (List.mem_filter.1 member).1
  exact stays.definition (ranged_of_mem_find known)

def uses (names : List String) (definition : String × Text) : List Nat :=
  names.zipIdx.filterMap fun (name, i) =>
    if name ≠ definition.1 && Text.containsWord definition.2 name.toList then some i else none

theorem mem_uses_iff {names : List String} {definition : String × Text} {i : Nat} :
    i ∈ uses names definition ↔ ∃ name, names[i]? = some name ∧ name ≠ definition.1 ∧
      Text.containsWord definition.2 name.toList = true := by
  simp only [uses, List.mem_filterMap, Prod.exists, List.mem_zipIdx_iff_getElem?,
    Option.ite_none_right_eq_some, Option.some.injEq, Bool.and_eq_true, decide_eq_true_eq]
  constructor
  · rintro ⟨name, j, found, used, rfl⟩
    exact ⟨name, found, used⟩
  · rintro ⟨name, found, used⟩
    exact ⟨name, i, found, used, rfl⟩

theorem deps_eq_uses {t : Text} {f : FunctionDef} (known : f ∈ FunctionDef.find t) :
    f.deps = uses ((FunctionDef.find t).map FunctionDef.name)
      (f.name, Text.slice f.start f.stop t) := by
  obtain ⟨g, -, rfl⟩ := List.mem_map.1 known
  rw [FunctionDef.find, List.map_map, uses, List.zipIdx_map, List.filterMap_map]
  rfl

theorem map_name_deps_find (t : Text) :
    (FunctionDef.find t).map (fun f => (f.name, f.deps)) =
      (definitions t (FunctionDef.find t)).map fun d =>
        (d.1, uses ((definitions t (FunctionDef.find t)).map Prod.fst) d) := by
  rw [definitions, List.map_map, List.map_map]
  exact List.map_congr_left fun f known => congrArg _ (deps_eq_uses known)

theorem named_eq (functions : List FunctionDef) (name : String) :
    named functions name = (functions.map FunctionDef.name).zipIdx.filterMap
      fun (other, i) => if other = name then some i else none := by
  rw [named, List.zipIdx_map, List.filterMap_map]
  rfl

theorem live_congr {functions functions' : List FunctionDef}
    (same : functions.map (fun f => (f.name, f.deps)) = functions'.map fun f => (f.name, f.deps))
    (entry : String) : live functions entry = live functions' entry := by
  have names : functions.map FunctionDef.name = functions'.map FunctionDef.name := by
    have := congrArg (List.map Prod.fst) same
    rwa [List.map_map, List.map_map] at this
  have length : functions.length = functions'.length := by simpa using congrArg List.length names
  have named_same : named functions = named functions' := by
    funext name
    rw [named_eq, named_eq, names]
  have supports_same : supports functions = supports functions' := by
    funext i
    have at_i := congrArg (·[i]?) same
    simp only [List.getElem?_map] at at_i
    unfold supports
    cases found : functions[i]? <;> cases found' : functions'[i]? <;>
      simp_all
  rw [live, live, roots, roots, named_same, length, supports_same]

theorem mem_live_of_uses {t : Text} {entry : String} {f g : FunctionDef} {i j : Nat}
    (alive : i ∈ live (FunctionDef.find t) entry) (at_i : (FunctionDef.find t)[i]? = some g)
    (at_j : (FunctionDef.find t)[j]? = some f)
    (used : Text.containsWord (Text.slice g.start g.stop t) f.name.toList) :
    j ∈ live (FunctionDef.find t) entry := by
  have reached {k : Nat} : k ∈ live (FunctionDef.find t) entry ↔
      Reached (FunctionDef.find t) entry k :=
    mem_live_iff entry fun f hf j hj => lt_length_of_mem_deps hf hj
  rw [reached] at alive ⊢
  by_cases same : f.name = g.name
  · exact .overload alive at_i at_j same
  · refine .dep alive at_i ?_
    rw [deps_eq_uses (List.mem_of_getElem? at_i), mem_uses_iff]
    exact ⟨f.name, by rw [List.getElem?_map, at_j, Option.map_some], same, used⟩

theorem getElem?_definitions {t : Text} {i : Nat} {d : String × Text}
    (found : (definitions t (FunctionDef.find t))[i]? = some d) :
    ∃ f, (FunctionDef.find t)[i]? = some f ∧ (f.name, Text.slice f.start f.stop t) = d := by
  rwa [definitions, List.getElem?_map, Option.map_eq_some_iff] at found

/-- Elimination keeps every function that a definition it leaves names, with all functions of that
name; what stands outside of the definitions has no say in it. -/
theorem eliminate_keeps_named (t : Text) (entry : String) :
    (∀ d ∈ (eliminate t entry).definitions, ∀ f ∈ FunctionDef.find t,
      Text.containsWord d.2 f.name.toList →
        (eliminate t entry).definitions.filter (·.1 = f.name) =
          (definitions t (FunctionDef.find t)).filter (·.1 = f.name)) ∧
    ∀ t' : Text, definitions t' (FunctionDef.find t') = definitions t (FunctionDef.find t) →
      (eliminate t' entry).definitions = (eliminate t entry).definitions := by
  constructor
  · intro d kept f known used
    rw [definitions_eliminate] at kept ⊢
    obtain ⟨⟨_, i⟩, member, rfl⟩ := List.mem_map.1 kept
    obtain ⟨at_i, alive⟩ := List.mem_filter.1 member
    obtain ⟨g, at_i, rfl⟩ := getElem?_definitions (List.mem_zipIdx_iff_getElem?.1 at_i)
    nth_rewrite 2 [← List.zipIdx_map_fst 0 (definitions t (FunctionDef.find t))]
    rw [List.filter_map, List.filter_map, List.filter_filter]
    -- All functions of that name are live, so the test for liveness rejects none of them.
    refine congrArg _ (List.filter_congr fun ⟨d, j⟩ member => ?_)
    obtain ⟨f', at_j, rfl⟩ := getElem?_definitions (List.mem_zipIdx_iff_getElem?.1 member)
    by_cases same : f'.name = f.name
    · have := mem_live_of_uses (of_decide_eq_true alive) at_i at_j (same ▸ used)
      simp [this]
    · simp [same]
  · intro t' same
    have alive : live (FunctionDef.find t') entry = live (FunctionDef.find t) entry := by
      refine live_congr ?_ entry
      rw [map_name_deps_find, map_name_deps_find, same]
    rw [definitions_eliminate, definitions_eliminate, alive, same]

/-- The name in a definition counts also inside a directive; a directive in front counts for
nothing. -/
theorem eliminate_keeps_named_in_directive :
    let t := "float f() \x7b\x7d\nfloat g() \x7b\x7d\nvoid main() \x7b\n#define F f()\n\x7d".toList
    let d := ("main", "void main() \x7b\n#define F f()\n\x7d".toList)
    (d ∈ (eliminate t "main").definitions ∧ Text.containsWord d.2 "f".toList ∧
      (eliminate t "main").definitions.filter (·.1 = "f") = [("f", "float f() \x7b\x7d".toList)]) ∧
      (eliminate ("#define F g()\n".toList ++ t) "main").definitions =
        (eliminate t "main").definitions := by
  intro t d
  have kept : d ∈ (eliminate t "main").definitions := by decide +kernel
  have used : Text.containsWord d.2 "f".toList = true := by decide +kernel
  have known : FunctionDef.mk "f" "float" 0 12 9 [] ∈ FunctionDef.find t := by decide +kernel
  have same : definitions ("#define F g()\n".toList ++ t)
      (FunctionDef.find ("#define F g()\n".toList ++ t)) = definitions t (FunctionDef.find t) := by
    decide +kernel
  obtain ⟨keeps, blind⟩ := eliminate_keeps_named t "main"
  refine ⟨⟨kept, used, (keeps d kept _ known used).trans ?_⟩, blind _ same⟩
  decide +kernel

/-- Whether a token is the definition of a macro `shorthand` whose replacement contains `word`. -/
def isShorthandFor (shorthand word : String) (token : Token) : Bool :=
  token.isDirective && (Directive.parse? token.lexeme).any fun (directive, args) =>
    directive = "define" && (Text.spanIdent args).1 = shorthand.toList &&
      Text.containsWord (Text.spanIdent args).2 word.toList

/-- A function that is used through a macro alone, defined outside of every function, is removed. -/
theorem not_eliminate_keeps_shorthand :
    ¬ ∀ (t : Text) (entry shorthand : String), ∀ g ∈ (eliminate t entry).functions,
      Text.containsWord (Text.slice g.start g.stop (eliminate t entry).text) shorthand.toList →
        ∀ f ∈ FunctionDef.find t, ∀ token ∈ Token.significant t, isShorthandFor shorthand f.name token →
          (∀ f' ∈ FunctionDef.find t, f'.contains token.start = false) →
            ∃ g' ∈ (eliminate t entry).functions, g'.name = f.name := by
  intro keeps
  have := keeps
    "#define CALL helper()\nfloat helper() \x7b return 1.0; \x7d\nvoid main() \x7b CALL; \x7d\n".toList
    "main" "CALL"
  revert this
  decide +kernel

end ShaderPass.LiveCode
