import ShaderPass.Proofs.ConstExpr.Spelling
import ShaderPass.Proofs.Declaration.Variable
import ShaderPass.Proofs.Dialect.Correspondence

/-! The array lengths of variables that are declared anew. Only the count of the elements is written, so an
array of one element becomes a single variable, and a capacity that the engine fills in becomes zero. -/
namespace ShaderPass

open Token Text Compile

theorem ConstExpr.evaluate_toDigits {n : Nat} (small : n < 0x100000000) :
    evaluate (Nat.toDigits 10 n) none = .ok (n : Int) := by
  have fits : Fits n := by
    constructor
    · omega
    · omega
  have digits : ∀ c ∈ Nat.toDigits 10 n, c.isDigit = true := fun _ member => isDigit_of_mem_toDigits member
  have numeral := numeral_toDigits n
  obtain ⟨c, more, shape⟩ := List.exists_cons_of_ne_nil (Nat.toDigits_ne_nil (n := n) (b := 10))
  rw [shape] at digits numeral ⊢
  have spells : Spells (c :: more) (.int n) [] := by
    refine .int (digits c List.mem_cons_self) (fun d member => ?_) rfl numeral
    simp [isIdentChar, Char.isAlphanum, digits d (List.mem_cons_of_mem _ member)]
  have lexes := Lexes.lexeme spells .nil
  rw [List.append_nil] at lexes
  have derives : Derives 0 [.int n] (.literal n) := by
    iterate 7 apply Derives.tighter
    exact .literal n
  exact evaluate_of_evaluates none lexes derives (.literal fits)

namespace Legacy

open Declaration FunctionDef

/-- The storage qualifier that a variable is declared with anew: inputs, varyings, and opaque uniforms that
have a layout. -/
def storageOf? (d : Declaration) : Option String :=
  match d.category with
  | .vertexInput => some "attribute"
  | .varying => some "varying"
  | .block | .fragColor | .buffer => none
  | _ => d.layoutRange.map fun _ => "uniform"

/-- Whether an array suffix is there if an array length is, and denotes the same length: the same capacity
of the engine, or an expression with the same value. -/
def SameLength (len : Option Text) (suffix : Text) : Prop :=
  (suffix ≠ [] ↔ len ≠ none) ∧ ∀ l ∈ len, ∃ l', suffix = '[' :: (l' ++ [']']) ∧
    if isEngineCapacity l then l' = l
    else ∃ n, ConstExpr.evaluate l none = .ok n ∧ ConstExpr.evaluate l' none = .ok n

/-- Whether an array length is a constant other than one that a count can hold. -/
def IsPlural (len : Text) : Prop :=
  isEngineCapacity len = false ∧
    ∃ n : Nat, ConstExpr.evaluate len none = .ok (n : Int) ∧ n ≠ 1 ∧ n < 0x100000000

section Suffix

variable {len : Option Text} {count : Nat}

theorem sameLength_iff (counts : CountsAs len count) :
    SameLength len (arraySuffix count) ↔ ∀ l ∈ len, IsPlural l := by
  cases counts with
  | single => simp [SameLength, arraySuffix_one]
  | @capacity len capacity =>
    constructor
    · rintro ⟨-, same⟩
      obtain ⟨l', suffix, name⟩ := same len rfl
      rw [if_pos capacity] at name
      subst name
      -- A capacity starts with a letter, and zero is written.
      rw [arraySuffix_of_ne (by decide)] at suffix
      have zero : [] ++ ['0'] ++ [']'] = l' ++ [']'] := (List.cons.inj suffix).2
      rw [← List.append_cancel_right zero] at capacity
      cases capacity
    · intro plural
      have other := (plural len rfl).1
      rw [capacity] at other
      cases other
  | @constant len n other value fits =>
    constructor
    · rintro ⟨there, -⟩
      intro l member
      obtain rfl := Option.some.inj member
      refine ⟨other, count, value, ?_, fits⟩
      rintro rfl
      exact there.2 (Option.some_ne_none _) rfl
    · intro plural
      obtain ⟨-, m, value', several, -⟩ := plural len rfl
      have same : (m : Int) = count := Except.ok.inj (value'.symm.trans value)
      have several : count ≠ 1 := by omega
      rw [arraySuffix_of_ne several]
      refine ⟨by simp, fun l member => ⟨_, rfl, ?_⟩⟩
      obtain rfl := Option.some.inj member
      rw [if_neg (by rw [other]; decide)]
      exact ⟨count, value, ConstExpr.evaluate_toDigits fits⟩
  | @unknown len other no_value =>
    constructor
    · rintro ⟨there, -⟩
      exact absurd rfl (there.2 (Option.some_ne_none _))
    · intro plural
      obtain ⟨-, n, value, -, fits⟩ := plural len rfl
      exact absurd value (no_value n fits)

end Suffix

section Declare

variable {t : Text} {d : Declaration} {storage : String}

theorem replacement?_of_storageOf? (stored : storageOf? d = some storage) :
    replacement? t d = some (declare storage d.descriptor) ∧ d.category ≠ .block ∧
      d.category ≠ .buffer ∧ IsName storage.toList := by
  unfold storageOf? at stored
  unfold replacement?
  split at stored
  · rename_i input
    obtain rfl := Option.some.inj stored
    rw [input]
    exact ⟨rfl, by decide, by decide, isName_of_all (by decide) (by decide)⟩
  · rename_i varying
    obtain rfl := Option.some.inj stored
    rw [varying]
    exact ⟨rfl, by decide, by decide, isName_of_all (by decide) (by decide)⟩
  · cases stored
  · cases stored
  · cases stored
  · rename_i no_input no_varying no_block no_color no_buffer
    obtain ⟨range, at_range, rfl⟩ := Option.map_eq_some_iff.1 stored
    refine ⟨?_, no_block, no_buffer, isName_of_all (by decide) (by decide)⟩
    split
    · rename_i block
      exact absurd block no_block
    · rename_i input
      exact absurd input no_input
    · rename_i varying
      exact absurd varying no_varying
    · rename_i color
      exact absurd color no_color
    · rename_i buffer
      exact absurd buffer no_buffer
    · rw [at_range]
      rfl

theorem exists_reworded_arraySuffix {outputs : List (String × Nat)}
    (named : ∀ o ∈ outputs, IsName o.1.toList) {count : Nat} {rest v : Text}
    (h : Reworded (Exchanges outputs) (arraySuffix count ++ ';' :: rest) v) :
    ∃ y, v = arraySuffix count ++ ';' :: y ∧ Reworded (Exchanges outputs) rest y := by
  by_cases single : count = 1
  · subst single
    exact h.of_cons rfl
  have shape (rest : Text) : arraySuffix count ++ ';' :: rest =
      '[' :: (Nat.toDigits 10 count ++ ']' :: ';' :: rest) := by
    rw [arraySuffix_of_ne single]
    simp
  rw [shape] at h
  obtain ⟨v, rfl, opened⟩ := h.of_cons rfl
  obtain ⟨r, v, rfl, admits, behind⟩ := opened.of_word (isWord_toDigits count) rfl
  obtain ⟨v, rfl, closed⟩ := behind.of_cons rfl
  obtain ⟨y, rfl, later⟩ := closed.of_cons rfl
  have no_output : ¬ IsOutput outputs (Nat.toDigits 10 count) := by
    rintro ⟨o, ho, same⟩
    exact not_isName_toDigits count (same ▸ named o ho)
  rw [(admits.other no_output).resolve_right fun call =>
    not_isName_toDigits count (isName_of_mem_textureFunctions call.1)]
  exact ⟨y, (shape y).symm, later⟩

theorem exists_reworded_declaration {outputs : List (String × Nat)}
    (named : ∀ o ∈ outputs, IsName o.1.toList) {names : List Text} (isName : ∀ w ∈ names, IsName w)
    {count : Nat} {rest v : Text}
    (h : Reworded (Exchanges outputs) (joinWith [' '] names ++ (arraySuffix count ++ ';' :: rest)) v) :
    ∃ words y, v = words ++ (arraySuffix count ++ ';' :: y) ∧ Reworded (Exchanges outputs) rest y ∧
      Reworded (fun w more => Exchanges outputs w (more ++ (arraySuffix count ++ ';' :: rest)))
        (joinWith [' '] names) words ∧
      ((∀ w ∈ names, ¬ IsOutput outputs w) → words = joinWith [' '] names) := by
  obtain ⟨stop, more, tail, ends⟩ := exists_stop count rest
  have free : isFree (arraySuffix count ++ ';' :: rest).head? = true := by
    rw [tail]
    rcases ends with rfl | rfl <;> rfl
  obtain ⟨words, v, rfl, inner, behind⟩ := h.of_append (Or.inr free)
  obtain ⟨y, rfl, later⟩ := exists_reworded_arraySuffix named behind
  refine ⟨words, y, rfl, later, inner, fun apart => inner.joinWith_eq isName ?_⟩
  intro w hw rest' r follows admits
  -- A blank and a name follow, or the end of the words, so that no function is called.
  refine (admits.other (apart w hw)).resolve_right fun call => ?_
  rcases follows with rfl | ⟨v, more', name, rfl⟩
  · rw [List.nil_append, tail] at call
    exact not_opensCall_stop ends more call.2
  · rw [List.cons_append, List.append_assoc] at call
    exact not_opensCall_name name _ call.2

end Declare

section Main

variable {t : Text} {stage : Stage} {ds : List Declaration} {d : Declaration} {defines : List Define}
  {r s : Report} {u : Transcoded}

/-- Whether a result has words and an array suffix where a declaration stood. Words with the name of an
output are renamed. -/
def Redeclares (t : Text) (ds : List Declaration) (d : Declaration) (result : Text) (names : List Text)
    (suffix : Text) : Prop :=
  ∃ words, StandsFor t ds (d.start, d.stop) result (words ++ (suffix ++ [';'])) ∧
    Reworded (fun w more => Exchanges (outputsOf ds) w (more ++ (suffix ++ ';' :: splicedRest t ds d.stop)))
      (joinWith [' '] names) words ∧
    ((∀ w ∈ names, ¬ IsOutput (outputsOf ds) w) → words = joinWith [' '] names)

section Run

variable {P : Statement → Prop} (run : Run t stage (find t) P [] [] (significant t) ds)
include run

theorem splice_at_declaration (member : d ∈ ds) {r : String} (replaced : replacement? t d = some r) :
    splice t (replacements t ds) = splicedFront t ds d.start ++ splicedRest t ds d.start ∧
      splicedRest t ds d.start = r.toList ++ splicedRest t ds d.stop ∧
      isFree (splicedFront t ds d.start).getLast? = true := by
  have edit : (⟨d.start, d.stop, r.toList⟩ : Edit) ∈ replacements t ds :=
    List.mem_filterMap.2 ⟨d, member, by rw [replaced]; rfl⟩
  obtain ⟨cut, free⟩ := splice_eq_append run (freeAt_of_run run member) fun e he before => by
    obtain ⟨d', hd, replaced'⟩ := List.mem_filterMap.1 he
    obtain ⟨r', -, rfl⟩ := Option.map_eq_some_iff.1 replaced'
    by_contra across
    obtain rfl := eq_of_start_lt run hd member (Nat.le_of_lt before) (Nat.lt_of_not_le across)
    exact Nat.lt_irrefl _ before
  refine ⟨cut, ?_, free⟩
  exact spliceFrom_editsFrom_start run.slicesFrom_replacements edit
    fun e he => (freeAt_of_mem_replacements run he).2.2

end Run

/-- The declaration of an input, a varying or an opaque uniform that has a layout is written with a count of
elements, and has the same length exactly if there is no length or if it is a constant other than one. -/
theorem declared_length_kept_iff (transcoded : (transcode t stage defines).runWith r = (.ok u, s)) :
    ∃ ds, outcome (extract t stage (find t)) = some ds ∧ ∀ d ∈ ds, ∀ storage,
      storageOf? d = some storage → ∃ type name later count, DeclaredBy t d type name later ∧
        CountsAs (lengthText? t later) count ∧
        Redeclares t ds d u.text (declaration storage d.descriptor.precision type.name name.name)
          (arraySuffix count) ∧
        (SameLength (lengthText? t later) (arraySuffix count) ↔ ∀ l ∈ lengthText? t later, IsPlural l) := by
  obtain ⟨ds, extracted⟩ := exists_declarations transcoded
  have run := run_of_outcome extracted
  refine ⟨ds, extracted, fun d member storage stored => ?_⟩
  obtain ⟨replaced, no_block, no_buffer, is_storage⟩ := replacement?_of_storageOf? (t := t) stored
  obtain ⟨type, name, later, declared, precise, counts⟩ := run.exists_declaredBy member no_block no_buffer
  refine ⟨type, name, later, _, declared, counts, ?_, sameLength_iff counts⟩
  obtain ⟨cut, written, front_free⟩ := splice_at_declaration run member replaced
  have exchanged := reworded_transcode run extracted transcoded
  rw [cut] at exchanged
  obtain ⟨x, v, text, front, behind⟩ := exchanged.of_append (Or.inl front_free)
  rw [written, toList_declare] at behind
  simp only [List.append_assoc, List.singleton_append] at behind
  have is_type : IsName d.descriptor.type.toList := by
    obtain ⟨before, first, us, q, size, tokens, -, read⟩ := declared.statement
    have inside : type ∈ significant t := by
      rw [tokens]
      exact List.mem_append_right _ ((suffix_of_read read).mem List.mem_cons_self)
    exact declared.type.2 ▸ isName_name inside declared.type.1
  obtain ⟨words, y, rfl, rest, inner, same⟩ := exists_reworded_declaration
    (fun o => isName_of_mem_outputsOf run)
    (isName_of_mem_declaration is_storage precise is_type (isName_of_run run member)) behind
  rw [← declared.type.2, ← declared.name.2]
  exact ⟨words, ⟨x, y, by rw [text]; simp, front, rest⟩, inner, same⟩

def lengths : Text :=
  ("in vec4 a[1];\nin vec4 b[CC_MAX];\nin vec4 c[2];\n" ++
    "void main() \x7b gl_Position = a[0] + b[0] + c[1]; \x7d").toList

theorem exists_transcode_lengths : ∃ ds u s,
    outcome (extract lengths .vertex (find lengths)) = some ds ∧ outputsOf ds = [] ∧
    (ds.map fun d => (d.start, storageOf? d, d.descriptor.precision, d.descriptor.type,
      d.descriptor.name)) = [(0, some "attribute", none, "vec4", "a"),
        (14, some "attribute", none, "vec4", "b"), (33, some "attribute", none, "vec4", "c")] ∧
    (transcode lengths .vertex []).runWith {} = (.ok u, s) ∧
    u.text = ("attribute vec4 a;\nattribute vec4 b[0];\nattribute vec4 c[2];\n" ++
      "void main() \x7b gl_Position = a[0] + b[0] + c[1]; \x7d").toList := by
  have read : (outcome (extract lengths .vertex (find lengths))).map (fun ds =>
      ds.map fun d => (d.start, storageOf? d, d.descriptor.precision, d.descriptor.type,
        d.descriptor.name)) = some [(0, some "attribute", none, "vec4", "a"),
          (14, some "attribute", none, "vec4", "b"), (33, some "attribute", none, "vec4", "c")] := by
    decide +kernel
  obtain ⟨ds, u, s, extracted, outputs, -, transcoded, text⟩ := exists_transcode_of_no_call
    lengths .vertex []
    [⟨0, 13, "attribute vec4 a;".toList⟩, ⟨14, 32, "attribute vec4 b[0];".toList⟩,
      ⟨33, 46, "attribute vec4 c[2];".toList⟩]
    ("attribute vec4 a;\nattribute vec4 b[0];\nattribute vec4 c[2];\n" ++
      "void main() \x7b gl_Position = a[0] + b[0] + c[1]; \x7d").toList
    (by decide +kernel) (by
      rw [renameOutputs, splice_eq_spliceFrom (by simp)]
      decide +kernel) (by decide +kernel) [] {}
  rw [extracted, Option.map_some, Option.some.injEq] at read
  exact ⟨ds, u, s, extracted, outputs, read, transcoded, text⟩

theorem lengthText?_lengths {type name : Token} {later : List Token} {len : String}
    (declared : DeclaredBy lengths d type name later)
    (entry : (d.start, len) ∈ [(0, "1"), (14, "CC_MAX"), (33, "2")]) :
    lengthText? lengths later = some len.toList := by
  have each : ∀ q ∈ [(0, "1"), (14, "CC_MAX"), (33, "2")],
      (significant lengths).filter (q.1 ≤ ·.start) = ⟨.identifier, "in".toList, q.1⟩ ::
        ((significant lengths).filter (q.1 ≤ ·.start)).tail ∧
      (Qualifiers.read lengths {} (statementAt ⟨.identifier, "in".toList, q.1⟩
        ((significant lengths).filter (q.1 ≤ ·.start)).tail)).map
          (fun p => lengthText? lengths (p.2.tokens.drop 2)) = some (some q.2.toList) := by
    decide +kernel
  obtain ⟨here, read⟩ := each _ entry
  obtain ⟨p, at_p, tokens⟩ := Option.map_eq_some_iff.1 (declared.tokens here)
  rw [at_p, Option.map_some, tokens] at read
  exact Option.some.inj read

theorem declared_length_kept_iff_of_two : ∃ ds u s, (transcode lengths .vertex []).runWith {} = (.ok u, s) ∧
    ∃ d ∈ ds, d.descriptor.name = "c" ∧
      Redeclares lengths ds d u.text ["attribute".toList, "vec4".toList, "c".toList] "[2]".toList ∧
      SameLength (some "2".toList) "[2]".toList := by
  obtain ⟨ds, u, s, extracted, -, listed, transcoded, -⟩ := exists_transcode_lengths
  obtain ⟨ds', extracted', each⟩ := declared_length_kept_iff transcoded
  obtain rfl := Option.some.inj (extracted.symm.trans extracted')
  obtain ⟨d, member, here⟩ := List.mem_map.1 (listed ▸ show (33, some "attribute", none, "vec4", "c") ∈
    [(0, some "attribute", (none : Option String), "vec4", "a"), (14, some "attribute", none, "vec4", "b"),
      (33, some "attribute", none, "vec4", "c")] by decide)
  obtain ⟨start, storage, precision, d_type, d_name⟩ : _ ∧ _ ∧ _ ∧ _ ∧ _ := by
    simpa only [Prod.mk.injEq] using here
  obtain ⟨type, name, later, count, declared, counts, written, same⟩ := each d member _ storage
  have length : lengthText? lengths later = some "2".toList :=
    lengthText?_lengths declared (by rw [start]; decide)
  have value : ConstExpr.evaluate "2".toList none = .ok (2 : Nat) := by decide +kernel
  have two : count = 2 := (length ▸ counts).unique (.constant (by decide) value (by decide))
  rw [precision, ← declared.type.2, ← declared.name.2, d_type, d_name, two] at written
  rw [length, two] at same
  refine ⟨ds, u, s, transcoded, d, member, d_name, written, same.2 fun l hl => ?_⟩
  obtain rfl := Option.some.inj hl
  exact ⟨by decide, 2, value, by decide, by decide⟩

/-- An array of one element becomes a variable, and one of a capacity becomes an array without elements. -/
theorem not_declared_length_kept : ∃ ds u s,
    outcome (extract lengths .vertex (find lengths)) = some ds ∧
    (transcode lengths .vertex []).runWith {} = (.ok u, s) ∧
    (∃ d ∈ ds, ∃ type name later, storageOf? d = some "attribute" ∧ DeclaredBy lengths d type name later ∧
      d.descriptor.name = "a" ∧ lengthText? lengths later = some "1".toList) ∧
    (∃ d ∈ ds, ∃ type name later, storageOf? d = some "attribute" ∧ DeclaredBy lengths d type name later ∧
      d.descriptor.name = "b" ∧ lengthText? lengths later = some "CC_MAX".toList) ∧
    u.text = ("attribute vec4 a;\nattribute vec4 b[0];\nattribute vec4 c[2];\n" ++
      "void main() \x7b gl_Position = a[0] + b[0] + c[1]; \x7d").toList ∧
    ¬ SameLength (some "1".toList) [] ∧ ¬ SameLength (some "CC_MAX".toList) "[0]".toList := by
  obtain ⟨ds, u, s, extracted, -, listed, transcoded, text⟩ := exists_transcode_lengths
  have run := run_of_outcome extracted
  have declared_at (n : Nat) (name : String)
      (entry : (n, some "attribute", (none : Option String), "vec4", name) ∈
        ds.map fun d => (d.start, storageOf? d, d.descriptor.precision, d.descriptor.type,
          d.descriptor.name)) :
      ∃ d ∈ ds, d.start = n ∧ storageOf? d = some "attribute" ∧ d.descriptor.name = name ∧
        ∃ type name later, DeclaredBy lengths d type name later := by
    obtain ⟨d, member, here⟩ := List.mem_map.1 entry
    obtain ⟨start, storage, -, -, d_name⟩ : _ ∧ _ ∧ _ ∧ _ ∧ _ := by
      simpa only [Prod.mk.injEq] using here
    obtain ⟨-, no_block, no_buffer, -⟩ := replacement?_of_storageOf? (t := lengths) storage
    obtain ⟨type, name, later, declared, -⟩ := run.exists_declaredBy member no_block no_buffer
    exact ⟨d, member, start, storage, d_name, type, name, later, declared⟩
  rw [listed] at declared_at
  refine ⟨ds, u, s, extracted, transcoded, ?_, ?_, text, ?_, ?_⟩
  · obtain ⟨d, member, start, storage, d_name, type, name, later, declared⟩ :=
      declared_at 0 "a" (by decide)
    exact ⟨d, member, type, name, later, storage, declared, d_name,
      lengthText?_lengths declared (by rw [start]; decide)⟩
  · obtain ⟨d, member, start, storage, d_name, type, name, later, declared⟩ :=
      declared_at 14 "b" (by decide)
    exact ⟨d, member, type, name, later, storage, declared, d_name,
      lengthText?_lengths declared (by rw [start]; decide)⟩
  · have one : ConstExpr.evaluate "1".toList none = .ok (1 : Nat) := by decide +kernel
    refine mt (sameLength_iff (.constant (by decide) one (by decide))).1 fun plural => ?_
    obtain ⟨-, n, value, several, -⟩ := plural _ rfl
    exact several (Int.ofNat_inj.1 (Except.ok.inj (value.symm.trans one)))
  · refine mt (sameLength_iff (.capacity (by decide))).1 fun plural => ?_
    exact absurd (plural _ rfl).1 (by decide)

end Main

end Legacy

end ShaderPass
