import ShaderPass.Proofs.Declaration.Declarators
import ShaderPass.Proofs.Declaration.Splicing

/-! The variable that a statement declares: behind its qualifiers come the type, the name and the array
length, and the count of its elements is read off the text between the square brackets. -/
namespace ShaderPass.Declaration

open Token Statement FunctionDef Compile

def lengthText? (source : Text) (tokens : List Token) : Option Text :=
  if tokens.head?.any (Token.isPunct '[') then (bracketed? source tokens).map fun inner => Text.trim inner.1
  else none

/-- The count of elements for an array length. No length and a length that is no constant count as one, and
a capacity that the engine fills in as zero. -/
inductive CountsAs : Option Text → Nat → Prop
  | single : CountsAs none 1
  | capacity {len : Text} (capacity : isEngineCapacity len = true) : CountsAs (some len) 0
  | constant {len : Text} {n : Nat} (other : isEngineCapacity len = false)
    (value : ConstExpr.evaluate len none = .ok n) (fits : n < 0x100000000) : CountsAs (some len) n
  | unknown {len : Text} (other : isEngineCapacity len = false)
    (no_value : ∀ n : Nat, n < 0x100000000 → ConstExpr.evaluate len none ≠ .ok n) : CountsAs (some len) 1

/-- Whether a declaration is made by a statement that goes on with a type, a name and further tokens
behind its qualifiers. -/
structure DeclaredBy (t : Text) (d : Declaration) (type name : Token) (later : List Token) : Prop where
  statement : ∃ front first us q size, significant t = front ++ first :: us ∧ d.start = first.start ∧
    Qualifiers.read t {} (statementAt first us) = some (q, ⟨type :: name :: later, size⟩)
  type : type.isIdentifier = true ∧ d.descriptor.type = type.name
  name : name.isIdentifier = true ∧ d.descriptor.name = name.name

section Length

variable {source : Text}

theorem CountsAs.unique {len : Option Text} {m n : Nat} (hm : CountsAs len m) (hn : CountsAs len n) :
    m = n := by
  cases hm with
  | single =>
    cases hn
    rfl
  | capacity capacity =>
    cases hn with
    | capacity => rfl
    | constant other => simp [capacity] at other
    | unknown other => simp [capacity] at other
  | constant other value fits =>
    cases hn with
    | capacity capacity => simp [capacity] at other
    | constant _ value' => exact Int.ofNat_inj.1 (Except.ok.inj (value.symm.trans value'))
    | unknown _ no_value => exact absurd value (no_value _ fits)
  | unknown other no_value =>
    cases hn with
    | capacity capacity => simp [capacity] at other
    | constant _ value fits => exact absurd value (no_value _ fits)
    | unknown => rfl

theorem countsAs_of_arrayLength {tokens : List Token} {length : Option String × Nat}
    (read : outcome (arrayLength source false tokens) = some length) :
    CountsAs ((bracketed? source tokens).map fun inner => Text.trim inner.1) length.2 := by
  unfold arrayLength at read
  cases brackets : bracketed? source tokens with
  | none =>
    rw [brackets] at read
    obtain rfl := Option.some.inj read
    exact .single
  | some inner =>
    rw [brackets] at read
    dsimp only at read
    rw [if_neg (by simp)] at read
    cases capacity : isEngineCapacity (Text.trim inner.1) with
    | true =>
      rw [if_pos capacity] at read
      obtain rfl := Option.some.inj read
      exact .capacity capacity
    | false =>
      rw [if_neg (by rw [capacity]; decide)] at read
      cases value : ConstExpr.evaluate (Text.trim inner.1) none with
      | ok n =>
        rw [value] at read
        dsimp only at read
        split at read
        · rename_i fits
          rw [Bool.and_eq_true, decide_eq_true_eq, decide_eq_true_eq] at fits
          obtain rfl := Option.some.inj read
          obtain ⟨m, rfl⟩ := Int.eq_ofNat_of_zero_le fits.1
          exact .constant capacity value (by omega)
        · rename_i large
          rw [outcome_error_bind fun _ => steady_pure _] at read
          obtain rfl := Option.some.inj read
          refine .unknown capacity fun m fits same => large ?_
          rw [value] at same
          obtain rfl := Except.ok.inj same
          rw [Bool.and_eq_true, decide_eq_true_eq, decide_eq_true_eq]
          omega
      | error fault =>
        rw [value] at read
        dsimp only at read
        rw [outcome_error_bind fun _ => steady_pure _] at read
        obtain rfl := Option.some.inj read
        refine .unknown capacity fun m _ same => ?_
        rw [value] at same
        cases same

end Length

section Reading

variable {source : Text} {stage : Stage} {s r : Statement} {q p : Qualifiers} {d : Declaration}

theorem precise_of_read (read : Qualifiers.read source q s = some (p, r))
    (precise : ∀ x ∈ q.precision, x ∈ precisions) : ∀ x ∈ p.precision, x ∈ precisions := by
  refine read_induction (motive := fun q _ => (∀ x ∈ q.precision, x ∈ precisions) →
    ∀ x ∈ p.precision, x ∈ precisions) id ?_ (fun _ _ _ _ _ _ _ ih => ih) read precise
  intro q q' s t _ noted ih precise
  obtain ⟨q'', noted', -, precision⟩ := exists_note? (q := q) (mem_qualifierWords noted)
  obtain rfl := Option.some.inj (noted.symm.trans noted')
  refine ih fun x hx => ?_
  rcases precision with same | ⟨y, listed, same⟩
  · exact precise x (same ▸ hx)
  · rw [same, Option.mem_some] at hx
    exact hx ▸ listed

theorem exists_cons_of_ident? {name : String} (named : s.ident? = some name) :
    ∃ k ts size, s = ⟨k :: ts, size + 1⟩ ∧ k.isIdentifier = true ∧ name = k.name := by
  obtain ⟨k, head, rfl⟩ := Option.map_eq_some_iff.1 named
  obtain ⟨head, identifier⟩ := Option.filter_eq_some_iff.1 head
  obtain ⟨ts, size, rfl⟩ := Qualifiers.exists_of_head? head
  exact ⟨k, ts, size, rfl, identifier, rfl⟩

theorem exists_variable_of_body? {storage : Storage} {line : Nat} {found : Category × Descriptor}
    (read : outcome (body? source stage q storage line s) = some (some found))
    (no_block : found.1 ≠ .block) (no_buffer : found.1 ≠ .buffer) :
    ∃ type name later size, s = ⟨type :: name :: later, size + 2⟩ ∧
      (type.isIdentifier = true ∧ found.2.type = type.name) ∧
      (name.isIdentifier = true ∧ found.2.name = name.name) ∧ found.2.precision = q.precision ∧
      (if Statement.startsWith ⟨later, size⟩ '[' then
        (outcome (arrayLength source false later)).map Prod.snd else some 1) = some found.2.count := by
  obtain ⟨type, typed⟩ := Option.ne_none_iff_exists'.1 (ident?_ne_none_of_body? read)
  cases block : (s.drop 1).startsWith '\x7b' with
  | true =>
    rw [outcome_body?_of_block _ _ _ _ _ typed block] at read
    split at read
    · rename_i category close kind _
      obtain ⟨ms, -, made⟩ := Option.bind_eq_some_iff.1 read
      have same : found.1 = category := by
        split at made
        · cases made
        · obtain rfl := Option.some.inj (Option.some.inj made)
          rfl
      cases storage with
      | uniform => exact absurd (same.trans (Option.some.inj kind).symm) no_block
      | buffer => exact absurd (same.trans (Option.some.inj kind).symm) no_buffer
      | _ => cases kind
    · cases read
  | false =>
    rw [outcome_body?_of_variable _ _ _ _ _ typed block] at read
    split at read
    · cases read
    · rename_i name named
      obtain ⟨category, -, read⟩ := Option.bind_eq_some_iff.1 read
      split at read
      · cases read
      · obtain ⟨count, counted, made⟩ := Option.map_eq_some_iff.1 read
        obtain rfl := Option.some.inj made
        obtain ⟨k, ts, size, rfl, is_type, rfl⟩ := exists_cons_of_ident? typed
        obtain ⟨k', later, size', same, is_name, rfl⟩ := exists_cons_of_ident? named
        obtain ⟨rfl, rfl⟩ := Statement.mk.inj (show Statement.mk ts size = _ from same)
        exact ⟨k, k', later, size', rfl, ⟨is_type, rfl⟩, ⟨is_name, rfl⟩, rfl, counted⟩

theorem startsWith_of_read {first type name : Token} {us later : List Token} {size : Nat}
    (read : Qualifiers.read source q (statementAt first us) = some (p, ⟨type :: name :: later, size + 2⟩)) :
    Statement.startsWith ⟨later, size⟩ '[' = later.head?.any (Token.isPunct '[') := by
  obtain ⟨n, rest⟩ := exists_drop_of_read read
  obtain ⟨tokens, length⟩ := Statement.mk.inj rest
  cases size with
  | succ size => cases later <;> rfl
  | zero =>
    have index : n + 2 = statementLength us + 1 := by
      simp only [statementAt] at length
      omega
    have behind : later = us.drop (statementLength us) := by
      have cut := congrArg (List.drop 2) tokens
      simp only [statementAt, List.drop_drop] at cut
      rw [index, List.drop_succ_cons] at cut
      exact cut
    -- What follows the name ends the statement.
    have no_bracket : later.head?.any (Token.isPunct '[') = false := by
      cases at_end : later.head? with
      | none => rfl
      | some k =>
        rw [behind, List.head?_drop] at at_end
        have ends := ends_of_statementLength at_end
        refine Bool.eq_false_iff.2 fun bracket => ?_
        have := isInner_of_isPunct (show k.isPunct '[' = true from bracket) (by decide) (by decide)
        simp [this.1, this.2.1] at ends
    rw [no_bracket]
    rfl

theorem filter_start_le {front us : List Token} {first : Token} (ordered : Ordered (front ++ first :: us)) :
    (front ++ first :: us).filter (first.start ≤ ·.start) = first :: us := by
  obtain ⟨-, behind, across⟩ := List.pairwise_append.1 ordered.1
  rw [List.filter_append, List.filter_eq_nil_iff.2, List.nil_append, List.filter_eq_self]
  · intro k hk
    have later : Ordered (first :: us) := ordered.sublist (List.sublist_append_right _ _)
    exact decide_eq_true (later.start_le_of_head? rfl hk)
  · intro k hk
    have before := across k hk first List.mem_cons_self
    have filled := ordered.2 k (List.mem_append_left _ hk)
    simp only [decide_eq_true_eq]
    omega

theorem DeclaredBy.tokens {t : Text} {type name first : Token} {later us : List Token}
    (declared : DeclaredBy t d type name later)
    (here : (significant t).filter (d.start ≤ ·.start) = first :: us) :
    (Qualifiers.read t {} (statementAt first us)).map (·.2.tokens) = some (type :: name :: later) := by
  obtain ⟨front, first', us', q, size, cut, start, read⟩ := declared.statement
  have ordered := ordered_significant t
  rw [cut] at ordered here
  rw [start, filter_start_le ordered] at here
  obtain ⟨rfl, rfl⟩ := List.cons.inj here
  rw [read]
  rfl

/-- Each declaration outside blocks is made by a statement, and its count is that of the array length
behind the name. -/
theorem Run.exists_declaredBy {t : Text} {ds : List Declaration} {P : Statement → Prop}
    (run : Run t stage (find t) P [] [] (significant t) ds) (member : d ∈ ds)
    (no_block : d.category ≠ .block) (no_buffer : d.category ≠ .buffer) :
    ∃ type name later, DeclaredBy t d type name later ∧
      (∀ p ∈ d.descriptor.precision, p ∈ precisions) ∧
      CountsAs (lengthText? t later) d.descriptor.count := by
  obtain ⟨front, first, us, d₀, stack, tags, cut, -, -, -, parsed, rfl⟩ :=
    run.exists_statement (ordered_significant t) (endsIn_find t) (List.nil_append _).symm
      (fun _ _ _ _ _ last => by cases last) member
  obtain ⟨q, rest, storage, range, found, read, -, body, rfl⟩ := exists_body_of_parse? rfl parsed
  obtain ⟨type, name, later, size, rfl, is_type, is_name, precision, counted⟩ :=
    exists_variable_of_body? body no_block no_buffer
  refine ⟨type, name, later, ⟨⟨front, first, us, q, size + 2, cut, rfl, read⟩, is_type, is_name⟩, ?_, ?_⟩
  · have precise := precise_of_read read fun x hx => by cases hx
    exact fun x hx => precise x (precision ▸ hx)
  · rw [startsWith_of_read read] at counted
    unfold lengthText?
    split at counted
    · rename_i bracket
      rw [if_pos bracket]
      obtain ⟨length, made, same⟩ := Option.map_eq_some_iff.1 counted
      have := countsAs_of_arrayLength made
      rwa [same] at this
    · rename_i no_bracket
      rw [if_neg no_bracket]
      have one : 1 = found.2.count := Option.some.inj counted
      show CountsAs none found.2.count
      rw [← one]
      exact .single

end Reading

end ShaderPass.Declaration
