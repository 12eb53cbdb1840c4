import ShaderPass.Proofs.Declaration.Variable
import ShaderPass.Proofs.Dialect.TextureCalls

/-! What transcoding keeps of the variables that a shader declares: inputs, outputs and the members of
uniform blocks are declared in the older language, and fragment outputs become builtin variables. -/
namespace ShaderPass

open Token ShaderPass.Bracket Compile

namespace Declaration

open FunctionDef Statement

section Names

variable {t source : Text} {stage : Stage} {functions : List FunctionDef} {P : Statement → Prop}

theorem exists_name_of_body? {q : Qualifiers} {storage : Storage} {line : Nat} {rest : Statement}
    {found : Category × Descriptor}
    (body : outcome (body? source stage q storage line rest) = some (some found)) :
    ∃ k ∈ rest.tokens, k.isIdentifier = true ∧ found.2.name = k.name := by
  obtain ⟨type, typed⟩ := Option.ne_none_iff_exists'.1 (ident?_ne_none_of_body? body)
  cases block : (rest.drop 1).startsWith '\x7b' with
  | true =>
    rw [outcome_body?_of_block _ _ _ _ _ typed block] at body
    split at body
    · obtain ⟨ms, -, made⟩ := Option.bind_eq_some_iff.1 body
      split at made
      · cases made
      · obtain rfl := Option.some.inj (Option.some.inj made)
        obtain ⟨k, ts, size, rfl, identifier, rfl⟩ := exists_cons_of_ident? typed
        exact ⟨k, List.mem_cons_self, identifier, rfl⟩
    · cases body
  | false =>
    rw [outcome_body?_of_variable _ _ _ _ _ typed block] at body
    split at body
    · cases body
    · rename_i name named
      obtain ⟨category, -, made⟩ := Option.bind_eq_some_iff.1 body
      split at made
      · cases made
      · obtain ⟨count, -, made⟩ := Option.map_eq_some_iff.1 made
        obtain rfl := Option.some.inj made
        obtain ⟨k, ts, size, behind, identifier, rfl⟩ := exists_cons_of_ident? named
        have tokens : rest.tokens.drop 1 = k :: ts := congrArg Statement.tokens behind
        exact ⟨k, List.mem_of_mem_drop (tokens ▸ List.mem_cons_self), identifier, rfl⟩

theorem exists_name_of_parse? {s : Statement} {first : Token} (head : s.tokens.head? = some first)
    {d : Declaration} (parsed : outcome (parse? source stage s) = some (some d)) :
    ∃ k ∈ s.tokens, k.isIdentifier = true ∧ d.descriptor.name = k.name := by
  obtain ⟨q, rest, storage, range, found, read, -, body, rfl⟩ := exists_body_of_parse? head parsed
  obtain ⟨k, member, named⟩ := exists_name_of_body? body
  exact ⟨k, (suffix_of_read read).mem member, named⟩

theorem Run.exists_name {stack : Condition.Stack} {tags : List (String × String)} {ts : List Token}
    {ds : List Declaration} (run : Run source stage functions P stack tags ts ds) {d : Declaration}
    (member : d ∈ ds) : ∃ k ∈ ts, k.isIdentifier = true ∧ d.descriptor.name = k.name := by
  induction run with
  | done => cases member
  | pass step later ih =>
    obtain ⟨k, hk, named⟩ := ih member
    exact ⟨k, List.mem_cons_of_mem _ (step.suffix.mem hk), named⟩
  | @declaration stack tags t ts d' ds _ identifier found _ later ih =>
    rcases List.mem_cons.1 member with rfl | member
    · exact exists_name_of_parse? rfl found
    · obtain ⟨k, hk, named⟩ := ih member
      have suffix := afterStatement_suffix (statementLength ts) ts
      exact ⟨k, List.mem_cons_of_mem _ (suffix.mem hk), named⟩

theorem isName_name {k : Token} (member : k ∈ significant t) (identifier : k.isIdentifier = true) :
    Text.IsName k.name.toList := by
  rw [Token.name, String.toList_ofList]
  exact (isName_of_isIdentifier member identifier).1

theorem TopLevel.isName {front behind : List Token} {first : Token}
    (top : TopLevel t front first behind) {k : Token} (member : k ∈ first :: behind)
    (identifier : k.isIdentifier = true) : Text.IsName k.name.toList :=
  isName_name (by rw [top.tokens]; exact List.mem_append_right _ member) identifier

end Names

end Declaration

namespace Legacy

open Text Declaration FunctionDef

/-- Whether some words stand in a text as a declaration, up to its end or an array length. -/
def Declares (t : Text) (words : List Text) : Prop :=
  ∃ before stop after, t = before ++ (joinWith [' '] words ++ stop :: after) ∧
    isFree before.getLast? = true ∧ (stop = ';' ∨ stop = '[')

section Declares

variable {t u : Text} {words : List Text}

theorem isFree_getLast?_append {s : Text} (hs : isFree s.getLast? = true)
    (hu : isFree u.getLast? = true) : isFree (s ++ u).getLast? = true := by
  rw [List.getLast?_append]
  cases at_last : u.getLast? with
  | none => exact hs
  | some c =>
    rw [at_last] at hu
    exact hu

theorem Declares.append {before : Text} (free : isFree before.getLast? = true)
    (h : Declares t words) (after : Text) : Declares (before ++ (t ++ after)) words := by
  obtain ⟨front, stop, rest, rfl, free', ends⟩ := h
  exact ⟨before ++ front, stop, rest ++ after, by simp, isFree_getLast?_append free free', ends⟩

theorem Declares.reworded {R : Text → Text → Text → Prop} (h : Declares t words)
    (named : ∀ w ∈ words, IsName w)
    (kept : ∀ w ∈ words, ∀ rest r, (∃ stop more, (stop = ';' ∨ stop = '[') ∧ rest = stop :: more) ∨
      (∃ v more, IsName v ∧ rest = ' ' :: (v ++ more)) → R w rest r → r = w)
    (exchanged : Reworded R t u) : Declares u words := by
  obtain ⟨before, stop, after, rfl, free, ends⟩ := h
  have plain : isIdentChar stop = false := by rcases ends with rfl | rfl <;> rfl
  have inside {u : Text} (exchanged : Reworded R (joinWith [' '] words ++ stop :: after) u) :
      ∃ after', u = joinWith [' '] words ++ stop :: after' := by
    obtain ⟨after', rfl, -⟩ := exchanged.of_joinWith named plain (by
      intro w hw rest r follows
      refine kept w hw rest r (follows.imp_left fun at_end => ?_)
      obtain ⟨more, rfl⟩ := at_end
      exact ⟨stop, more, ends, rfl⟩)
    exact ⟨after', rfl⟩
  rcases List.eq_nil_or_concat before with rfl | ⟨before, c, rfl⟩
  · obtain ⟨after', rfl⟩ := inside exchanged
    exact ⟨[], stop, after', rfl, rfl, ends⟩
  · have between : isIdentChar c = false := by simpa [isFree] using free
    rw [List.concat_eq_append, List.append_assoc, List.singleton_append] at exchanged
    obtain ⟨s, v, rfl, later⟩ := exchanged.of_append_cons between
    obtain ⟨after', rfl⟩ := inside later
    exact ⟨s ++ [c], stop, after', by simp, by simp [isFree, between], ends⟩

end Declares

section Replacing

variable {t : Text}

def FreeAt (t : Text) (n : Nat) : Prop :=
  ∃ a b, t = a ++ b ∧ byteLen a = n ∧ isFree a.getLast? = true

theorem FreeAt.isBoundary {n : Nat} (h : FreeAt t n) : IsBoundary t n := by
  obtain ⟨a, b, cut, len, -⟩ := h
  exact ⟨a, b, cut, len⟩

theorem FreeAt.slice {m n : Nat} (h : FreeAt t n) (hm : IsBoundary t m) (le : m ≤ n) :
    isFree (slice m n t).getLast? = true := by
  obtain ⟨a, b, rfl, rfl, free⟩ := h
  obtain ⟨c, s, d, same, start, len⟩ := hm.exists_slice ⟨a, b, rfl, rfl⟩ le
  have size : byteLen a = byteLen (c ++ s) := by rw [byteLen_append]; omega
  obtain ⟨rfl, -⟩ := append_inj_of_byteLen (same.trans (List.append_assoc c s d).symm) size
  have stop : byteLen (c ++ s) = byteLen c + byteLen s := byteLen_append c s
  rw [stop, ← start, List.append_assoc, slice_append]
  rw [List.getLast?_append] at free
  cases at_last : s.getLast? with
  | none => rfl
  | some e =>
    rw [at_last] at free
    exact free

theorem exists_replacement_of_spliceFrom {m : Nat} {edits : List Edit} (slices : SlicesFrom t m edits)
    (free : ∀ e ∈ edits, FreeAt t e.start)
    (ended : ∀ e ∈ edits, isFree e.replacement.getLast? = true) {e : Edit} (member : e ∈ edits) :
    ∃ before after, spliceFrom m (dropBytes m t) edits = before ++ (e.replacement ++ after) ∧
      isFree before.getLast? = true := by
  induction edits generalizing m with
  | nil => cases member
  | cons first edits ih =>
    obtain ⟨here, le, -, le', rest⟩ := slices
    rw [spliceFrom_cons here first edits (Nat.le_trans le le')]
    have front := (free first List.mem_cons_self).slice here le
    rcases List.mem_cons.1 member with rfl | member
    · exact ⟨_, _, List.append_assoc _ _ _, front⟩
    · obtain ⟨before, after, cut, free_before⟩ := ih rest
        (fun e he => free e (List.mem_cons_of_mem _ he))
        (fun e he => ended e (List.mem_cons_of_mem _ he)) member
      refine ⟨slice m first.start t ++ first.replacement ++ before, after, by rw [cut]; simp, ?_⟩
      exact isFree_getLast?_append (isFree_getLast?_append front (ended first List.mem_cons_self))
        free_before

end Replacing

section Replacements

def declaration (storage : String) (precision : Option String) (type name : String) : List Text :=
  storage.toList :: (precision.toList ++ [type, name]).map String.toList

def arraySuffix (count : Nat) : Text :=
  if count = 1 then [] else '[' :: (Nat.toDigits 10 count ++ [']'])

theorem arraySuffix_one : arraySuffix 1 = [] := rfl

theorem arraySuffix_of_ne {count : Nat} (several : count ≠ 1) :
    arraySuffix count = '[' :: (Nat.toDigits 10 count ++ [']']) :=
  if_neg several

theorem exists_stop (count : Nat) (rest : Text) : ∃ stop more,
    arraySuffix count ++ ';' :: rest = stop :: more ∧ (stop = ';' ∨ stop = '[') := by
  unfold arraySuffix
  split
  · exact ⟨';', rest, rfl, Or.inl rfl⟩
  · exact ⟨'[', _, rfl, Or.inr rfl⟩

theorem declares_of_text {t : Text} {words : List Text} (suffix : Text)
    (ends : ∃ stop more, suffix ++ [';'] = stop :: more ∧ (stop = ';' ∨ stop = '['))
    (text : t = joinWith [' '] words ++ (suffix ++ [';'])) :
    Declares t words ∧ t.getLast? = some ';' := by
  refine ⟨?_, by rw [text, ← List.append_assoc, List.getLast?_concat]⟩
  obtain ⟨stop, more, shape, at_stop⟩ := ends
  exact ⟨[], stop, more, by rw [text, shape, List.nil_append], rfl, at_stop⟩

theorem joinWith_declaration (storage : String) (precision : Option String) (type name : String) :
    joinWith [' '] (declaration storage precision type name) =
      storage.toList ++ ' ' :: ((precisionMark precision).toList ++ (type.toList ++ ' ' :: name.toList)) := by
  cases precision <;> simp [precisionMark, declaration, joinWith, String.toList_append]

theorem toList_declare (storage : String) (d : Descriptor) : (declare storage d).toList =
    joinWith [' '] (declaration storage d.precision d.type d.name) ++ (arraySuffix d.count ++ [';']) := by
  have array : (if d.count = 1 then "" else s!"[{d.count}]").toList = arraySuffix d.count := by
    unfold arraySuffix
    split
    · rfl
    · simp only [String.toList_append, Nat.toString_eq_repr, Nat.toList_repr]
      rfl
  show (storage ++ " " ++ precisionMark d.precision ++ d.type ++ " " ++ d.name ++ _ ++ ";").toList = _
  rw [joinWith_declaration, ← array]
  simp only [String.toList_append, List.append_assoc, List.cons_append]
  rfl

theorem declares_declare (storage : String) (d : Descriptor) :
    Declares (declare storage d).toList (declaration storage d.precision d.type d.name) ∧
      (declare storage d).toList.getLast? = some ';' :=
  declares_of_text (arraySuffix d.count) (exists_stop d.count []) (toList_declare storage d)

def memberLine (m : Member) : String :=
  let array := (m.arraySize.map fun size => s!"[{size}]").getD ""
  s!"uniform {precisionMark m.precision}{m.type} {m.name}{array};"

def lengthSuffix : Option String → Text
  | none => []
  | some length => '[' :: (length.toList ++ [']'])

theorem toList_memberLine (m : Member) : (memberLine m).toList =
    joinWith [' '] (declaration "uniform" m.precision m.type m.name) ++
      (lengthSuffix m.arraySize ++ [';']) := by
  have array : ((m.arraySize.map fun size => s!"[{size}]").getD "").toList = lengthSuffix m.arraySize := by
    cases m.arraySize with
    | none => rfl
    | some size =>
      show ("[" ++ size ++ "]").toList = _
      simp [lengthSuffix, String.toList_append]
  show ("uniform " ++ precisionMark m.precision ++ m.type ++ " " ++ m.name ++ _ ++ ";").toList = _
  rw [joinWith_declaration, ← array]
  simp [String.toList_append]
  rfl

theorem declares_memberLine (m : Member) :
    Declares (memberLine m).toList (declaration "uniform" m.precision m.type m.name) ∧
      (memberLine m).toList.getLast? = some ';' := by
  refine declares_of_text (lengthSuffix m.arraySize) ?_ (toList_memberLine m)
  cases m.arraySize with
  | none => exact ⟨';', [], rfl, Or.inl rfl⟩
  | some size => exact ⟨'[', _, rfl, Or.inr rfl⟩

theorem toList_flattenBlock (t : Text) (d : Descriptor) : (flattenBlock t d).toList =
    List.intercalate ['\n']
      ((d.members.filter fun m => countWord t m.name.toList > 1).map fun m => (memberLine m).toList) := by
  show ("\n".intercalate (List.map memberLine _)).toList = _
  rw [String.toList_intercalate, List.map_map]
  rfl

theorem exists_of_mem_intercalate {lines : List Text} (ended : ∀ l ∈ lines, l.getLast? = some ';') :
    isFree (List.intercalate ['\n'] lines).getLast? = true ∧ ∀ l ∈ lines, ∃ before after,
      List.intercalate ['\n'] lines = before ++ (l ++ after) ∧ isFree before.getLast? = true := by
  induction lines with
  | nil => exact ⟨rfl, fun l member => absurd member List.not_mem_nil⟩
  | cons first lines ih =>
    have free : isFree first.getLast? = true := by rw [ended first List.mem_cons_self]; rfl
    cases lines with
    | nil =>
      rw [List.intercalate_singleton]
      refine ⟨free, fun l member => ⟨[], [], ?_, rfl⟩⟩
      rw [List.mem_singleton.1 member, List.nil_append, List.append_nil]
    | cons second lines =>
      obtain ⟨free_rest, each⟩ := ih fun l hl => ended l (List.mem_cons_of_mem _ hl)
      have free_line : isFree (first ++ ['\n']).getLast? = true := by
        rw [List.getLast?_concat]
        rfl
      rw [List.intercalate_cons_cons]
      refine ⟨isFree_getLast?_append free_line free_rest, fun l member => ?_⟩
      rcases List.mem_cons.1 member with rfl | member
      · exact ⟨[], _, by rw [List.nil_append, List.append_assoc], rfl⟩
      · obtain ⟨before, after, cut, free_before⟩ := each l member
        refine ⟨first ++ ['\n'] ++ before, after, by rw [cut]; simp, ?_⟩
        exact isFree_getLast?_append free_line free_before

theorem declares_flattenBlock (t : Text) (d : Descriptor) :
    isFree (flattenBlock t d).toList.getLast? = true ∧ ∀ m ∈ d.members,
      1 < countWord t m.name.toList →
        Declares (flattenBlock t d).toList (declaration "uniform" m.precision m.type m.name) := by
  rw [toList_flattenBlock]
  have ended : ∀ l ∈ (d.members.filter fun m => countWord t m.name.toList > 1).map fun m =>
      (memberLine m).toList, l.getLast? = some ';' := by
    intro l member
    obtain ⟨m, -, rfl⟩ := List.mem_map.1 member
    exact (declares_memberLine m).2
  obtain ⟨free, each⟩ := exists_of_mem_intercalate ended
  refine ⟨free, fun m member used => ?_⟩
  obtain ⟨before, after, cut, free_before⟩ := each _
    (List.mem_map_of_mem (List.mem_filter.2 ⟨member, decide_eq_true used⟩))
  rw [cut]
  exact (declares_memberLine m).1.append free_before after

end Replacements

section Transcode

variable {t : Text} {stage : Stage} {ds : List Declaration} {d : Declaration} {P : Statement → Prop}

theorem isFree_replacement? {r : String} (replaced : replacement? t d = some r) :
    isFree r.toList.getLast? = true := by
  have ended (storage : String) : isFree (declare storage d.descriptor).toList.getLast? = true := by
    rw [(declares_declare storage d.descriptor).2]
    rfl
  unfold replacement? at replaced
  split at replaced
  · obtain rfl := Option.some.inj replaced
    exact (declares_flattenBlock t d.descriptor).1
  · obtain rfl := Option.some.inj replaced
    exact ended "attribute"
  · obtain rfl := Option.some.inj replaced
    exact ended "varying"
  · obtain rfl := Option.some.inj replaced
    rfl
  · cases replaced
  · obtain ⟨_, -, rfl⟩ := Option.map_eq_some_iff.1 replaced
    exact ended "uniform"

section Run

variable (run : Run t stage (find t) P [] [] (significant t) ds)
include run

theorem isName_of_run (member : d ∈ ds) : IsName d.descriptor.name.toList := by
  obtain ⟨k, hk, identifier, named⟩ := run.exists_name member
  exact named ▸ isName_name hk identifier

theorem freeAt_of_run (member : d ∈ ds) : FreeAt t d.start := by
  obtain ⟨k, hk, start, identifier⟩ := run.exists_start member
  obtain ⟨-, a, b, cut, len, free, -⟩ := isName_of_isIdentifier hk identifier
  exact ⟨a, _, cut, by rw [start, len], free⟩

theorem isName_of_mem_outputsOf {o : String × Nat} (member : o ∈ outputsOf ds) : IsName o.1.toList := by
  obtain ⟨d, hd, output⟩ := List.mem_filterMap.1 member
  split at output
  · obtain ⟨location, -, rfl⟩ := Option.map_eq_some_iff.1 output
    exact isName_of_run run hd
  · cases output

theorem declares_splice (member : d ∈ ds) {r : String} (replaced : replacement? t d = some r)
    {words : List Text} (h : Declares r.toList words) :
    Declares (splice t (replacements t ds)) words := by
  have slices := run.slicesFrom_replacements
  have edit : (⟨d.start, d.stop, r.toList⟩ : Edit) ∈ replacements t ds :=
    List.mem_filterMap.2 ⟨d, member, by rw [replaced]; rfl⟩
  rw [splice_eq_spliceFrom slices.pairwise.1]
  obtain ⟨before, after, cut, free⟩ := exists_replacement_of_spliceFrom slices (by
    intro e he
    obtain ⟨d', hd, replaced'⟩ := List.mem_filterMap.1 he
    obtain ⟨r', -, rfl⟩ := Option.map_eq_some_iff.1 replaced'
    exact freeAt_of_run run hd) (by
    intro e he
    obtain ⟨d', -, replaced'⟩ := List.mem_filterMap.1 he
    obtain ⟨r', made, rfl⟩ := Option.map_eq_some_iff.1 replaced'
    exact isFree_replacement? made) edit
  rw [cut]
  exact h.append free after

variable {defines : List Define} {r s : Report} {u : Transcoded}
  (extracted : outcome (extract t stage (find t)) = some ds)
  (transcoded : (transcode t stage defines).runWith r = (.ok u, s))
include extracted transcoded

theorem reworded_transcode : Reworded (Exchanges (outputsOf ds)) (splice t (replacements t ds)) u.text := by
  obtain ⟨tokens, part, text⟩ := exists_exchanges extracted transcoded
  rw [text]
  exact reworded_renameOutputs_exchanges (fun o => isName_of_mem_outputsOf run) part

theorem declares_of_transcode {words : List Text}
    (h : Declares (splice t (replacements t ds)) words)
    (named : ∀ w ∈ words, IsName w) (apart : ∀ w ∈ words, ¬ IsOutput (outputsOf ds) w) :
    Declares u.text words := by
  refine h.reworded named (fun w hw rest r follows exchanged => ?_)
    (reworded_transcode run extracted transcoded)
  refine (exchanged.other (apart w hw)).resolve_right fun call => ?_
  rcases follows with ⟨stop, more, ends, rfl⟩ | ⟨v, more, isName, rfl⟩
  · exact not_opensCall_stop ends more call.2
  · exact not_opensCall_name isName more call.2

theorem reworded_of_transcode (free : ¬ IsOutput (outputsOf ds) "gl_FragData".toList) :
    Reworded (fun w _ r => IsOutput (outputsOf ds) w →
      ∃ o ∈ outputsOf ds, o.1.toList = w ∧ r = builtin (outputsOf ds).length o.2)
      (splice t (replacements t ds)) u.text := by
  refine (reworded_transcode run extracted transcoded).mono fun w _ r _ exchanged output => ?_
  obtain ⟨o, first, rfl⟩ := exchanged.output output (Or.inr free)
  obtain ⟨member, named⟩ := isOutput_of_outputNamed? first
  exact ⟨o, member, named, rfl⟩

end Run

end Transcode

/-- Whether transcoding declares some words, provided that none of them is an output. -/
def KeepsDeclaration (t : Text) (stage : Stage) (ds : List Declaration) (words : List Text) : Prop :=
  (∀ w ∈ words, ¬ IsOutput (outputsOf ds) w) → ∀ defines r u s,
    (transcode t stage defines).runWith r = (.ok u, s) → Declares u.text words

/-- Whether transcoding keeps a variable: inputs are declared, and an output with a location becomes a
builtin variable wherever its name stands. -/
structure KeepsVariable (t : Text) (stage : Stage) (ds : List Declaration) (d : Declaration) : Prop where
  input : d.category = .vertexInput → KeepsDeclaration t stage ds
    (declaration "attribute" d.descriptor.precision d.descriptor.type d.descriptor.name)
  varying : d.category = .varying → KeepsDeclaration t stage ds
    (declaration "varying" d.descriptor.precision d.descriptor.type d.descriptor.name)
  output : d.category = .fragColor → d.descriptor.location ≠ none →
    ¬ IsOutput (outputsOf ds) "gl_FragData".toList → ∀ defines r u s,
      (transcode t stage defines).runWith r = (.ok u, s) →
        Reworded (fun w _ r => w = d.descriptor.name.toList → ∃ o ∈ outputsOf ds,
            o.1.toList = w ∧ r = builtin (outputsOf ds).length o.2)
          (splice t (replacements t ds)) u.text

/-- The declaration that is reported for a statement: it takes the whole of it, and there is no other. -/
structure ReportedFor (t : Text) (first : Token) (behind : List Token) (ds : List Declaration)
    (d : Declaration) : Prop where
  member : d ∈ ds
  start : d.start = first.start
  stop : d.stop = (behind[statementLength behind]?.map Token.stop).getD (byteLen t)
  only : ∀ e ∈ ds, d.start ≤ e.start → e.start < d.stop → e = d

section Statements

variable {t : Text} {stage : Stage} {ds : List Declaration} {d : Declaration} {P : Statement → Prop}

theorem isName_of_mem_declaration {storage type name : String} {precision : Option String}
    (is_storage : IsName storage.toList) (precise : ∀ p ∈ precision, p ∈ precisions)
    (is_type : IsName type.toList) (is_name : IsName name.toList) :
    ∀ w ∈ declaration storage precision type name, IsName w := by
  intro w member
  rcases List.mem_cons.1 member with rfl | member
  · exact is_storage
  obtain ⟨v, hv, rfl⟩ := List.mem_map.1 member
  rcases List.mem_append.1 hv with hv | hv
  · have all : ∀ p ∈ precisions, p.toList.head?.any isIdentStart = true ∧
        p.toList.all isIdentChar = true := by decide
    obtain ⟨start, inside⟩ := all v (precise v (Option.mem_toList.1 hv))
    exact isName_of_all start inside
  · rcases List.mem_cons.1 hv with rfl | hv
    · exact is_type
    · exact List.mem_singleton.1 hv ▸ is_name

variable (run : Run t stage (find t) P [] [] (significant t) ds)
include run

theorem eq_of_start_lt (member : d ∈ ds) {e : Declaration} (other : e ∈ ds) (start_le : d.start ≤ e.start)
    (lt_stop : e.start < d.stop) : e = d := by
  obtain ⟨apart, filled⟩ := run.apart
  have filled := filled e other
  obtain ⟨front, later, rfl⟩ := List.append_of_mem member
  obtain ⟨-, behind, across⟩ := List.pairwise_append.1 apart
  rcases List.mem_append.1 other with other | other
  · have := across e other d List.mem_cons_self
    omega
  · rcases List.mem_cons.1 other with rfl | other
    · rfl
    · have := (List.pairwise_cons.1 behind).1 e other
      omega

theorem exists_reportedFor {front behind : List Token} {first : Token} (top : TopLevel t front first behind)
    (identifier : first.isIdentifier = true) :
    ∃ found, outcome (parse? t stage (statementAt first behind)) = some found ∧ ∀ d ∈ found,
      ∃ d', ReportedFor t first behind ds d' ∧ d'.category = d.category ∧
        d'.descriptor.type = d.descriptor.type ∧ d'.descriptor.name = d.descriptor.name ∧
        d'.descriptor.precision = d.descriptor.precision ∧
        d'.descriptor.members = d.descriptor.members := by
  obtain ⟨found, parsed, each⟩ := top.exists_parse? identifier run
  refine ⟨found, parsed, fun d same => ?_⟩
  obtain ⟨stack, tags, member⟩ := each d same
  obtain rfl : found = some d := same
  obtain ⟨start, stop⟩ := start_of_parse? rfl parsed
  refine ⟨_, ⟨member, start, ?_, fun e => eq_of_start_lt run member⟩, rfl, rfl, rfl, rfl, rfl⟩
  exact stop

variable (extracted : outcome (extract t stage (find t)) = some ds)
include extracted

theorem keepsDeclaration_of_replacement? (member : d ∈ ds) {r : String}
    (replaced : replacement? t d = some r) {words : List Text} (h : Declares r.toList words)
    (named : ∀ w ∈ words, IsName w) : KeepsDeclaration t stage ds words :=
  fun apart _ _ _ _ transcoded => declares_of_transcode run extracted transcoded
    (declares_splice run member replaced h) named apart

theorem keepsVariable (member : d ∈ ds) (is_type : IsName d.descriptor.type.toList)
    (precise : ∀ p ∈ d.descriptor.precision, p ∈ precisions) : KeepsVariable t stage ds d := by
  have is_name := isName_of_run run member
  refine ⟨fun input => ?_, fun varying => ?_, fun output located free defines r u s transcoded => ?_⟩
  · refine keepsDeclaration_of_replacement? run extracted member (by rw [replacement?, input])
      (declares_declare "attribute" d.descriptor).1 ?_
    exact isName_of_mem_declaration (isName_of_all (by decide) (by decide)) precise is_type is_name
  · refine keepsDeclaration_of_replacement? run extracted member (by rw [replacement?, varying])
      (declares_declare "varying" d.descriptor).1 ?_
    exact isName_of_mem_declaration (isName_of_all (by decide) (by decide)) precise is_type is_name
  · refine (reworded_of_transcode run extracted transcoded free).mono ?_
    rintro w - r - replaces rfl
    obtain ⟨location, at_location⟩ := Option.ne_none_iff_exists'.1 located
    refine replaces ⟨(d.descriptor.name, location), List.mem_filterMap.2 ⟨d, member, ?_⟩, rfl⟩
    rw [if_pos output, at_location]
    rfl

theorem keepsDeclaration_of_member (member : d ∈ ds) (block : d.category = .block) {m : Member}
    (inside : m ∈ d.descriptor.members) (is_type : IsName m.type.toList) (is_name : IsName m.name.toList)
    (precise : ∀ p ∈ m.precision, p ∈ precisions) (used : 1 < countWord t m.name.toList) :
    KeepsDeclaration t stage ds (declaration "uniform" m.precision m.type m.name) := by
  refine keepsDeclaration_of_replacement? run extracted member (by rw [replacement?, block])
    ((declares_flattenBlock t d.descriptor).2 m inside used) ?_
  exact isName_of_mem_declaration (isName_of_all (by decide) (by decide)) precise is_type is_name

end Statements

section Totality

variable {t : Text} {stage : Stage} {ds : List Declaration} {defines : List Define}

theorem plain_outputOf? {d : Declaration}
    (located : d.category = .fragColor → d.descriptor.location ≠ none) : Plain (outputOf? d) := by
  unfold outputOf?
  split
  · rename_i output
    obtain ⟨location, at_location⟩ := Option.ne_none_iff_exists'.1 (located output)
    rw [at_location]
    exact ⟨_, rfl⟩
  · exact ⟨_, rfl⟩

/-- Transcoding succeeds where all outputs have locations and the types of all samplers are known. -/
theorem exists_runWith_transcode (defines : List Define)
    (extracted : outcome (extract t stage (find t)) = some ds)
    (located : ∀ d ∈ ds, d.category = .fragColor → d.descriptor.location ≠ none) {v : Text}
    (renamed : renameOutputs (splice t (replacements t ds)) (outputsOf ds) = v)
    (typed : ∀ call ∈ textureCalls (significant v),
      (callDimension? v (significant v) (find v) defines call).isSome = true) (r : Report) :
    ∃ u s, (transcode t stage defines).runWith r = (.ok u, s) := by
  have steady : Steady (extract t stage (find t)) := steady_extractFrom _ _ _ _ _ _
  obtain ⟨s, read⟩ := exists_runWith_silently steady extracted r
  obtain ⟨outputs, named⟩ := Plain.mapM fun d hd => plain_outputOf? (located d hd)
  have same : outputs.filterMap id = outputsOf ds :=
    outputs_of_runWith_mapM (r := r) (s := r) (by rw [named, runWith_pure])
  unfold transcode
  rw [runWith_bind, read]
  refine Plain.exists_runWith ?_ s
  rw [named, pure_bind, same]
  refine Plain.bind ?_ fun _ => ⟨_, rfl⟩
  exact renamed.symm ▸ plain_remapTextures typed

theorem exists_transcode_of_typed (t : Text) (stage : Stage) (outputs : List (String × Nat))
    (edits : List Edit) (v : Text)
    (read : (outcome (extract t stage (find t))).map (fun ds => (outputsOf ds, replacements t ds,
      ds.all fun d => d.category ≠ .fragColor || d.descriptor.location.isSome)) =
      some (outputs, edits, true))
    (renamed : renameOutputs (splice t edits) outputs = v) (defines : List Define)
    (typed : ∀ call ∈ textureCalls (significant v),
      (callDimension? v (significant v) (find v) defines call).isSome = true) (r : Report) :
    ∃ ds u s, outcome (extract t stage (find t)) = some ds ∧ outputsOf ds = outputs ∧
      replacements t ds = edits ∧ (transcode t stage defines).runWith r = (.ok u, s) ∧
      u.text = splice v (exchanges (renamings v stage defines)) := by
  obtain ⟨ds, extracted, shape⟩ := Option.map_eq_some_iff.1 read
  obtain ⟨rfl, rfl, located⟩ : _ ∧ _ ∧ _ := by simpa only [Prod.mk.injEq] using shape
  have every_location : ∀ d ∈ ds, d.category = .fragColor → d.descriptor.location ≠ none := by
    intro d hd output
    have here := List.all_eq_true.1 located d hd
    rw [output] at here
    exact Option.isSome_iff_ne_none.1 (by simpa using here)
  obtain ⟨u, s, transcoded⟩ := exists_runWith_transcode defines extracted every_location renamed typed r
  obtain ⟨lod, r', s', remapped⟩ := exists_remapTextures extracted transcoded
  rw [renamed] at remapped
  exact ⟨ds, u, s, extracted, rfl, rfl, transcoded, (remapTextures_eq remapped).1⟩

theorem exists_transcode_of_no_call (t : Text) (stage : Stage) (outputs : List (String × Nat))
    (edits : List Edit) (v : Text)
    (read : (outcome (extract t stage (find t))).map (fun ds => (outputsOf ds, replacements t ds,
      ds.all fun d => d.category ≠ .fragColor || d.descriptor.location.isSome)) =
      some (outputs, edits, true))
    (renamed : renameOutputs (splice t edits) outputs = v)
    (no_call : calledFunctions (significant v) = []) (defines : List Define) (r : Report) :
    ∃ ds u s, outcome (extract t stage (find t)) = some ds ∧ outputsOf ds = outputs ∧
      replacements t ds = edits ∧ (transcode t stage defines).runWith r = (.ok u, s) ∧ u.text = v := by
  have none_called := List.map_eq_nil_iff.1 no_call
  obtain ⟨ds, u, s, extracted, outputs_eq, edits_eq, transcoded, text⟩ :=
    exists_transcode_of_typed t stage outputs edits v read renamed defines (by
      rw [none_called]
      exact fun call member => absurd member List.not_mem_nil) r
  refine ⟨ds, u, s, extracted, outputs_eq, edits_eq, transcoded, ?_⟩
  rw [text, renamings, none_called]
  exact splice_nil v

end Totality

section Main

variable {t : Text} {stage : Stage} {ds : List Declaration} {front behind : List Token} {first : Token}

/-- For each statement outside functions and blocks that declares variables one declaration is reported,
of the first variable, and transcoding keeps it. Of a uniform block those members are reported and kept
that come first in their own statements. -/
theorem first_declarator_kept (top : TopLevel t front first behind) {r s : Report}
    (extracted : (extract t stage (find t)).runWith r = (.ok ds, s)) :
    (∀ storage category type name, stageCategory? storage stage = some category →
      StartsVariable storage type name (first :: behind) →
      ∃ d, ReportedFor t first behind ds d ∧ d.category = category ∧ d.descriptor.type = type.name ∧
        d.descriptor.name = name.name ∧ KeepsVariable t stage ds d) ∧
    ∀ type name, HoldsMember type name (first :: behind) →
      ∃ d, ReportedFor t first behind ds d ∧ d.category = .block ∧
        ∃ m ∈ d.descriptor.members, m.type = type.name ∧ m.name = name.name ∧
          (1 < countWord t m.name.toList →
            KeepsDeclaration t stage ds (declaration "uniform" m.precision m.type m.name)) := by
  have value := (composed_extractFrom t stage (find t) [] [] (significant t)).outcome_of_ok extracted
  have run := run_of_outcome value
  refine ⟨fun storage category type name staged starts => ?_, fun type name holds => ?_⟩
  · obtain ⟨qualifiers, later, cut, qualifying⟩ := starts.shape
    obtain ⟨found, parsed, each⟩ := exists_reportedFor run top (qualifying.isIdentifier_of_cons cut)
    obtain ⟨d, rfl, -, category_eq, type_eq, name_eq, precise⟩ := starts.exists_of_parse? staged parsed
    obtain ⟨d', reported, category', type', name', precision', -⟩ := each d rfl
    refine ⟨d', reported, category'.trans category_eq, type'.trans type_eq, name'.trans name_eq, ?_⟩
    refine keepsVariable run value reported.member ?_ (precision' ▸ precise)
    rw [type', type_eq]
    exact top.isName (by simp [cut]) starts.type.1
  · obtain ⟨qualifiers, block, opening, body, close, later, cut, qualifying, -, -, -, -, starts⟩ :=
      holds.shape
    obtain ⟨found, parsed, each⟩ := exists_reportedFor run top (qualifying.isIdentifier_of_cons cut)
    obtain ⟨d, rfl, -, category_eq, m, inside, type_eq, name_eq, precise⟩ := holds.exists_of_parse? parsed
    obtain ⟨d', reported, category', -, -, -, members'⟩ := each d rfl
    obtain ⟨front', words, stop, rest, rfl, -⟩ := starts.shape
    refine ⟨d', reported, category'.trans category_eq, m, members' ▸ inside, type_eq, name_eq, ?_⟩
    refine keepsDeclaration_of_member run value reported.member (category'.trans category_eq)
      (members' ▸ inside) ?_ ?_ precise
    · rw [type_eq]
      exact top.isName (by simp [cut]) starts.type.1
    · rw [name_eq]
      exact top.isName (by simp [cut]) starts.name.1

def pairs : Text :=
  ("in vec4 a, b;\nuniform B \x7b vec4 c[2], d; \x7d;\n" ++
    "void main() \x7b gl_Position = a + b + c[0] + d; \x7d").toList

def firsts : Text :=
  "attribute vec4 a;\nuniform vec4 c[2];\nvoid main() \x7b gl_Position = a + b + c[0] + d; \x7d".toList

theorem exists_transcode_pairs : ∃ ds s u s',
    (extract pairs .vertex (find pairs)).runWith {} = (.ok ds, s) ∧
    (transcode pairs .vertex []).runWith {} = (.ok u, s') ∧ outputsOf ds = [] ∧
    (ds.map fun d => (d.descriptor.name, d.descriptor.members.map Member.name)) =
      [("a", []), ("B", ["c"])] ∧ u.text = firsts := by
  have read : ((extract pairs .vertex (find pairs)).runWith {}).1.toOption.map (fun ds =>
      ds.map fun d => (d.descriptor.name, d.descriptor.members.map Member.name)) =
        some [("a", []), ("B", ["c"])] := by decide +kernel
  obtain ⟨ds, u, s', value, outputs, -, transcoded, text⟩ := exists_transcode_of_no_call
    pairs .vertex [] [⟨0, 13, "attribute vec4 a;".toList⟩, ⟨14, 42, "uniform vec4 c[2];".toList⟩]
    firsts (by decide +kernel) (by
      rw [renameOutputs, splice_eq_spliceFrom (by simp)]
      decide +kernel) (by decide +kernel) [] {}
  rcases extracted : (extract pairs .vertex (find pairs)).runWith {} with ⟨result, s⟩
  rw [extracted] at read
  cases result with
  | error failure => cases read
  | ok ds' =>
    have same := (composed_extractFrom pairs .vertex (find pairs) [] [] (significant pairs)).outcome_of_ok
      extracted
    obtain rfl := Option.some.inj (value.symm.trans same)
    exact ⟨ds, s, u, s', rfl, transcoded, outputs, Option.some.inj read, text⟩

theorem first_declarator_kept_of_pairs : ∃ ds s u s',
    (extract pairs .vertex (find pairs)).runWith {} = (.ok ds, s) ∧
    (transcode pairs .vertex []).runWith {} = (.ok u, s') ∧
    (∃ d ∈ ds, d.descriptor.name = "a" ∧ d.category = .vertexInput ∧
      Declares u.text (declaration "attribute" d.descriptor.precision "vec4" "a")) ∧
    ∃ d ∈ ds, ∃ m ∈ d.descriptor.members, m.name = "c" ∧
      Declares u.text (declaration "uniform" m.precision "vec4" "c") := by
  obtain ⟨ds, s, u, s', extracted, transcoded, outputs, -⟩ := exists_transcode_pairs
  have apart (words : List Text) : ∀ w ∈ words, ¬ IsOutput (outputsOf ds) w := by
    rintro w - ⟨o, member, -⟩
    rw [outputs] at member
    cases member
  refine ⟨ds, s, u, s', extracted, transcoded, ?_, ?_⟩
  · have top : TopLevel pairs [] ⟨.identifier, "in".toList, 0⟩ ((significant pairs).drop 1) :=
      ⟨by decide +kernel, by decide +kernel, closedIn_of_no_opening (by decide), fun last none => by
        cases none⟩
    have starts : StartsVariable .input ⟨.identifier, "vec4".toList, 3⟩ ⟨.identifier, "a".toList, 8⟩
        (⟨.identifier, "in".toList, 0⟩ :: (significant pairs).drop 1) := by
      refine ⟨⟨[⟨.identifier, "in".toList, 0⟩], (significant pairs).drop 3, by decide +kernel, ?_⟩,
        ⟨rfl, by decide⟩, rfl⟩
      exact .single rfl (by decide) (by decide)
    obtain ⟨d, reported, category, type, name, kept⟩ :=
      (first_declarator_kept top extracted).1 .input .vertexInput _ _ rfl starts
    refine ⟨d, reported.member, name, category, ?_⟩
    have declared := kept.input category (apart _) _ _ _ _ transcoded
    rwa [type, name] at declared
  · have semicolon : ((significant pairs).take 6).getLast? = some ⟨.punct, [';'], 12⟩ := by
      decide +kernel
    have top : TopLevel pairs ((significant pairs).take 6) ⟨.identifier, "uniform".toList, 14⟩
        ((significant pairs).drop 7) := by
      refine ⟨by decide +kernel, by decide +kernel, closedIn_of_no_opening (by decide +kernel), ?_⟩
      intro last at_last
      rw [semicolon] at at_last
      exact Or.inl (Option.some.inj at_last ▸ rfl)
    have starts : StartsMember ⟨.identifier, "vec4".toList, 26⟩ ⟨.identifier, "c".toList, 31⟩
        (((significant pairs).drop 9).take 8) := by
      refine ⟨⟨[], [], ⟨.punct, ['['], 32⟩, ((significant pairs).drop 12).take 5, by decide +kernel,
        closedIn_of_no_opening (by decide), fun last none => ?_, by decide, Or.inr rfl⟩,
        ⟨rfl, by decide⟩, rfl, by decide⟩
      cases none
    have holds : HoldsMember ⟨.identifier, "vec4".toList, 26⟩ ⟨.identifier, "c".toList, 31⟩
        (⟨.identifier, "uniform".toList, 14⟩ :: (significant pairs).drop 7) := by
      refine ⟨[⟨.identifier, "uniform".toList, 14⟩], ⟨.identifier, "B".toList, 22⟩,
        ⟨.punct, ['\x7b'], 24⟩, ((significant pairs).drop 9).take 8, ⟨.punct, ['\x7d'], 40⟩, (significant pairs).drop 18,
        by decide +kernel, ?_, rfl, by decide, rfl, by decide +kernel, starts⟩
      exact .single rfl (by decide) (by decide)
    obtain ⟨d, reported, -, m, inside, type, name, kept⟩ := (first_declarator_kept top extracted).2 _ _ holds
    refine ⟨d, reported.member, m, inside, name, ?_⟩
    have declared := kept (by rw [name]; decide +kernel) (apart _) _ _ _ _ transcoded
    rwa [type, name] at declared

/-- The second variable of a statement is used, but it is not reported and its declaration is gone. -/
theorem not_every_declarator_kept : 1 < countWord pairs "b".toList ∧ 1 < countWord pairs "d".toList ∧
    ∃ ds s u s', (extract pairs .vertex (find pairs)).runWith {} = (.ok ds, s) ∧
      (transcode pairs .vertex []).runWith {} = (.ok u, s') ∧
      (∀ d ∈ ds, d.descriptor.name ≠ "b" ∧ ∀ m ∈ d.descriptor.members, m.name ≠ "d") ∧
      u.text = firsts := by
  refine ⟨by decide +kernel, by decide +kernel, ?_⟩
  obtain ⟨ds, s, u, s', extracted, transcoded, -, names, text⟩ := exists_transcode_pairs
  refine ⟨ds, s, u, s', extracted, transcoded, fun d hd => ?_, text⟩
  have known : ∀ p ∈ ds.map fun d => (d.descriptor.name, d.descriptor.members.map Member.name),
      p.1 ≠ "b" ∧ "d" ∉ p.2 := by
    rw [names]
    decide
  obtain ⟨no_variable, no_member⟩ := known _ (List.mem_map_of_mem hd)
  exact ⟨no_variable, fun m hm same => no_member (List.mem_map.2 ⟨m, hm, same⟩)⟩

end Main

end Legacy
end ShaderPass
