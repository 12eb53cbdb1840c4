import ShaderPass.Proofs.Dialect.Correspondence

/-! Which declaration a texture call is renamed for. A sampler that the function around the call declares
comes first. Behind it comes the first sampler with the name in the whole text, and that may be a parameter
of another function. -/
namespace ShaderPass.Legacy

open Token Text Declaration FunctionDef Compile

structure DeclaresSampler (ts : List Token) (name : String) (front : List Token) (type : Token) : Prop where
  shape : ∃ declared later, ts = front ++ type :: declared :: later ∧ declared.isNamed name = true
  identifier : type.isIdentifier = true
  sampler : "sampler".toList <+: type.lexeme

/-- Whether a sampler type is that of the first sampler with a name. -/
def FirstSampler (ts : List Token) (name : String) (type : Token) : Prop :=
  ∃ front, DeclaresSampler ts name front type ∧
    ∀ front' type', DeclaresSampler ts name front' type' → front.length ≤ front'.length

section Search

variable {ts front : List Token} {k d type : Token} {start stop : Nat} {name : String}

theorem DeclaresSampler.cons (h : DeclaresSampler ts name front type) (k : Token) :
    DeclaresSampler (k :: ts) name (k :: front) type := by
  obtain ⟨⟨declared, later, rfl, named⟩, identifier, sampler⟩ := h
  exact ⟨⟨declared, later, rfl, named⟩, identifier, sampler⟩

theorem DeclaresSampler.of_cons (h : DeclaresSampler (k :: ts) name (d :: front) type) :
    DeclaresSampler ts name front type := by
  obtain ⟨⟨declared, later, cut, named⟩, identifier, sampler⟩ := h
  exact ⟨⟨declared, later, (List.cons.inj cut).2, named⟩, identifier, sampler⟩

theorem samplerType?_cons_cons : samplerType? (k :: d :: ts) start stop name =
    if start ≤ k.start && k.start < stop && k.isIdentifier && "sampler".toList.isPrefixOf k.lexeme &&
      d.isNamed name then some k.name
    else samplerType? (d :: ts) start stop name := by
  rw [samplerType?, List.drop_succ_cons, List.drop_zero, List.zip_cons_cons, List.findSome?_cons]
  dsimp only
  split
  · rename_i found
    split at found
    · rename_i here
      rw [if_pos here, ← found]
    · cases found
  · rename_i missed
    split at missed
    · cases missed
    · rename_i other
      rw [if_neg other]
      rfl

theorem declares_iff : (start ≤ k.start && k.start < stop && k.isIdentifier &&
    "sampler".toList.isPrefixOf k.lexeme && d.isNamed name) = true ↔
      (start ≤ k.start ∧ k.start < stop) ∧ DeclaresSampler (k :: d :: ts) name [] k := by
  simp only [Bool.and_eq_true, decide_eq_true_eq, List.isPrefixOf_iff_prefix]
  constructor
  · rintro ⟨⟨⟨inside, identifier⟩, sampler⟩, named⟩
    exact ⟨inside, ⟨d, ts, rfl, named⟩, identifier, sampler⟩
  · rintro ⟨inside, ⟨declared, later, cut, named⟩, identifier, sampler⟩
    obtain ⟨rfl, -⟩ : d = declared ∧ ts = later := by simpa using cut
    exact ⟨⟨⟨inside, identifier⟩, sampler⟩, named⟩

theorem exists_of_samplerType? {found : String} (search : samplerType? ts start stop name = some found) :
    ∃ front type, DeclaresSampler ts name front type ∧ (start ≤ type.start ∧ type.start < stop) ∧
      type.name = found ∧ ∀ front' type', DeclaresSampler ts name front' type' →
        start ≤ type'.start → type'.start < stop → front.length ≤ front'.length := by
  induction ts with
  | nil => cases search
  | cons k ts ih =>
    cases ts with
    | nil => cases search
    | cons d ts =>
      rw [samplerType?_cons_cons] at search
      split at search
      · rename_i here
        obtain ⟨inside, declares⟩ := declares_iff.1 here
        exact ⟨[], k, declares, inside, Option.some.inj search, fun _ _ _ _ _ => Nat.zero_le _⟩
      · rename_i other
        obtain ⟨front, type, declares, inside, named, first⟩ := ih search
        refine ⟨k :: front, type, declares.cons k, inside, named, fun front' type' declares' le lt => ?_⟩
        cases front' with
        | nil =>
          obtain ⟨⟨declared, later, cut, -⟩, -⟩ := id declares'
          obtain ⟨rfl, -⟩ := List.cons.inj cut
          exact absurd (declares_iff.2 ⟨⟨le, lt⟩, declares'⟩) other
        | cons x front' => exact Nat.succ_le_succ (first front' type' declares'.of_cons le lt)

theorem samplerType?_ne_none (declares : DeclaresSampler ts name front type) (le : start ≤ type.start)
    (lt : type.start < stop) : samplerType? ts start stop name ≠ none := by
  induction front generalizing ts with
  | nil =>
    obtain ⟨⟨declared, later, rfl, -⟩, -⟩ := id declares
    rw [List.nil_append, samplerType?_cons_cons, if_pos (declares_iff.2 ⟨⟨le, lt⟩, declares⟩)]
    exact Option.some_ne_none _
  | cons x front ih =>
    obtain ⟨⟨declared, later, rfl, -⟩, -⟩ := id declares
    have behind : samplerType? (front ++ type :: declared :: later) start stop name ≠ none :=
      ih declares.of_cons
    cases tail : front ++ type :: declared :: later with
    | nil => simp at tail
    | cons y rest =>
      rw [List.cons_append, tail, samplerType?_cons_cons]
      rw [tail] at behind
      split
      · exact Option.some_ne_none _
      · exact behind

end Search

section Scope

variable {t : Text} {stage : Stage} {defines : List Define} {call : TextureCall} {f : FunctionDef}

theorem find?_contains {n : Nat} (member : f ∈ find t) (inside : f.contains n = true) :
    (find t).find? (·.contains n) = some f := by
  obtain ⟨g, found⟩ := Option.isSome_iff_exists.1 (List.find?_isSome (p := (·.contains n)).2 ⟨f, member, inside⟩)
  obtain ⟨inside', front, later, cut, missed⟩ := List.find?_eq_some_iff_append.1 found
  have apart := (boundedBy_find t).2
  rw [cut] at member apart
  rcases List.mem_append.1 member with early | member
  · have := missed f early
    rw [inside] at this
    cases this
  rcases List.mem_cons.1 member with rfl | late
  · exact found
  · -- A later definition starts where this one has ended.
    have le := (List.pairwise_cons.1 (List.pairwise_append.1 apart).2.1).1 f late
    simp only [FunctionDef.contains, Bool.and_eq_true, decide_eq_true_eq] at inside inside'
    omega

theorem contains_eq_false_of_samplerType? {name : String}
    (missed : samplerType? (significant t) f.start f.stop name = none) {front : List Token} {type : Token}
    (declares : DeclaresSampler (significant t) name front type) : f.contains type.start = false := by
  rw [Bool.eq_false_iff]
  intro inside
  simp only [FunctionDef.contains, Bool.and_eq_true, decide_eq_true_eq] at inside
  exact samplerType?_ne_none declares inside.1 inside.2 missed

theorem exists_firstSampler {name : String} {front : List Token} {type : Token}
    (declares : DeclaresSampler (significant t) name front type) :
    ∃ first, FirstSampler (significant t) name first ∧
      samplerType? (significant t) 0 (byteLen t) name = some first.name := by
  have inside {front : List Token} {type : Token} (declares : DeclaresSampler (significant t) name front type) :
      type.start < byteLen t := by
    obtain ⟨⟨declared, later, cut, -⟩, -⟩ := declares
    have standing : type ∈ significant t := by rw [cut]; simp
    exact Nat.lt_of_lt_of_le ((ordered_significant t).2 type standing)
      (standsIn_of_mem_significant standing).isBoundary_stop.le_byteLen
  obtain ⟨found, search⟩ :=
    Option.ne_none_iff_exists'.1 (samplerType?_ne_none declares (Nat.zero_le _) (inside declares))
  obtain ⟨front', first, declares', -, rfl, least⟩ := exists_of_samplerType? search
  exact ⟨first, ⟨front', declares', fun front'' type'' other =>
    least front'' type'' other (Nat.zero_le _) (inside other)⟩, search⟩

/-- Where the function around a call declares no sampler with its name, the first sampler with the name
in the whole text decides. -/
theorem exists_first_of_callDimension? {front : List Token} {type : Token} (member : f ∈ find t)
    (inside : f.contains call.function.start = true)
    (undeclared : ∀ front type, DeclaresSampler (significant t) call.sampler.name front type →
      f.contains type.start = false)
    (declares : DeclaresSampler (significant t) call.sampler.name front type) :
    ∃ first, FirstSampler (significant t) call.sampler.name first ∧
      callDimension? t (significant t) (find t) defines call = dimension? first.name := by
  have in_scope : samplerType? (significant t) f.start f.stop call.sampler.name = none := by
    cases search : samplerType? (significant t) f.start f.stop call.sampler.name with
    | none => rfl
    | some found =>
      obtain ⟨front, type', declares, ⟨le, lt⟩, -⟩ := exists_of_samplerType? search
      have outside := undeclared front type' declares
      simp [FunctionDef.contains, le, lt] at outside
  obtain ⟨first, is_first, in_text⟩ := exists_firstSampler declares
  refine ⟨first, is_first, ?_⟩
  simp only [callDimension?, find?_contains member inside, Option.bind_some, in_scope, in_text]
  rfl

theorem exists_affixes (stage : Stage) (function : Token) : ∃ a b : Text, ∀ dimension : String,
    textureName stage function dimension = a ++ dimension.toList ++ b := by
  let suffix := function.lexeme.drop "texture".length
  refine ⟨"texture".toList, suffix ++ if needsLod stage suffix then "EXT".toList else [], fun dimension => ?_⟩
  unfold textureName
  exact List.append_assoc _ _ _

theorem textureName_inj {function : Token} {dimension dimension' : String}
    (same : textureName stage function dimension = textureName stage function dimension') :
    dimension = dimension' := by
  obtain ⟨a, b, shape⟩ := exists_affixes stage function
  rw [shape, shape, List.append_assoc, List.append_assoc] at same
  exact String.toList_inj.1 (List.append_cancel_right (List.append_cancel_left same))

theorem renamedLexeme_eq_iff {dimension : String} (h : Calls (significant t) call)
    (known : dimension ∈ dimensions) :
    renamedLexeme t stage defines call.function = textureName stage call.function dimension ↔
      callDimension? t (significant t) (find t) defines call = some dimension := by
  cases found : callDimension? t (significant t) (find t) defines call with
  | some dimension' =>
    rw [renamedLexeme_function h found, Option.some.injEq]
    exact ⟨textureName_inj, fun same => same ▸ rfl⟩
  | none =>
    have kept : renamedLexeme t stage defines call.function = call.function.lexeme := by
      rw [renamedLexeme, lookup_renamings h, found]
      rfl
    rw [kept]
    constructor
    · intro same
      exact absurd (same ▸ h.listed) (textureName_spec h.listed known).2.2.1
    · intro found
      cases found

end Scope

/-- The text whose texture calls are renamed: its declarations are replaced and its outputs renamed. -/
def prepared (t : Text) (ds : List Declaration) : Text :=
  renameOutputs (splice t (replacements t ds)) (outputsOf ds)

section Main

variable {t : Text} {stage : Stage} {defines : List Define} {r s : Report} {u : Transcoded}

/-- Transcoding changes the names of called texture functions in the prepared text. A call in a function that
declares no sampler with the name gets the dimension of another declaration of the sampler exactly if the
first one in the whole text has this dimension. -/
theorem declared_dimension_iff (transcoded : (transcode t stage defines).runWith r = (.ok u, s)) :
    ∃ ds, outcome (extract t stage (find t)) = some ds ∧ ∃ name : Token → Text,
      (scan u.text).map (fun k => (k.kind, k.lexeme)) =
        (scan (prepared t ds)).map (fun k => (k.kind, name k)) ∧
      (∀ k, (∀ call, Calls (significant (prepared t ds)) call → call.function ≠ k) → name k = k.lexeme) ∧
      ∀ call f front type dimension, Calls (significant (prepared t ds)) call →
        f ∈ find (prepared t ds) → f.contains call.function.start = true →
        (∀ front type, DeclaresSampler (significant (prepared t ds)) call.sampler.name front type →
          f.contains type.start = false) →
        DeclaresSampler (significant (prepared t ds)) call.sampler.name front type →
        dimension? type.name = some dimension →
        ∃ first, FirstSampler (significant (prepared t ds)) call.sampler.name first ∧
          (name call.function = textureName stage call.function dimension ↔
            dimension? first.name = some dimension) := by
  obtain ⟨ds, extracted⟩ := exists_declarations transcoded
  obtain ⟨lod, r', s', remapped⟩ := exists_remapTextures extracted transcoded
  refine ⟨ds, extracted, _, scan_remapTextures remapped, fun k => renamedLexeme_of_no_call, ?_⟩
  intro call f front type dimension h member inside undeclared declares known
  obtain ⟨first, is_first, decides⟩ := exists_first_of_callDimension? member inside undeclared declares
  have listed : dimension ∈ dimensions := by
    obtain ⟨dims, -, found⟩ := Option.bind_eq_some_iff.1 known
    exact List.mem_of_find?_eq_some found
  exact ⟨first, is_first, (renamedLexeme_eq_iff h listed).trans (by rw [← decides])⟩

def uniformFirst : Text :=
  ("uniform sampler2D s;\nvec4 f(samplerCube s) \x7b return texture(s, vec3(0.0)); \x7d\n" ++
    "vec4 g() \x7b return texture(s, vec2(0.0)); \x7d").toList

def uniformLast : Text :=
  ("vec4 f(samplerCube s) \x7b return texture(s, vec3(0.0)); \x7d\nuniform sampler2D s;\n" ++
    "vec4 g() \x7b return texture(s, vec2(0.0)); \x7d").toList

def lastCall : TextureCall :=
  ⟨⟨.identifier, "texture".toList, 95⟩, ⟨.identifier, ['s'], 103⟩⟩

def lastFunction : FunctionDef :=
  { name := "g", returnType := "vec4", start := 77, stop := 119, paramStop := 85 }

def Sampled (t : Text) : Prop :=
  (outcome (extract t .fragment (find t))).map (fun ds => (outputsOf ds, replacements t ds,
      ds.all fun d => d.category ≠ .fragColor || d.descriptor.location.isSome)) = some ([], [], true) ∧
    (∀ call ∈ textureCalls (significant t),
      (callDimension? t (significant t) (find t) [] call).isSome = true) ∧
    significant t = (significant t).take 29 ++ lastCall.function :: ⟨.punct, ['('], 102⟩ ::
      lastCall.sampler :: (significant t).drop 32 ∧
    lastFunction ∈ find t ∧
    samplerType? (significant t) lastFunction.start lastFunction.stop "s" = none

instance : DecidablePred Sampled := fun _ => inferInstanceAs (Decidable (_ ∧ _))

theorem Sampled.calls {t : Text} (h : Sampled t) : Calls (significant t) lastCall :=
  ⟨⟨_, _, _, h.2.2.1, rfl⟩, rfl, by decide, rfl⟩

theorem Sampled.exists_transcode {t : Text} (h : Sampled t) :
    ∃ ds u s, outcome (extract t .fragment (find t)) = some ds ∧ prepared t ds = t ∧
      (transcode t .fragment []).runWith {} = (.ok u, s) ∧
      u.text = splice t (exchanges (renamings t .fragment [])) := by
  have plain : renameOutputs (splice t []) [] = t := by rw [renameOutputs, splice_nil]
  obtain ⟨ds, u, s, extracted, outputs, edits, transcoded, text⟩ :=
    exists_transcode_of_typed t .fragment [] [] t h.1 plain [] h.2.1 {}
  exact ⟨ds, u, s, extracted, by rw [prepared, edits, outputs, plain], transcoded, text⟩

theorem sampled_uniformFirst : Sampled uniformFirst ∧ significant uniformFirst =
    ⟨.identifier, "uniform".toList, 0⟩ :: ⟨.identifier, "sampler2D".toList, 8⟩ ::
      ⟨.identifier, ['s'], 18⟩ :: (significant uniformFirst).drop 3 := by
  decide +kernel

theorem declared_dimension_iff_of_uniformFirst : ∃ u s,
    (transcode uniformFirst .fragment []).runWith {} = (.ok u, s) ∧ ∃ name : Token → Text,
      (scan u.text).map (fun k => (k.kind, k.lexeme)) =
        (scan uniformFirst).map (fun k => (k.kind, name k)) ∧
      name lastCall.function = "texture2D".toList := by
  obtain ⟨sampled, leading⟩ := sampled_uniformFirst
  obtain ⟨ds, u, s, extracted, plain, transcoded, -⟩ := sampled.exists_transcode
  obtain ⟨-, -, -, member, undeclared⟩ := id sampled
  obtain ⟨ds', extracted', name, tokens, -, each⟩ := declared_dimension_iff transcoded
  obtain rfl := Option.some.inj (extracted.symm.trans extracted')
  rw [plain] at tokens each
  have declares : DeclaresSampler (significant uniformFirst) "s" [⟨.identifier, "uniform".toList, 0⟩]
      ⟨.identifier, "sampler2D".toList, 8⟩ :=
    ⟨⟨⟨.identifier, ['s'], 18⟩, (significant uniformFirst).drop 3, leading, by decide⟩, rfl, by decide⟩
  obtain ⟨first, is_first, decides⟩ := each lastCall lastFunction _ _ "2D" sampled.calls member
    (by decide) (fun front type => contains_eq_false_of_samplerType? undeclared) declares (by decide)
  have is_uniform : first = ⟨.identifier, "sampler2D".toList, 8⟩ := by
    obtain ⟨front, ⟨⟨declared, later, cut, -⟩, -, sampler⟩, least⟩ := is_first
    have short := least _ _ declares
    rw [leading] at cut
    cases front with
    | nil =>
      obtain ⟨rfl, -⟩ := List.cons.inj cut
      exact absurd sampler (by decide)
    | cons x front =>
      obtain rfl : front = [] := List.length_eq_zero_iff.1 (Nat.le_zero.1 (Nat.le_of_succ_le_succ short))
      obtain ⟨-, cut⟩ := List.cons.inj cut
      exact (List.cons.inj cut).1.symm
  refine ⟨u, s, transcoded, name, tokens, ?_⟩
  rw [decides.2 (by rw [is_uniform]; decide)]
  decide

theorem sampled_uniformLast : Sampled uniformLast ∧
    significant uniformLast = (significant uniformLast).take 20 ++
      ⟨.identifier, "sampler2D".toList, 64⟩ :: ⟨.identifier, ['s'], 74⟩ ::
        (significant uniformLast).drop 22 ∧
    ((significant uniformLast).take 20).getLast? = some ⟨.identifier, "uniform".toList, 56⟩ ∧
    (∀ f ∈ find uniformLast, f.contains 64 = false) ∧
    renamings uniformLast .fragment [] = [(⟨.identifier, "texture".toList, 31⟩, "textureCube".toList),
      (⟨.identifier, "texture".toList, 95⟩, "textureCube".toList)] := by
  decide +kernel

/-- The uniform is a `sampler2D`, but the call is renamed for the parameter of the other function. -/
theorem not_declared_dimension : ∃ front type u s,
    Calls (significant uniformLast) lastCall ∧ lastFunction ∈ find uniformLast ∧
      lastFunction.contains lastCall.function.start = true ∧
      (∀ front type, DeclaresSampler (significant uniformLast) lastCall.sampler.name front type →
        lastFunction.contains type.start = false) ∧
      DeclaresSampler (significant uniformLast) lastCall.sampler.name front type ∧
      (∀ f ∈ find uniformLast, f.contains type.start = false) ∧
      (∃ k, front.getLast? = some k ∧ k.isNamed "uniform" = true) ∧
      dimension? type.name = some "2D" ∧
      (transcode uniformLast .fragment []).runWith {} = (.ok u, s) ∧
      containsWord u.text "texture2D".toList = false := by
  obtain ⟨sampled, cut, qualified, outside, renamed⟩ := sampled_uniformLast
  obtain ⟨ds, u, s, -, -, transcoded, text⟩ := sampled.exists_transcode
  obtain ⟨-, -, -, member, undeclared⟩ := id sampled
  refine ⟨(significant uniformLast).take 20, ⟨.identifier, "sampler2D".toList, 64⟩, u, s,
    sampled.calls, member, by decide,
    fun front type => contains_eq_false_of_samplerType? undeclared,
    ⟨⟨⟨.identifier, ['s'], 74⟩, (significant uniformLast).drop 22, cut, by decide⟩, rfl, by decide⟩, outside,
    ⟨⟨.identifier, "uniform".toList, 56⟩, qualified, by decide⟩, by decide, transcoded, ?_⟩
  rw [text, renamed, splice_eq_spliceFrom (by decide)]
  decide +kernel

end Main

end ShaderPass.Legacy
