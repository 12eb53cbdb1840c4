import ShaderPass.Proofs.Dialect.Renaming

/-! Renaming the texture calls of a text keeps its tokens one by one. An identifier that is exchanged for
another one with the same first letter leaves the tokens around it where they end. -/
namespace ShaderPass

open Token Text Compile FunctionDef Declaration

namespace Token

section Renaming

variable {lineStart : Bool} {t : Text} {n : Nat} {names : List (Token × Text)}

theorem map_place (n : Nat) (ps : List (TokenKind × Text)) :
    (place n ps).map (fun k => (k.kind, k.lexeme)) = ps := by
  induction ps generalizing n with
  | nil => rfl
  | cons p ps ih => rw [place, List.map_cons, ih]

def Replaces (p : Token × Text) : Prop :=
  p.1.isIdentifier = true ∧ IsName p.2 ∧ p.2.head? = p.1.lexeme.head?

theorem head?_spliceFrom_exchanges (part : (names.map Prod.fst).Sublist (sig n (pieces lineStart t)))
    (replaces : ∀ p ∈ names, Replaces p) : (spliceFrom n t (exchanges names)).head? = t.head? := by
  cases names with
  | nil => rfl
  | cons p names =>
    obtain ⟨-, isName, head⟩ := replaces p List.mem_cons_self
    obtain ⟨front, later, cut⟩ := List.append_of_mem (part.mem (List.mem_map_of_mem List.mem_cons_self))
    obtain ⟨qs, rs, pieces_eq, -, start, -⟩ := exists_of_sig_eq cut
    obtain ⟨c, more, shape⟩ := List.exists_cons_of_ne_nil isName.isWord.1
    have text : t = flat qs ++ (p.1.lexeme ++ flat rs) := by
      rw [← flat_cons p.1.kind, ← flat_append, ← pieces_eq]
      exact (flatten_pieces lineStart t).symm
    have front_eq : takeBytes (p.1.start - n) t = flat qs := by
      rw [start, Nat.add_sub_cancel_left, text, takeBytes_byteLen_append]
    have edits : exchanges (p :: names) = ⟨p.1.start, p.1.stop, p.2⟩ :: exchanges names := rfl
    rw [edits, spliceFrom, front_eq, List.append_assoc, List.head?_append, text, List.head?_append,
      List.head?_append, List.head?_append, ← head, shape]
    rfl

section Step

variable {kind : TokenKind} {lexeme w : Text} {ps : List (TokenKind × Text)}

theorem exists_pieces_of_kept (cut : pieces lineStart (lexeme ++ flat ps) = (kind, lexeme) :: ps)
    (renames : names ≠ []) (part : (names.map Prod.fst).Sublist (sig (n + byteLen lexeme) ps))
    (replaces : ∀ p ∈ names, Replaces p) : ∃ lineStart', pieces lineStart' (flat ps) = ps ∧
      pieces lineStart (spliceFrom n (lexeme ++ flat ps) (exchanges names)) =
        (kind, lexeme) :: pieces lineStart' (spliceFrom (n + byteLen lexeme) (flat ps) (exchanges names)) := by
  have more : flat ps ≠ [] := by
    obtain ⟨p, hp⟩ := List.exists_mem_of_ne_nil names renames
    obtain ⟨-, isName, head⟩ := replaces p hp
    obtain ⟨c, more, shape⟩ := List.exists_cons_of_ne_nil isName.isWord.1
    obtain ⟨qs, rs, rfl⟩ := List.append_of_mem (mem_of_mem_sig (part.mem (List.mem_map_of_mem hp)))
    rw [shape, List.head?_cons, eq_comm, List.head?_eq_some_iff] at head
    obtain ⟨rest, lexeme_eq⟩ := head
    simp [flat_append, flat_cons, lexeme_eq]
  obtain ⟨c, s, rfl, classified, rest⟩ := classify_of_pieces more cut
  have edits : ∀ e ∈ exchanges names, n + byteLen (c :: s) ≤ e.start ∧ n + byteLen (c :: s) ≤ e.stop := by
    intro e he
    obtain ⟨p, hp, rfl⟩ := List.mem_map.1 he
    have later := start_le_of_mem_sig (part.mem (List.mem_map_of_mem hp))
    exact ⟨later, Nat.le_add_right_of_le later⟩
  have head := head?_spliceFrom_exchanges (rest.symm ▸ part) replaces
  refine ⟨_, rest, ?_⟩
  rw [spliceFrom_append (c :: s) _ edits, List.cons_append, pieces_cons,
    classify_of_head? (Or.inr head) classified, List.take_left, List.drop_left]

theorem pieces_of_renamed (isName : IsName w) (free : isFree (flat ps).head? = true)
    (rest : pieces false (flat ps) = ps) (part : (names.map Prod.fst).Sublist (sig (n + byteLen lexeme) ps))
    (replaces : ∀ p ∈ names, Replaces p) :
    pieces lineStart (spliceFrom n (lexeme ++ flat ps) (exchanges ((⟨.identifier, lexeme, n⟩, w) :: names))) =
      (.identifier, w) ::
        pieces false (spliceFrom (n + byteLen lexeme) (flat ps) (exchanges names)) := by
  have edits : exchanges ((⟨.identifier, lexeme, n⟩, w) :: names) =
      ⟨n, n + byteLen lexeme, w⟩ :: exchanges names := rfl
  rw [edits, spliceFrom_cons_append, pieces_name isName]
  rw [head?_spliceFrom_exchanges (rest.symm ▸ part) replaces]
  exact free

theorem ne_of_start_le {k : Token} (some_piece : lexeme ≠ []) (le : n + byteLen lexeme ≤ k.start) :
    k ≠ ⟨kind, lexeme, n⟩ := by
  rintro rfl
  obtain ⟨c, more, rfl⟩ := List.exists_cons_of_ne_nil some_piece
  have := c.utf8Size_pos
  rw [byteLen_cons] at le
  dsimp only at le
  omega

end Step

theorem pieces_spliceFrom_exchanges
    (part : (names.map Prod.fst).Sublist (sig n (pieces lineStart t)))
    (replaces : ∀ p ∈ names, Replaces p) :
    pieces lineStart (spliceFrom n t (exchanges names)) =
      (place n (pieces lineStart t)).map fun k => (k.kind, (names.lookup k).getD k.lexeme) := by
  generalize cut : pieces lineStart t = ps at part ⊢
  induction ps generalizing lineStart t n names with
  | nil =>
    obtain rfl := List.map_eq_nil_iff.1 (List.sublist_nil.1 part)
    exact cut
  | cons p ps ih =>
    obtain ⟨kind, lexeme⟩ := p
    have here : pieces lineStart t = [] ++ (kind, lexeme) :: ps := cut
    obtain rfl : t = lexeme ++ flat ps := by
      rw [← flat_cons kind, ← cut]
      exact (flatten_pieces lineStart t).symm
    obtain ⟨c, more, filled, -⟩ := exists_cons_of_mem_pieces (cut ▸ List.mem_cons_self)
    have some_piece : lexeme ≠ [] := filled ▸ List.cons_ne_nil c more
    have kept (part : (names.map Prod.fst).Sublist (sig (n + byteLen lexeme) ps)) :
        pieces lineStart (spliceFrom n (lexeme ++ flat ps) (exchanges names)) =
          (place n ((kind, lexeme) :: ps)).map fun k => (k.kind, (names.lookup k).getD k.lexeme) := by
      by_cases renames : names = []
      · subst renames
        simp only [List.lookup_nil, Option.getD_none, map_place]
        exact cut
      obtain ⟨lineStart', rest, read⟩ := exists_pieces_of_kept cut renames part replaces
      have fresh : names.lookup ⟨kind, lexeme, n⟩ = none := List.lookup_eq_none_iff.2 fun p hp =>
        bne_iff_ne.2 (ne_of_start_le some_piece (start_le_of_mem_sig (part.mem (List.mem_map_of_mem hp)))).symm
      rw [read, ih replaces rest part, place, List.map_cons, fresh]
      rfl
    rw [sig_cons] at part
    split at part
    · exact kept part
    · rcases names with _ | ⟨⟨first, w⟩, names⟩
      · exact kept (List.nil_sublist _)
      rw [List.map_cons] at part
      cases part with
      | cons _ part => exact kept part
      | cons_cons _ part =>
        obtain ⟨identifier, isName, -⟩ := replaces _ List.mem_cons_self
        obtain rfl : kind = .identifier := of_decide_eq_true identifier
        obtain ⟨lexeme_name, -, free⟩ := isName_of_pieces here
        have replaces' : ∀ p ∈ names, Replaces p := fun p hp => replaces p (List.mem_cons_of_mem _ hp)
        have rest : pieces false (flat ps) = ps := by
          rw [pieces_name lexeme_name free] at cut
          exact (List.cons.inj cut).2
        rw [pieces_of_renamed isName free rest part replaces', ih replaces' rest part, place, List.map_cons,
          List.lookup_cons_self]
        refine congrArg _ (List.map_congr_left fun k hk => ?_)
        rw [List.lookup_cons, beq_false_of_ne (ne_of_start_le some_piece (start_le_of_mem_place hk))]

theorem scan_splice_exchanges (part : (names.map Prod.fst).Sublist (significant t))
    (replaces : ∀ p ∈ names, Replaces p) :
    (scan (splice t (exchanges names))).map (fun k => (k.kind, k.lexeme)) =
      (scan t).map fun k => (k.kind, (names.lookup k).getD k.lexeme) := by
  have slices := slicesFrom_exchanges ((ordered_significant t).sublist part)
    (fun p hp => standsIn_of_mem_significant (part.mem (List.mem_map_of_mem hp))) (isBoundary_zero t)
    fun _ _ => Nat.zero_le _
  rw [splice_eq_spliceFrom slices.pairwise.1, dropBytes_zero, scan, map_place]
  exact pieces_spliceFrom_exchanges part replaces

theorem map_significant_of_map_scan {u : Text} {name : Token → Text}
    (same : (scan u).map (fun k => (k.kind, k.lexeme)) = (scan t).map fun k => (k.kind, name k)) :
    (significant u).map (fun k => (k.kind, k.lexeme)) = (significant t).map fun k => (k.kind, name k) := by
  have solid (k : Token) (lexeme : Text) : (!k.isTrivia) =
      !(⟨(k.kind, lexeme).1, lexeme, 0⟩ : Token).isTrivia := rfl
  have filtered {f : Token → Text} (ks : List Token) :
      (ks.filter fun k => !k.isTrivia).map (fun k => (k.kind, f k)) =
        (ks.map fun k => (k.kind, f k)).filter fun p => !(⟨p.1, p.2, 0⟩ : Token).isTrivia := by
    rw [List.filter_map]
    rfl
  rw [significant, significant, filtered, filtered, same]

end Renaming

end Token

namespace Legacy

/-- Whether tokens call a texture function: its name stands in front of an opening parenthesis and the
name of the sampler. -/
def Calls (ts : List Token) (call : TextureCall) : Prop :=
  (∃ front opening later, ts = front ++ call.function :: opening :: call.sampler :: later ∧
    opening.isPunct '(' = true) ∧
  call.function.isIdentifier = true ∧ call.function.name ∈ textureFunctions ∧
    call.sampler.isIdentifier = true

section Calls

theorem calls_cons {k : Token} {ts : List Token} {call : TextureCall} : Calls (k :: ts) call ↔
    (k = call.function ∧ (∃ opening later, ts = opening :: call.sampler :: later ∧
      opening.isPunct '(' = true) ∧ call.function.isIdentifier = true ∧
      call.function.name ∈ textureFunctions ∧ call.sampler.isIdentifier = true) ∨ Calls ts call := by
  constructor
  · rintro ⟨⟨front, opening, later, cut, opens⟩, names⟩
    cases front with
    | nil =>
      obtain ⟨rfl, rfl⟩ := List.cons.inj cut
      exact Or.inl ⟨rfl, ⟨opening, later, rfl, opens⟩, names⟩
    | cons first front =>
      obtain ⟨-, rfl⟩ := List.cons.inj cut
      exact Or.inr ⟨⟨front, opening, later, rfl, opens⟩, names⟩
  · rintro (⟨rfl, ⟨opening, later, rfl, opens⟩, names⟩ | ⟨⟨front, opening, later, rfl, opens⟩, names⟩)
    · exact ⟨⟨[], opening, later, rfl, opens⟩, names⟩
    · exact ⟨⟨k :: front, opening, later, rfl, opens⟩, names⟩

theorem mem_textureCalls {ts : List Token} {call : TextureCall} :
    call ∈ textureCalls ts ↔ Calls ts call := by
  fun_induction textureCalls ts with
  | case1 =>
    refine ⟨fun none => absurd none List.not_mem_nil, ?_⟩
    rintro ⟨⟨front, opening, later, cut, -⟩, -⟩
    simp at cut
  | case2 k opening sampler later call' ih =>
    simp only [Bool.and_eq_true, decide_eq_true_eq] at call'
    rw [List.mem_cons, calls_cons, ih]
    refine or_congr_left ⟨?_, ?_⟩
    · rintro rfl
      exact ⟨rfl, ⟨opening, later, rfl, call'.1.2⟩, call'.1.1.1, call'.1.1.2, call'.2⟩
    · rintro ⟨rfl, ⟨opening', later', same, -⟩, -⟩
      simp only [List.cons.injEq] at same
      rw [same.2.1]
  | case3 k opening sampler later no_call ih =>
    rw [calls_cons, ih, or_iff_right]
    rintro ⟨rfl, ⟨opening', later', same, opens⟩, identifier, listed, names⟩
    simp only [List.cons.injEq] at same
    obtain ⟨rfl, rfl, -⟩ := same
    exact no_call (by simp [identifier, listed, opens, names])
  | case4 k ts short ih =>
    rw [calls_cons, ih, or_iff_right]
    rintro ⟨rfl, ⟨opening, later, rfl, -⟩, -⟩
    exact short _ _ _ rfl

end Calls

section Names

def dimensions : List String :=
  ["2D", "Cube", "3D"]

theorem mem_dimensions {t : Text} {tokens : List Token} {functions : List FunctionDef}
    {defines : List Define} {call : TextureCall} {dimension : String}
    (known : callDimension? t tokens functions defines call = some dimension) : dimension ∈ dimensions := by
  obtain ⟨type, -, known⟩ := Option.bind_eq_some_iff.1 known
  obtain ⟨dims, -, known⟩ := Option.bind_eq_some_iff.1 known
  exact List.mem_of_find?_eq_some known

/-- A new name is a name that starts like the old ones and is none of them. It has the suffix of the
extension exactly if the extension is needed. -/
theorem textureName_spec {stage : Stage} {function : Token} {dimension : String}
    (listed : function.lexeme ∈ textureFunctions.map String.toList) (known : dimension ∈ dimensions) :
    let r := textureName stage function dimension
    IsName r ∧ r.head? = function.lexeme.head? ∧ r ∉ textureFunctions.map String.toList ∧
      ("EXT".toList <:+ r ↔ needsLod stage (function.lexeme.drop "texture".length) = true) := by
  have each : ∀ f ∈ textureFunctions.map String.toList, ∀ dimension ∈ dimensions, ∀ lod : Bool,
      let r := "texture".toList ++ dimension.toList ++ f.drop "texture".length ++
        if lod then "EXT".toList else []
      (r.head?.any isIdentStart = true ∧ r.all isIdentChar = true) ∧ r.head? = f.head? ∧
        r ∉ textureFunctions.map String.toList ∧ ("EXT".toList <:+ r ↔ lod = true) := by
    decide +kernel
  obtain ⟨⟨start, inside⟩, rest⟩ := each _ listed dimension known
    (needsLod stage (function.lexeme.drop "texture".length))
  exact ⟨isName_of_all start inside, rest⟩

theorem needsLod_iff {stage : Stage} {f : Text} (listed : f ∈ textureFunctions.map String.toList) :
    needsLod stage (f.drop "texture".length) = true ↔
      stage = .fragment ∧ ("Lod".toList <:+ f ∨ "Grad".toList <:+ f) := by
  have each : ∀ f ∈ textureFunctions.map String.toList, ∀ stage ∈ [Stage.vertex, .fragment, .compute],
      needsLod stage (f.drop "texture".length) = true ↔
        stage = .fragment ∧ ("Lod".toList <:+ f ∨ "Grad".toList <:+ f) := by
    decide +kernel
  exact each f listed stage (by cases stage <;> simp)

end Names

section Remapping

variable {t : Text} {stage : Stage} {defines : List Define} {call : TextureCall}

theorem Calls.listed {ts : List Token} (h : Calls ts call) :
    call.function.lexeme ∈ textureFunctions.map String.toList :=
  List.mem_map.2 ⟨_, h.2.2.1, String.toList_ofList⟩

theorem Calls.mem {ts : List Token} (h : Calls ts call) : call.function ∈ ts := by
  obtain ⟨⟨front, opening, later, rfl, -⟩, -⟩ := h
  simp

theorem Calls.eq_of_function_eq {call' : TextureCall} (h : Calls (significant t) call)
    (h' : Calls (significant t) call') (same : call.function = call'.function) : call = call' := by
  obtain ⟨⟨front, opening, later, cut, -⟩, -⟩ := h
  obtain ⟨⟨front', opening', later', cut', -⟩, -⟩ := h'
  have nodup : (significant t).Nodup := (ordered_significant t).1.imp_of_mem fun {a b} ha _ le => by
    rintro rfl
    have := (ordered_significant t).2 a ha
    omega
  rw [cut, List.nodup_append, List.nodup_cons] at nodup
  obtain ⟨-, ⟨fresh, -⟩, apart⟩ := nodup
  rw [cut, same] at cut'
  have fresh' : call'.function ∉ front := fun member =>
    apart _ member _ List.mem_cons_self same.symm
  obtain ⟨-, -, tail⟩ := (List.append_cons_inj_of_notMem fresh' (same ▸ fresh)).1 cut'
  simp only [List.cons.injEq] at tail
  cases call
  cases call'
  simp_all

theorem mem_renamings {p : Token × Text} : p ∈ renamings t stage defines ↔
    ∃ call, Calls (significant t) call ∧ ∃ dimension,
      callDimension? t (significant t) (find t) defines call = some dimension ∧
        p = (call.function, textureName stage call.function dimension) := by
  simp only [renamings, List.mem_filterMap, mem_textureCalls, Option.map_eq_some_iff, eq_comm (a := p)]

theorem replaces_of_mem_renamings {p : Token × Text} (member : p ∈ renamings t stage defines) :
    Replaces p ∧ p.2 ∉ textureFunctions.map String.toList := by
  obtain ⟨call, h, dimension, known, rfl⟩ := mem_renamings.1 member
  obtain ⟨isName, head, fresh, -⟩ := @textureName_spec stage _ _ h.listed (mem_dimensions known)
  exact ⟨⟨h.2.1, isName, head⟩, fresh⟩

theorem lookup_renamings (h : Calls (significant t) call) :
    (renamings t stage defines).lookup call.function =
      (callDimension? t (significant t) (find t) defines call).map (textureName stage call.function) := by
  cases found : (renamings t stage defines).lookup call.function with
  | some w =>
    obtain ⟨front, later, cut, -⟩ := List.lookup_eq_some_iff.1 found
    obtain ⟨call', h', dimension, known, pair⟩ := mem_renamings.1
      (show (call.function, w) ∈ renamings t stage defines by rw [cut]; simp)
    obtain ⟨same, rfl⟩ := Prod.mk.inj pair
    obtain rfl := h.eq_of_function_eq h' same
    rw [known]
    rfl
  | none =>
    cases known : callDimension? t (significant t) (find t) defines call with
    | none => rfl
    | some dimension =>
      have apart := List.lookup_eq_none_iff.1 found _ (mem_renamings.2 ⟨call, h, dimension, known, rfl⟩)
      simp at apart

theorem plain_remapTextures (typed : ∀ call ∈ textureCalls (significant t),
    (callDimension? t (significant t) (find t) defines call).isSome = true) :
    Plain (remapTextures t stage defines) := by
  refine Plain.bind (Plain.bind (Plain.mapM fun call hc => ?_) fun renamed => ⟨_, rfl⟩)
    fun edits => ⟨_, rfl⟩
  obtain ⟨dimension, known⟩ := Option.isSome_iff_exists.1 (typed call hc)
  rw [known]
  exact ⟨_, rfl⟩

theorem runWith_remapTextures_of_no_call (none_called : textureCalls (significant t) = []) (r : Report) :
    (remapTextures t stage defines).runWith r = (.ok (t, false), r) := by
  simp only [remapTextures, textureEdits, none_called, List.mapM_nil, pure_bind, List.filterMap_nil, List.map_nil,
    splice_nil]
  rfl

theorem textureCalls_eq_nil {u : Text} {name : Token → Text}
    (same : (scan u).map (fun k => (k.kind, k.lexeme)) = (scan t).map fun k => (k.kind, name k))
    (kept : ∀ k, (∀ call, Calls (significant t) call → call.function ≠ k) → name k = k.lexeme)
    (fresh : ∀ call, Calls (significant t) call →
      name call.function ∉ textureFunctions.map String.toList) : textureCalls (significant u) = [] := by
  have tokens := map_significant_of_map_scan same
  refine List.eq_nil_iff_forall_not_mem.2 fun ⟨function, sampler⟩ member => ?_
  have called := mem_textureCalls.1 member
  have listed := called.listed
  obtain ⟨⟨front, opening, later, cut, opens⟩, identifier, -, identifier'⟩ := called
  rw [cut, eq_comm] at tokens
  simp only [List.map_append, List.map_cons, List.map_eq_append_iff, List.map_eq_cons_iff] at tokens
  obtain ⟨front₀, rest, cut₀, -, f, rest', rfl, same_f, o, rest'', rfl, same_o, k, later₀, rfl, same_k, -⟩ :=
    tokens
  obtain ⟨kind_f, lexeme_f⟩ := Prod.mk.inj same_f
  obtain ⟨kind_o, lexeme_o⟩ := Prod.mk.inj same_o
  obtain ⟨kind_k, -⟩ := Prod.mk.inj same_k
  have is_f : f.isIdentifier = true := by rw [isIdentifier, kind_f]; exact identifier
  have is_k : k.isIdentifier = true := by rw [isIdentifier, kind_k]; exact identifier'
  simp only [isPunct, Bool.and_eq_true, decide_eq_true_eq] at opens
  have same_opening : name o = o.lexeme := by
    refine kept o fun call h same => ?_
    have := h.2.1
    simp [isIdentifier, same, kind_o, opens.1] at this
  -- A function that was called has a new name, and the others are no texture functions.
  by_cases called : ∃ call, Calls (significant t) call ∧ call.function = f
  · obtain ⟨call, h, rfl⟩ := called
    exact fresh call h (lexeme_f ▸ listed)
  · rw [not_exists] at called
    have same_name := kept f fun call h same => called call ⟨h, same⟩
    refine called ⟨f, k⟩ ⟨⟨⟨front₀, o, later₀, cut₀, ?_⟩, is_f, ?_, is_k⟩, rfl⟩
    · simp only [isPunct, Bool.and_eq_true, decide_eq_true_eq]
      exact ⟨kind_o.trans opens.1, by rw [← same_opening, lexeme_o, opens.2]⟩
    · rw [Token.name, ← same_name, lexeme_f]
      obtain ⟨g, hg, named⟩ := List.mem_map.1 listed
      dsimp only at named
      rw [← named, String.ofList_toList]
      exact hg

def renamedLexeme (t : Text) (stage : Stage) (defines : List Define) (k : Token) : Text :=
  ((renamings t stage defines).lookup k).getD k.lexeme

theorem renamedLexeme_of_no_call {k : Token}
    (no_call : ∀ call, Calls (significant t) call → call.function ≠ k) :
    renamedLexeme t stage defines k = k.lexeme := by
  have none_found : (renamings t stage defines).lookup k = none := by
    refine List.lookup_eq_none_iff.2 fun p member => bne_iff_ne.2 fun same => ?_
    obtain ⟨call, h, dimension, -, rfl⟩ := mem_renamings.1 member
    exact no_call call h same.symm
  rw [renamedLexeme, none_found]
  rfl

theorem renamedLexeme_function {dimension : String} (h : Calls (significant t) call)
    (known : callDimension? t (significant t) (find t) defines call = some dimension) :
    renamedLexeme t stage defines call.function = textureName stage call.function dimension := by
  rw [renamedLexeme, lookup_renamings h, known]
  rfl

theorem scan_remapTextures {r s : Report} {out : Text} {lod : Bool}
    (run : (remapTextures t stage defines).runWith r = (.ok (out, lod), s)) :
    (scan out).map (fun k => (k.kind, k.lexeme)) =
      (scan t).map fun k => (k.kind, renamedLexeme t stage defines k) := by
  obtain ⟨rfl, -⟩ := remapTextures_eq run
  exact scan_splice_exchanges ((renamings_sublist t stage defines).trans (calledFunctions_sublist _))
    fun p member => (replaces_of_mem_renamings member).1

theorem any_needsLod_iff
    (typed : ∀ call, Calls (significant t) call → ∃ dimension,
      callDimension? t (significant t) (find t) defines call = some dimension) :
    (renamings t stage defines).any (fun p => needsLod stage (p.1.lexeme.drop "texture".length)) = true ↔
      ∃ call, Calls (significant t) call ∧
        needsLod stage (call.function.lexeme.drop "texture".length) = true := by
  rw [List.any_eq_true]
  constructor
  · rintro ⟨p, member, lod⟩
    obtain ⟨call, h, dimension, -, rfl⟩ := mem_renamings.1 member
    exact ⟨call, h, lod⟩
  · rintro ⟨call, h, lod⟩
    obtain ⟨dimension, known⟩ := typed call h
    exact ⟨_, mem_renamings.2 ⟨call, h, dimension, known, rfl⟩, lod⟩

/-- Renaming the texture calls of a text changes the names of the called functions, to those for the
dimensions of the samplers, and no other token. The extension is needed where a name got its suffix,
which is where a fragment shader calls a function that chooses a level of detail. A second run finds
nothing to rename. -/
theorem remapTextures_renames_calls {r s : Report} {out : Text} {lod : Bool}
    (strict : r.throwOnError = true) (run : (remapTextures t stage defines).runWith r = (.ok (out, lod), s)) :
    ∃ name : Token → Text,
      (scan out).map (fun k => (k.kind, k.lexeme)) = (scan t).map (fun k => (k.kind, name k)) ∧
      (∀ k, (∀ call, Calls (significant t) call → call.function ≠ k) → name k = k.lexeme) ∧
      (∀ call, Calls (significant t) call → ∃ dimension ∈ dimensions,
        callDimension? t (significant t) (find t) defines call = some dimension ∧
          name call.function = textureName stage call.function dimension) ∧
      (lod = true ↔ stage = .fragment ∧ ∃ call, Calls (significant t) call ∧
        ("Lod".toList <:+ call.function.lexeme ∨ "Grad".toList <:+ call.function.lexeme)) ∧
      (lod = true ↔ ∃ call, Calls (significant t) call ∧ "EXT".toList <:+ name call.function) ∧
      ∀ stage' defines' r', (remapTextures out stage' defines').runWith r' = (.ok (out, false), r') := by
  obtain ⟨-, lod_eq, known⟩ := remapTextures_eq run
  have typed (call : TextureCall) (h : Calls (significant t) call) :=
    Option.isSome_iff_exists.1 (known strict call (mem_textureCalls.2 h))
  have named (call : TextureCall) (h : Calls (significant t) call) : ∃ dimension ∈ dimensions,
      callDimension? t (significant t) (find t) defines call = some dimension ∧
        renamedLexeme t stage defines call.function = textureName stage call.function dimension := by
    obtain ⟨dimension, known⟩ := typed call h
    exact ⟨dimension, mem_dimensions known, known, renamedLexeme_function h known⟩
  have tokens := scan_remapTextures run
  refine ⟨renamedLexeme t stage defines, tokens, fun k => renamedLexeme_of_no_call, named, ?_, ?_,
    fun stage' defines' r' => ?_⟩
  · rw [lod_eq, any_needsLod_iff typed]
    constructor
    · rintro ⟨call, h, lod⟩
      obtain ⟨fragment, ends⟩ := (needsLod_iff h.listed).1 lod
      exact ⟨fragment, call, h, ends⟩
    · rintro ⟨fragment, call, h, ends⟩
      exact ⟨call, h, (needsLod_iff h.listed).2 ⟨fragment, ends⟩⟩
  · rw [lod_eq, any_needsLod_iff typed]
    refine exists_congr fun call => and_congr_right fun h => ?_
    obtain ⟨dimension, listed, -, renamed⟩ := named call h
    rw [renamed, (textureName_spec h.listed listed).2.2.2]
  · refine runWith_remapTextures_of_no_call ?_ r'
    refine textureCalls_eq_nil tokens (fun k => renamedLexeme_of_no_call) fun call h => ?_
    obtain ⟨dimension, listed, -, renamed⟩ := named call h
    rw [renamed]
    exact (textureName_spec h.listed listed).2.2.1

def lookups : Text :=
  ("uniform sampler2D a;\nuniform samplerCube b;\n" ++
    "vec4 f() \x7b return textureLod(a, u, 0.0) + texture(b, n); \x7d").toList

theorem remapTextures_renames_calls_of_lookups : ∃ out lod s,
    (remapTextures lookups .fragment []).runWith {} = (.ok (out, lod), s) ∧ lod = true ∧
      (∃ name : Token → Text,
        (scan out).map (fun k => (k.kind, k.lexeme)) = (scan lookups).map (fun k => (k.kind, name k)) ∧
        name ⟨.identifier, "textureLod".toList, 62⟩ = "texture2DLodEXT".toList ∧
        name ⟨.identifier, "texture".toList, 86⟩ = "textureCube".toList) ∧
      (remapTextures out .fragment []).runWith {} = (.ok (out, false), {}) := by
  let dimension := callDimension? lookups (significant lookups) (find lookups) []
  have typed : (textureCalls (significant lookups)).map (fun call => (call.function, dimension call)) =
      [(⟨.identifier, "textureLod".toList, 62⟩, some "2D"),
        (⟨.identifier, "texture".toList, 86⟩, some "Cube")] := by decide +kernel
  obtain ⟨⟨out, lod⟩, s, run⟩ := (@plain_remapTextures lookups .fragment [] fun call member => by
    have known := List.mem_map_of_mem (f := fun call => (call.function, dimension call)) member
    rw [typed, List.mem_cons, List.mem_singleton] at known
    show (dimension call).isSome = true
    rcases known with known | known
    · rw [(Prod.mk.inj known).2]
      rfl
    · rw [(Prod.mk.inj known).2]
      rfl).exists_runWith {}
  obtain ⟨name, tokens, -, named, lod_iff, -, again⟩ := remapTextures_renames_calls rfl run
  have renamed {f : Token} {dim : String} (listed : (f, some dim) ∈
      (textureCalls (significant lookups)).map fun call => (call.function, dimension call)) :
      ∃ call, Calls (significant lookups) call ∧ call.function = f ∧
        name f = textureName .fragment f dim := by
    obtain ⟨call, member, same⟩ := List.mem_map.1 listed
    obtain ⟨rfl, known⟩ := Prod.mk.inj same
    obtain ⟨dim', -, known', named⟩ := named call (mem_textureCalls.1 member)
    obtain rfl := Option.some.inj (known.symm.trans known')
    exact ⟨call, mem_textureCalls.1 member, rfl, named⟩
  obtain ⟨first, called, function, name_first⟩ := renamed (typed ▸ List.mem_cons_self)
  obtain ⟨-, -, -, name_second⟩ := renamed (typed ▸ List.mem_cons_of_mem _ List.mem_cons_self)
  refine ⟨out, lod, s, run, lod_iff.2 ⟨rfl, first, called, ?_⟩, ⟨name, tokens, ?_, ?_⟩, again _ _ _⟩
  · rw [function]
    decide
  · rw [name_first]
    decide
  · rw [name_second]
    decide

end Remapping

end Legacy

end ShaderPass
