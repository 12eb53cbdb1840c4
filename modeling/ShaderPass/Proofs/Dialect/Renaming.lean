import ShaderPass.Proofs.Declaration.Splicing
import ShaderPass.Proofs.Token.Rewording

/-! What transcoding does to a text once the declarations are replaced: it exchanges words, the names of
fragment outputs first and the texture functions that are called then. -/
namespace ShaderPass.Legacy

open Token ShaderPass.Bracket Text Declaration Compile

section Outputs

/-- The builtin variable that a fragment output with a location becomes among `count` outputs. -/
def builtin (count location : Nat) : Text :=
  if count = 1 then "gl_FragColor".toList else s!"gl_FragData[{location}]".toList

def IsOutput (outputs : List (String × Nat)) (w : Text) : Prop :=
  ∃ o ∈ outputs, o.1.toList = w
deriving Decidable

def outputNamed? (outputs : List (String × Nat)) (w : Text) : Option (String × Nat) :=
  outputs.find? fun o => o.1.toList = w

/-- Whether no output takes the name of the array of all outputs, unless it is the only one. -/
def Unambiguous (outputs : List (String × Nat)) : Prop :=
  outputs.length = 1 ∨ ¬ IsOutput outputs "gl_FragData".toList
deriving Decidable

/-- What the words become when the outputs are renamed: other words stay, and the names become the
targets of the first outputs that have them. -/
structure RenamesOutput (outputs : List (String × Nat)) (target : Nat → Text) (w r : Text) : Prop where
  other : ¬ IsOutput outputs w → r = w
  output : IsOutput outputs w → Unambiguous outputs →
    ∃ o, outputNamed? outputs w = some o ∧ r = target o.2
  inert : IsWord w → Inert r

theorem isOutput_of_outputNamed? {outputs : List (String × Nat)} {w : Text} {o : String × Nat}
    (named : outputNamed? outputs w = some o) : o ∈ outputs ∧ o.1.toList = w :=
  ⟨List.mem_of_find?_eq_some named, by simpa using List.find?_some named⟩

theorem renamesOutput_nil (target : Nat → Text) (w : Text) : RenamesOutput [] target w w := by
  refine ⟨fun _ => rfl, fun output => ?_, inert_of_isWord⟩
  obtain ⟨o, member, -⟩ := output
  cases member

theorem not_isName_of_isDigit {c : Char} {w : Text} (digit : c.isDigit = true) : ¬ IsName (c :: w) := by
  rintro ⟨d, more, same, start, -⟩
  obtain ⟨rfl, -⟩ := List.cons.inj same
  rw [isDigit_of_isIdentStart start] at digit
  cases digit

theorem toList_fragData (location : Nat) : s!"gl_FragData[{location}]".toList =
    "gl_FragData".toList ++ '[' :: (Nat.toDigits 10 location ++ [']']) := by
  simp only [String.toList_append, Nat.toString_eq_repr, Nat.toList_repr, List.append_assoc]
  rfl

theorem not_isName_toDigits (n : Nat) : ¬ IsName (Nat.toDigits 10 n) := by
  obtain ⟨c, more, shape⟩ := List.exists_cons_of_ne_nil (Nat.toDigits_ne_nil (n := n) (b := 10))
  rw [shape]
  exact not_isName_of_isDigit (isDigit_of_mem_toDigits (shape ▸ List.mem_cons_self))

theorem words_builtin {count location : Nat} {w : Text} (member : w ∈ words (builtin count location)) :
    w = (if count = 1 then "gl_FragColor" else "gl_FragData").toList ∨ ¬ IsName w := by
  unfold builtin at member
  split at member
  · rename_i single
    rw [words_of_isWord ⟨by decide, by simp [isIdentChar]⟩, List.mem_singleton] at member
    rw [if_pos single]
    exact Or.inl member
  · rename_i several
    rw [toList_fragData, words_append_cons (by decide), words_append_cons (by decide), words_nil,
      List.append_nil, words_of_isWord ⟨by decide, by simp [isIdentChar]⟩,
      words_of_isWord (isWord_toDigits location), List.mem_append, List.mem_singleton,
      List.mem_singleton] at member
    rw [if_neg several]
    refine member.imp_right ?_
    rintro rfl
    exact not_isName_toDigits location

theorem inert_builtin (count location : Nat) : Inert (builtin count location) := by
  unfold builtin
  split
  · exact inert_of_isWord ⟨by decide, by simp [isIdentChar]⟩
  · rw [toList_fragData]
    have name : Inert "gl_FragData".toList := inert_of_isWord ⟨by decide, by simp [isIdentChar]⟩
    have index := inert_of_isWord (isWord_toDigits location)
    refine ⟨rfl, fun c member => ?_⟩
    simp only [List.mem_append, List.mem_cons] at member
    rcases member with member | rfl | member | rfl | member
    · exact name.2 c member
    · decide
    · exact index.2 c member
    · decide
    · cases member

theorem Reworded.of_isWord {R : Text → Text → Text → Prop} {w t : Text} (isWord : IsWord w)
    (h : Reworded R w t) : R w [] t := by
  rw [← List.append_nil w] at h
  obtain ⟨r, t', rfl, admits, later⟩ := h.of_word isWord rfl
  rwa [later.of_nil, List.append_nil]

theorem reworded_foldl {outputs : List (String × Nat)} (named : ∀ o ∈ outputs, IsName o.1.toList)
    (t : Text) : Reworded (fun w _ r => RenamesOutput outputs (builtin 0) w r) t
      (outputs.foldl (fun t (name, location) =>
        replaceWord t name.toList s!"gl_FragData[{location}]".toList) t) := by
  induction outputs generalizing t with
  | nil => exact Reworded.refl (fun w _ => renamesOutput_nil _ w) t
  | cons o outputs ih =>
    have first := reworded_replaceWord (named o List.mem_cons_self).isWord t (builtin 0 o.2)
    have later := ih (fun o' ho => named o' (List.mem_cons_of_mem _ ho))
      (replaceWord t o.1.toList (builtin 0 o.2))
    refine (first.trans later).mono ?_
    rintro w - r isWord ⟨v, -, rfl, -, rest⟩
    have cons {x : Text} : IsOutput (o :: outputs) x ↔ o.1.toList = x ∨ IsOutput outputs x := by
      simp [IsOutput]
    have later_apart (apart : Unambiguous (o :: outputs)) {o' : String × Nat} (member : o' ∈ outputs) :
        ¬ IsOutput outputs "gl_FragData".toList := by
      rcases apart with single | none
      · rw [List.length_eq_zero_iff.1 (Nat.succ.inj single)] at member
        cases member
      · exact fun taken => none (cons.2 (Or.inr taken))
    refine ⟨fun other => ?_, fun output apart => ?_, fun _ => ?_⟩
    · rw [cons, not_or] at other
      rw [if_neg (Ne.symm other.1)] at rest
      exact (Reworded.of_isWord isWord rest).other other.2
    · by_cases same : w = o.1.toList
      · rw [if_pos same] at rest
        refine ⟨o, List.find?_cons_of_pos (by simpa using same.symm), rest.eq ?_⟩
        rintro x hx - r' renames
        -- The words of the new name are no names of outputs.
        refine renames.other ?_
        rintro ⟨o', ho, rfl⟩
        rcases words_builtin hx with array | no_name
        · exact later_apart apart ho ⟨o', ho, array⟩
        · exact no_name (named o' (List.mem_cons_of_mem _ ho))
      · rw [if_neg same] at rest
        have among := (cons.1 output).resolve_left (Ne.symm same)
        obtain ⟨o'', member, -⟩ := id among
        obtain ⟨o', first, rest⟩ := (Reworded.of_isWord isWord rest).output among
          (Or.inr (later_apart apart member))
        exact ⟨o', (List.find?_cons_of_neg (by simpa using Ne.symm same)).trans first, rest⟩
    · refine inert_of_reworded (fun _ _ _ isWord renames => renames.inert isWord) rest ?_
      split
      · exact inert_builtin 0 o.2
      · exact inert_of_isWord isWord

theorem reworded_renameOutputs {outputs : List (String × Nat)}
    (named : ∀ o ∈ outputs, IsName o.1.toList) (t : Text) :
    Reworded (fun w _ r => RenamesOutput outputs (builtin outputs.length) w r) t
      (renameOutputs t outputs) := by
  unfold renameOutputs
  split
  · exact Reworded.refl (fun w _ => renamesOutput_nil _ w) t
  · rename_i name location
    refine (reworded_replaceWord (named _ List.mem_cons_self).isWord t _).mono ?_
    rintro w - r - rfl
    have single : IsOutput [(name, location)] w ↔ w = name.toList := by
      simp [IsOutput, eq_comm]
    refine ⟨fun other => if_neg (mt single.2 other), fun output _ => ?_, fun isWord => ?_⟩
    · rw [if_pos (single.1 output)]
      exact ⟨_, List.find?_cons_of_pos (by simpa using (single.1 output).symm), rfl⟩
    · split
      · exact inert_builtin 1 location
      · exact inert_of_isWord isWord
  · rename_i several
    have target : builtin outputs.length = builtin 0 := by
      have : outputs.length ≠ 1 := fun one => by
        obtain ⟨o, rfl⟩ := List.length_eq_one_iff.1 one
        exact several _ _ rfl
      funext location
      rw [builtin, if_neg this, builtin, if_neg Nat.zero_ne_one]
    rw [target]
    exact reworded_foldl named t

end Outputs

section Calls

/-- Whether a text goes on with a parenthesis, blanks and comments aside. -/
def OpensCall (rest : Text) : Prop :=
  ∃ n k later, sig n (pieces false rest) = k :: later ∧ k.isPunct '(' = true

def RenamesCall (w rest r : Text) : Prop :=
  r = w ∨ w ∈ textureFunctions.map String.toList ∧ OpensCall rest

theorem calledFunctions_cons (k : Token) (ts : List Token) :
    calledFunctions (k :: ts) = calledFunctions ts ∨
      calledFunctions (k :: ts) = k :: calledFunctions ts ∧ k.isIdentifier = true ∧
        k.name ∈ textureFunctions ∧ ∃ opening later, ts = opening :: later ∧
          opening.isPunct '(' = true := by
  unfold calledFunctions
  rcases ts with _ | ⟨opening, _ | ⟨sampler, later⟩⟩
  · exact Or.inl rfl
  · exact Or.inl rfl
  · rw [textureCalls]
    split
    · rename_i call
      simp only [Bool.and_eq_true, decide_eq_true_eq] at call
      exact Or.inr ⟨rfl, call.1.1.1, call.1.1.2, opening, _, rfl, call.1.2⟩
    · exact Or.inl rfl

theorem reworded_spliceFrom_exchanges {lineStart : Bool} {t : Text} {n : Nat}
    {tokens : List (Token × Text)}
    (part : (tokens.map Prod.fst).Sublist (calledFunctions (sig n (pieces lineStart t)))) :
    Reworded RenamesCall t (spliceFrom n t (exchanges tokens)) := by
  have keeps (w rest : Text) : RenamesCall w rest w := Or.inl rfl
  generalize cut : pieces lineStart t = ps at part
  induction ps generalizing lineStart t n tokens with
  | nil =>
    have empty : t = [] := by
      cases t with
      | nil => rfl
      | cons c t => simp [pieces_cons] at cut
    obtain rfl := List.map_eq_nil_iff.1 (List.sublist_nil.1 part)
    exact Reworded.refl keeps t
  | cons p ps ih =>
    obtain ⟨kind, lexeme⟩ := p
    have text : t = lexeme ++ flat ps := by
      rw [← flat_cons kind, ← cut]
      exact (flatten_pieces lineStart t).symm
    have here : pieces lineStart t = [] ++ (kind, lexeme) :: ps := cut
    have apart := isFree_of_pieces here
    obtain ⟨other, rest, -⟩ := pieces_rest here
    -- A piece that is no called function is kept.
    have kept (part : (tokens.map Prod.fst).Sublist
        (calledFunctions (sig (n + byteLen lexeme) ps))) :
        Reworded RenamesCall t (spliceFrom n t (exchanges tokens)) := by
      have later : ∀ e ∈ exchanges tokens, n + byteLen lexeme ≤ e.start ∧ n + byteLen lexeme ≤ e.stop := by
        intro e he
        obtain ⟨token, ht, rfl⟩ := List.mem_map.1 he
        have member := (part.trans (calledFunctions_sublist _)).mem (List.mem_map_of_mem ht)
        have := start_le_of_mem_sig member
        exact ⟨this, Nat.le_add_right_of_le this⟩
      rw [text, spliceFrom_append lexeme _ later]
      exact Reworded.append keeps lexeme apart (ih rest part)
    rw [sig_cons] at part
    split at part
    · exact kept part
    · rcases calledFunctions_cons ⟨kind, lexeme, n⟩ (sig (n + byteLen lexeme) ps) with
        same | ⟨called, identifier, listed, opening, after, opens, punct⟩
      · rw [same] at part
        exact kept part
      · rw [called] at part
        rcases tokens with _ | ⟨⟨first, r⟩, tokens⟩
        · exact kept (List.nil_sublist _)
        rw [List.map_cons] at part
        cases part with
        | cons _ part => exact kept part
        | cons_cons _ part =>
          obtain rfl : kind = .identifier := of_decide_eq_true identifier
          obtain ⟨isName, -, free⟩ := isName_of_pieces here
          have own : pieces false (flat ps) = ps := by
            rw [text, pieces_name isName free] at cut
            exact (List.cons.inj cut).2
          have edit : exchanges ((⟨.identifier, lexeme, n⟩, r) :: tokens) =
              ⟨n, n + byteLen lexeme, r⟩ :: exchanges tokens := rfl
          rw [text, edit, spliceFrom_cons_append]
          refine .word isName.isWord free (Or.inr ⟨?_, ?_⟩) (ih rest part)
          · rw [Token.name] at listed
            exact List.mem_map.2 ⟨_, listed, String.toList_ofList⟩
          · refine ⟨n + byteLen lexeme, opening, after, ?_, punct⟩
            rw [own, opens]

theorem reworded_exchanges {t : Text} {tokens : List (Token × Text)}
    (part : (tokens.map Prod.fst).Sublist (calledFunctions (significant t))) :
    Reworded RenamesCall t (splice t (exchanges tokens)) := by
  have slices := slicesFrom_exchanges
    ((ordered_significant t).sublist (part.trans (calledFunctions_sublist _)))
    (fun token ht => standsIn_of_mem_significant
      ((part.trans (calledFunctions_sublist _)).mem (List.mem_map_of_mem ht)))
    (isBoundary_zero t) fun _ _ => Nat.zero_le _
  rw [splice_eq_spliceFrom slices.pairwise.1, dropBytes_zero]
  exact reworded_spliceFrom_exchanges part

theorem not_opensCall_name {v : Text} (isName : IsName v) (more : Text) :
    ¬ OpensCall (' ' :: (v ++ more)) := by
  rintro ⟨n, k, later, tokens, punct⟩
  obtain ⟨c, w, rfl, start, -⟩ := isName
  have blank : classify false ' ' (c :: (w ++ more)) = (.blank, 0) := by
    rw [classify, if_pos (by decide),
      List.takeWhile_cons_of_neg (by simp [isTokenBlank_of_isIdentStart start])]
    rfl
  rw [List.cons_append, pieces_cons, blank, List.take_zero, List.drop_zero, pieces_cons,
    classify_of_isIdentStart start, sig_cons, if_pos (by simp), sig_cons, if_neg (by simp)] at tokens
  obtain ⟨rfl, -⟩ := List.cons.inj tokens
  cases punct

theorem not_opensCall_stop {stop : Char} (ends : stop = ';' ∨ stop = '[') (more : Text) :
    ¬ OpensCall (stop :: more) := by
  rintro ⟨n, k, later, tokens, punct⟩
  have single : classify false stop more = (.punct, 0) := by
    rcases ends with rfl | rfl <;> rfl
  rw [pieces_cons, single, List.take_zero, List.drop_zero, sig_cons, if_neg (by simp)] at tokens
  obtain ⟨rfl, -⟩ := List.cons.inj tokens
  rcases ends with rfl | rfl <;> cases punct

theorem isName_of_mem_textureFunctions {w : Text} (listed : w ∈ textureFunctions.map String.toList) :
    IsName w := by
  have names : ∀ f ∈ textureFunctions.map String.toList,
      f.head?.any isIdentStart = true ∧ f.all isIdentChar = true := by decide
  obtain ⟨start, inside⟩ := names w listed
  exact isName_of_all start inside

theorem builtin_kept {count location : Nat} {rest r : Text}
    (h : Reworded (fun w more r => RenamesCall w (more ++ rest) r) (builtin count location) r) :
    r = builtin count location := by
  refine h.eq fun w member _ r' renames => ?_
  refine renames.resolve_right ?_
  rintro ⟨listed, -⟩
  rcases words_builtin member with rfl | no_name
  · split at listed
    · exact absurd listed (by decide)
    · exact absurd listed (by decide)
  · exact no_name (isName_of_mem_textureFunctions listed)

end Calls

/-- What the words become: the names of outputs become builtin variables, and of the others only texture
functions in front of a parenthesis may be exchanged. -/
structure Exchanges (outputs : List (String × Nat)) (w rest r : Text) : Prop where
  other : ¬ IsOutput outputs w → r = w ∨ w ∈ textureFunctions.map String.toList ∧ OpensCall rest
  output : IsOutput outputs w → Unambiguous outputs →
    ∃ o, outputNamed? outputs w = some o ∧ r = builtin outputs.length o.2

theorem reworded_renameOutputs_exchanges {outputs : List (String × Nat)}
    (named : ∀ o ∈ outputs, IsName o.1.toList) {t : Text} {tokens : List (Token × Text)}
    (part : (tokens.map Prod.fst).Sublist (calledFunctions (significant (renameOutputs t outputs)))) :
    Reworded (Exchanges outputs) t (splice (renameOutputs t outputs) (exchanges tokens)) := by
  refine ((reworded_renameOutputs named t).trans (reworded_exchanges part)).mono ?_
  rintro w rest r isWord ⟨v, rest', renames, later, called⟩
  refine ⟨fun other => ?_, fun output apart => ?_⟩
  · rw [renames.other other] at called
    refine (Reworded.of_isWord isWord called).imp_right (And.imp_right fun opens => ?_)
    -- Renaming outputs neither makes a parenthesis nor takes one away.
    exact leads_of_reworded (fun _ _ _ isWord renames => renames.inert isWord) (by decide) (by decide)
      later opens
  · obtain ⟨o, first, rfl⟩ := renames.output output apart
    exact ⟨o, first, builtin_kept called⟩

end ShaderPass.Legacy
