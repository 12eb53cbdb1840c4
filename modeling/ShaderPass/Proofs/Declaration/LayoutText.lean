import ShaderPass.Declaration.Basic
import ShaderPass.Proofs.Text.Arguments
import ShaderPass.Proofs.Text.Trimming
import ShaderPass.Proofs.Token.Locality

/-! Layout qualifiers as text: a layout reads back as it was written if its entries do and close their
brackets. Those read from a properly nested list do, with an entry set or added. -/
namespace ShaderPass.Layout

open Text

def entryText (entry : String × Option String) : Text :=
  match entry.2 with
  | some value => entry.1.toList ++ ' ' :: '=' :: ' ' :: value.toList
  | none => entry.1.toList

def entryOf (t : Text) : String × Option String :=
  match cut? ['='] t with
  | some (key, value) => (String.ofList (trim key), some (String.ofList (trim value)))
  | none => (String.ofList (trim t), none)

theorem entryOf_append_cons {key : Text} (first : '=' ∉ key) (value : Text) :
    entryOf (key ++ '=' :: value) =
      (String.ofList (trim key), some (String.ofList (trim value))) := by
  rw [entryOf, cut?_append_cons first]

theorem entryOf_of_notMem {t : Text} (absent : '=' ∉ t) :
    entryOf t = (String.ofList (trim t), none) := by
  rw [entryOf, cut?_eq_none absent]

theorem mem_of_mem_trim {t : Text} {c : Char} (h : c ∈ trim t) : c ∈ t := by
  obtain ⟨a, b, cut, -, -⟩ := exists_trim t
  rw [cut]
  simp [h]

theorem entryOf_trim (t : Text) : entryOf (trim t) = entryOf t := by
  by_cases member : '=' ∈ t
  · obtain ⟨key, value, rfl, first⟩ := List.eq_append_cons_of_mem member
    have first' : '=' ∉ trimStart key := fun h => first ((List.dropWhile_suffix _).mem h)
    rw [trim_append_cons rfl, entryOf_append_cons first', entryOf_append_cons first, trim_trimStart,
      trim_trimEnd]
  · rw [entryOf_of_notMem member, entryOf_of_notMem fun h => member (mem_of_mem_trim h), trim_trim]

theorem parse_eq_map {t : Text} (h : (topPieces 0 t).map trim ≠ [[]]) :
    parse t = (topPieces 0 t).map entryOf := by
  have item (t : Text) : (match cut? ['='] (trim t) with
      | some (key, value) => (String.ofList (trim key), some (String.ofList (trim value)))
      | none => (String.ofList (trim t), none)) = entryOf t := by
    rw [← entryOf_trim, entryOf, trim_trim]
  have args : splitArgs t = (topPieces 0 t).map trim := by
    unfold splitArgs
    split
    · exact absurd ‹_› h
    · rfl
  rw [parse, args, List.map_map]
  exact List.map_congr_left fun t _ => item t

theorem mem_parse {t : Text} {entry : String × Option String} (h : entry ∈ parse t) :
    ∃ y ∈ topPieces 0 t, entry = entryOf y := by
  by_cases empty : (topPieces 0 t).map trim = [[]]
  · have : parse t = [] := by
      rw [parse, splitArgs, empty]
      rfl
    rw [this] at h
    exact absurd h List.not_mem_nil
  · rw [parse_eq_map empty] at h
    obtain ⟨y, hy, rfl⟩ := List.mem_map.1 h
    exact ⟨y, hy, rfl⟩

def isBare (c : Char) : Bool :=
  c ≠ ';' && c ≠ '\x7b' && c ≠ '\x7d'

def IsQuiet (t : Text) : Prop :=
  Token.calm false t = true ∧ ∀ c ∈ t, isBare c = true

structure IsEntry (entry : String × Option String) : Prop where
  arg : IsArg (entryText entry)
  quiet : IsQuiet (entryText entry)
  key_first : '=' ∉ entry.1.toList
  key_trim : trim entry.1.toList = entry.1.toList
  value_trim : ∀ value, entry.2 = some value → trim value.toList = value.toList

theorem spelled_entryOf (t : Text) : '=' ∉ (entryOf t).1.toList ∧
    trim (entryOf t).1.toList = (entryOf t).1.toList ∧
      ∀ value, (entryOf t).2 = some value → trim value.toList = value.toList := by
  by_cases member : '=' ∈ t
  · obtain ⟨key, value, rfl, first⟩ := List.eq_append_cons_of_mem member
    rw [entryOf_append_cons first]
    refine ⟨?_, by simp [trim_trim], by simp [trim_trim]⟩
    simpa using fun h => first (mem_of_mem_trim h)
  · rw [entryOf_of_notMem member]
    refine ⟨?_, by simp [trim_trim], by simp⟩
    simpa using fun h => member (mem_of_mem_trim h)

theorem trim_concat_space (t : Text) : trim (t ++ [' ']) = trim t := by
  rcases blank_or_exists t with blank | ⟨b, c, s, rfl, blank, hc⟩
  · have blank' : ∀ c ∈ t ++ [' '], isBlank c = true := by
      intro c hc
      rcases List.mem_append.1 hc with hc | hc
      · exact blank c hc
      · rw [List.mem_singleton.1 hc]
        rfl
    rw [trim, trim, trimStart_eq_nil blank, trimStart_eq_nil blank']
  · rw [trim, trim, List.append_assoc, List.cons_append, trimStart_append_cons blank hc,
      trimStart_append_cons blank hc, ← List.cons_append]
    exact trimEndWhile_append_of_pos (List.forall_mem_singleton.2 rfl) _

theorem trim_cons_space (t : Text) : trim (' ' :: t) = trim t := rfl

theorem entryOf_cons_space (t : Text) : entryOf (' ' :: t) = entryOf t := by
  rw [← entryOf_trim, trim_cons_space, entryOf_trim]

theorem entryOf_entryText {entry : String × Option String} (key_first : '=' ∉ entry.1.toList)
    (key_trim : trim entry.1.toList = entry.1.toList)
    (value_trim : ∀ value, entry.2 = some value → trim value.toList = value.toList) :
    entryOf (entryText entry) = entry := by
  obtain ⟨key, value⟩ := entry
  cases value with
  | none =>
    show entryOf key.toList = _
    rw [entryOf_of_notMem key_first, key_trim, String.ofList_toList]
  | some value =>
    have text : entryText (key, some value) = (key.toList ++ [' ']) ++ '=' :: (' ' :: value.toList) := by
      simp [entryText]
    have first : '=' ∉ key.toList ++ [' '] := by simpa using key_first
    rw [text, entryOf_append_cons first, trim_concat_space, key_trim, trim_cons_space,
      value_trim value rfl, String.ofList_toList, String.ofList_toList]

theorem IsEntry.entryOf_entryText {entry : String × Option String} (h : IsEntry entry) :
    entryOf (entryText entry) = entry :=
  Layout.entryOf_entryText h.key_first h.key_trim h.value_trim

theorem isStructural_eq_false (p : Char → Bool)
    (none : [',', '(', ')', '[', ']', '\x7b', '\x7d'].any p = false) {c : Char}
    (h : p c = true) : isStructural c = false := by
  rw [Bool.eq_false_iff]
  intro structural
  have member : c ∈ [',', '(', ')', '[', ']', '\x7b', '\x7d'] := by
    rw [isStructural, Bool.or_eq_true, decide_eq_true_eq, Bool.not_eq_true'] at structural
    rcases structural with rfl | bracket
    · decide
    · rcases Bracket.isPlain_or c with plain | ⟨b, hb, rfl⟩ | ⟨b, hb, rfl⟩
      · rw [plain] at bracket
        cases bracket
      all_goals rcases Bracket.mem_all_iff.1 hb with rfl | rfl | rfl <;> decide
  exact List.any_eq_false.1 none c member h

theorem isStructural_of_isBlank {c : Char} (h : isBlank c = true) : isStructural c = false :=
  isStructural_eq_false isBlank rfl h

theorem filter_entryText_entryOf {p : Char → Bool} (other : ∀ c, isBlank c = true → p c = false)
    (t : Text) : (entryText (entryOf t)).filter p = t.filter p := by
  by_cases member : '=' ∈ t
  · obtain ⟨key, value, rfl, first⟩ := List.eq_append_cons_of_mem member
    rw [entryOf_append_cons first]
    simp [entryText, List.filter_append, List.filter_cons, filter_trim other, other ' ' rfl]
  · rw [entryOf_of_notMem member]
    simp [entryText, filter_trim other]

theorem trim_isInfix (t : Text) : trim t <:+: t := by
  obtain ⟨a, b, cut, -, -⟩ := exists_trim t
  exact ⟨a, b, by rw [List.append_assoc, ← cut]⟩

theorem IsQuiet.of_isInfix {s t : Text} (h : IsQuiet t) (inside : s <:+: t) : IsQuiet s :=
  ⟨Token.calm_of_isInfix h.1 inside, fun c hc => h.2 c (inside.mem hc)⟩

theorem IsQuiet.cons_space {t : Text} (h : IsQuiet t) : IsQuiet (' ' :: t) := by
  have blank := Token.calm_append_of_blank (b := [' ']) (List.forall_mem_singleton.2 rfl) false t
  refine ⟨blank.trans h.1, ?_⟩
  simpa [isBare] using h.2

theorem IsQuiet.append_cons {s t : Text} (hs : IsQuiet s) (ht : IsQuiet t) {c : Char}
    (solid : isTokenBlank c = false ∧ c ≠ '/' ∧ c ≠ '#') (not_star : c ≠ '*')
    (bare : isBare c = true) : IsQuiet (s ++ c :: t) := by
  constructor
  · rw [Token.calm_append_cons solid not_star, hs.1, ht.1]
    rfl
  · intro d hd
    rcases List.mem_append.1 hd with hd | hd
    · exact hs.2 d hd
    · rcases List.mem_cons.1 hd with rfl | hd
      · exact bare
      · exact ht.2 d hd

theorem IsQuiet.concat_space {t : Text} (h : IsQuiet t) : IsQuiet (t ++ [' ']) := by
  refine ⟨(Token.calm_concat_space false t).trans h.1, ?_⟩
  intro c hc
  rcases List.mem_append.1 hc with hc | hc
  · exact h.2 c hc
  · rw [List.mem_singleton.1 hc]
    rfl

theorem isQuiet_entryText_entryOf {t : Text} (quiet : IsQuiet t) : IsQuiet (entryText (entryOf t)) := by
  by_cases member : '=' ∈ t
  · obtain ⟨key, value, rfl, first⟩ := List.eq_append_cons_of_mem member
    have text : entryText (String.ofList (trim key), some (String.ofList (trim value))) =
        (trim key ++ [' ']) ++ '=' :: (' ' :: trim value) := by
      simp [entryText]
    have key_inside : key <:+: key ++ '=' :: value := (List.prefix_append _ _).isInfix
    have value_inside : value <:+: key ++ '=' :: value :=
      ((List.suffix_cons '=' value).trans (List.suffix_append _ _)).isInfix
    have quiet_key := quiet.of_isInfix ((trim_isInfix key).trans key_inside)
    have quiet_value := quiet.of_isInfix ((trim_isInfix value).trans value_inside)
    rw [entryOf_append_cons first, text]
    exact quiet_key.concat_space.append_cons quiet_value.cons_space (by decide) (by decide) rfl
  · rw [entryOf_of_notMem member, entryText, String.toList_ofList]
    exact quiet.of_isInfix (trim_isInfix t)

theorem isEntry_entryOf {t : Text} (arg : IsArg t) (quiet : IsQuiet t) : IsEntry (entryOf t) := by
  obtain ⟨key_first, key_trim, value_trim⟩ := spelled_entryOf t
  have same := filter_entryText_entryOf (fun _ => isStructural_of_isBlank) t
  exact ⟨arg.of_filter same, isQuiet_entryText_entryOf quiet, key_first, key_trim, value_trim⟩

theorem isEntry_of_mem_parse {t : Text} (nested : Bracket.nested [] t = true) (quiet : IsQuiet t)
    {entry : String × Option String} (h : entry ∈ parse t) : IsEntry entry := by
  obtain ⟨y, hy, rfl⟩ := mem_parse h
  cases pieces : topPieces 0 t with
  | nil => exact absurd pieces (topPieces_ne_nil _ _)
  | cons p ps =>
    obtain ⟨nested_p, one_p, front, args⟩ := isArg_of_topPieces nested pieces
    rw [pieces] at hy
    rcases List.mem_cons.1 hy with rfl | hy
    · exact isEntry_entryOf ⟨nested_p, one_p⟩ (quiet.of_isInfix front.isInfix)
    · exact isEntry_entryOf (args y hy).1 (quiet.of_isInfix (args y hy).2)

def spaced : List Text → List Text
  | [] => []
  | t :: ts => t :: ts.map (' ' :: ·)

def listText (layout : Layout) : Text :=
  joinWith [','] (spaced (layout.map entryText))

theorem joinWith_cons_cons (c : Char) (t : Text) (ts : List Text) :
    joinWith [','] ((c :: t) :: ts) = c :: joinWith [','] (t :: ts) := by
  cases ts <;> simp [joinWith]

theorem joinWith_spaced (ts : List Text) : joinWith [','] (spaced ts) = joinWith [',', ' '] ts := by
  induction ts with
  | nil => rfl
  | cons t ts ih =>
    cases ts with
    | nil => simp [spaced, joinWith]
    | cons u ts =>
      simp only [spaced, List.map_cons, joinWith, joinWith_cons_cons] at ih ⊢
      rw [ih]
      simp

theorem intercalate_eq_joinWith (sep : Text) (ts : List Text) :
    List.intercalate sep ts = joinWith sep ts := by
  induction ts with
  | nil => rfl
  | cons t ts ih =>
    cases ts with
    | nil => simp [joinWith]
    | cons u ts => simp [List.intercalate_cons_cons, ih, joinWith]

theorem render_eq {layout : Layout} (some_entry : layout ≠ []) :
    layout.render = "layout(".toList ++ (listText layout ++ [')']) := by
  rw [render, if_neg (by simpa using some_entry)]
  simp only [String.toList_append, String.toList_intercalate]
  rw [List.map_map, List.map_congr_left (g := entryText), show ", ".toList = [',', ' '] from rfl,
    intercalate_eq_joinWith, ← joinWith_spaced, List.append_assoc]
  · rfl
  · rintro ⟨key, value⟩ -
    cases value with
    | none => rfl
    | some value =>
      show (key ++ " = " ++ value).toList = key.toList ++ ' ' :: '=' :: ' ' :: value.toList
      simp [String.toList_append]

theorem isArg_cons_space {t : Text} (h : IsArg t) : IsArg (' ' :: t) := by
  apply h.of_filter
  simp [isStructural, Bracket.isPlain, Bracket.all, Bracket.paren, Bracket.square, Bracket.brace]

theorem map_trim_spaced (ts : List Text) : (spaced ts).map trim = ts.map trim := by
  cases ts with
  | nil => rfl
  | cons t ts =>
    rw [spaced, List.map_cons, List.map_map, List.map_cons]
    rfl

theorem map_entryOf_spaced (ts : List Text) : (spaced ts).map entryOf = ts.map entryOf := by
  cases ts with
  | nil => rfl
  | cons t ts =>
    rw [spaced, List.map_cons, List.map_map, List.map_cons]
    congr 1
    exact List.map_congr_left fun u _ => entryOf_cons_space u

theorem isPiece_of_mem_spaced {ts : List Text} (pieces : ∀ t ∈ ts, IsPiece t) :
    ∀ t ∈ spaced ts, IsPiece t := by
  cases ts with
  | nil => exact pieces
  | cons t ts =>
    rw [spaced, List.forall_mem_cons, List.forall_mem_map]
    rw [List.forall_mem_cons] at pieces
    exact ⟨pieces.1, fun u hu => (pieces.2 u hu).of_filter rfl⟩

theorem topPieces_joinWith_spaced {ts : List Text} (some_piece : ts ≠ []) (pieces : ∀ t ∈ ts, IsPiece t) :
    topPieces 0 (joinWith [','] (spaced ts)) = spaced ts := by
  refine topPieces_joinWith ?_ (isPiece_of_mem_spaced pieces)
  cases ts with
  | nil => exact absurd rfl some_piece
  | cons t ts => exact List.cons_ne_nil _ _

theorem parse_listText_of_pieces {layout : Layout} (pieces : ∀ entry ∈ layout, IsPiece (entryText entry))
    (reads : ∀ entry ∈ layout, entryOf (entryText entry) = entry)
    (visible : (layout.map entryText).map trim ≠ [[]]) : parse (listText layout) = layout := by
  by_cases empty : layout = []
  · rw [empty]
    rfl
  · have split : topPieces 0 (listText layout) = spaced (layout.map entryText) :=
      topPieces_joinWith_spaced (by simpa using empty) (List.forall_mem_map.2 pieces)
    rw [parse_eq_map (by rwa [split, map_trim_spaced]), split, map_entryOf_spaced, List.map_map,
      List.map_congr_left (g := id), List.map_id]
    exact reads

section List

variable {layout : Layout} (entries : ∀ entry ∈ layout, IsEntry entry)
include entries

theorem mem_spaced {t : Text} (h : t ∈ spaced (layout.map entryText)) : IsArg t ∧ IsQuiet t := by
  cases layout with
  | nil => simp [spaced] at h
  | cons first rest =>
    rw [List.map_cons, spaced] at h
    rcases List.mem_cons.1 h with rfl | h
    · exact ⟨(entries first List.mem_cons_self).arg, (entries first List.mem_cons_self).quiet⟩
    · obtain ⟨u, hu, rfl⟩ := List.mem_map.1 h
      obtain ⟨entry, member, rfl⟩ := List.mem_map.1 hu
      have good := entries entry (List.mem_cons_of_mem _ member)
      exact ⟨isArg_cons_space good.arg, good.quiet.cons_space⟩

theorem nested_listText : Bracket.nested [] (listText layout) = true := by
  have joined : ∀ args : List Text, (∀ t ∈ args, IsArg t) →
      Bracket.nested [] (joinWith [','] args) = true := by
    intro args h
    induction args with
    | nil => rfl
    | cons t args ih =>
      have first := Bracket.nested_append [] (h t List.mem_cons_self).1 []
      cases args with
      | nil => exact (h t List.mem_cons_self).1
      | cons u args =>
        rw [joinWith, List.append_assoc, List.singleton_append]
        · rw [List.nil_append] at first
          rw [first, Bracket.nested_cons_of_isPlain rfl]
          exact ih fun v hv => h v (List.mem_cons_of_mem _ hv)
        · exact List.cons_ne_nil _ _
  exact joined _ fun t ht => (mem_spaced entries ht).1

theorem isQuiet_listText : IsQuiet (listText layout) := by
  have joined : ∀ args : List Text, (∀ t ∈ args, IsQuiet t) → IsQuiet (joinWith [','] args) := by
    intro args h
    induction args with
    | nil => exact ⟨rfl, by simp [joinWith]⟩
    | cons t args ih =>
      cases args with
      | nil => exact h t List.mem_cons_self
      | cons u args =>
        rw [joinWith, List.append_assoc, List.singleton_append]
        · exact (h t List.mem_cons_self).append_cons
            (ih fun v hv => h v (List.mem_cons_of_mem _ hv)) (by decide) (by decide) rfl
        · exact List.cons_ne_nil _ _
  exact joined _ fun t ht => (mem_spaced entries ht).2

theorem parse_listText {entry : String × Option String} (member : entry ∈ layout)
    (visible : trim (entryText entry) ≠ []) : parse (listText layout) = layout := by
  refine parse_listText_of_pieces (fun e he => (entries e he).arg.isPiece)
    (fun e he => (entries e he).entryOf_entryText) fun blank => ?_
  have := List.mem_map_of_mem (f := trim) (List.mem_map_of_mem (f := entryText) member)
  rw [blank, List.mem_singleton] at this
  exact visible this

end List

section Set

variable {layout : Layout} {key other : String} {value : Option String}

theorem mem_set {entry : String × Option String} (h : entry ∈ layout.set key value) :
    entry ∈ layout ∨ entry = (key, value) := by
  unfold set Table.insert at h
  induction layout with
  | nil => exact Or.inr (List.mem_singleton.1 h)
  | cons first rest ih =>
    rw [Table.upsert] at h
    split at h
    · rename_i same
      rcases List.mem_cons.1 h with rfl | h
      · exact Or.inr (by rw [of_decide_eq_true same])
      · exact Or.inl (List.mem_cons_of_mem _ h)
    · rcases List.mem_cons.1 h with rfl | h
      · exact Or.inl List.mem_cons_self
      · rcases ih h with h | h
        · exact Or.inl (List.mem_cons_of_mem _ h)
        · exact Or.inr h

theorem mem_set_self : (key, value) ∈ layout.set key value := by
  unfold set Table.insert
  induction layout with
  | nil => exact List.mem_cons_self
  | cons first rest ih =>
    rw [Table.upsert]
    split
    · rename_i same
      rw [of_decide_eq_true same]
      exact List.mem_cons_self
    · exact List.mem_cons_of_mem _ ih

theorem set_set : (layout.set key value).set key value = layout.set key value := by
  unfold set Table.insert
  induction layout with
  | nil => simp [Table.upsert]
  | cons first rest ih =>
    by_cases same : first.1 = key
    · simp [Table.upsert, same]
    · simp only [Table.upsert, same, decide_false, if_false, Bool.false_eq_true] at ih ⊢
      rw [ih]

theorem value?_set_self : (layout.set key value).value? key = value := by
  unfold value? Table.get? set Table.insert
  induction layout with
  | nil => simp [Table.upsert]
  | cons first rest ih =>
    by_cases same : first.1 = key
    · simp [Table.upsert, same]
    · simpa [Table.upsert, same] using ih

theorem value?_set_of_ne (apart : other ≠ key) :
    (layout.set key value).value? other = layout.value? other := by
  unfold value? Table.get? set Table.insert
  induction layout with
  | nil => simp [Table.upsert, apart.symm]
  | cons first rest ih =>
    by_cases same : first.1 = key
    · simp [Table.upsert, same, apart.symm]
    · by_cases found : first.1 = other
      · simp [Table.upsert, found, apart]
      · simpa [Table.upsert, same, found] using ih

end Set

theorem digitsFrom?_of_isDigit {t : Text} (digits : ∀ c ∈ t, c.isDigit = true) (n : Nat) :
    digitsFrom? 10 n t = some (Nat.ofDigitChars 10 t n) := by
  induction t generalizing n with
  | nil => rfl
  | cons c t ih =>
    have digit := digits c List.mem_cons_self
    have value : digitValue? c = some (c.toNat - '0'.toNat) := by
      rw [digitValue?, if_pos digit]
    have small : c.toNat - '0'.toNat < 10 := by
      have : '0'.toNat = 48 := rfl
      have : '9'.toNat = 57 := rfl
      simp only [Char.isDigit, Bool.and_eq_true, decide_eq_true_eq, UInt32.le_iff_toNat_le] at digit
      have := digit.2
      have : c.toNat ≤ 57 := this
      omega
    rw [digitsFrom?, value, Nat.ofDigitChars_cons, Nat.mul_comm 10 n,
      ← ih fun d hd => digits d (List.mem_cons_of_mem _ hd)]
    exact if_pos small

theorem unsigned?_toString {n : Nat} (small : n < 0x100000000) :
    unsigned? (toString n).toList = some n := by
  have digits : ∀ c ∈ Nat.toDigits 10 n, c.isDigit = true :=
    fun c hc => Nat.isDigit_of_mem_toDigits (by decide) (by decide) hc
  rw [Nat.toString_eq_repr, Nat.toList_repr]
  rw [unsigned?, natOfDigits?, if_neg (by simp),
    digitsFrom?_of_isDigit digits, Nat.ofDigitChars_ten_toDigits]
  · simp [small]
  · intro rest plus
    have := digits '+' (plus ▸ List.mem_cons_self)
    cases this

theorem isQuiet_of_isIdentChar {t : Text} (h : ∀ c ∈ t, isIdentChar c = true) : IsQuiet t := by
  constructor
  · have := Token.calm_append_of_solid (fun c hc => Token.solid_of_isIdentChar (h c hc)) []
    rwa [List.append_nil] at this
  · intro c hc
    simp only [isBare, Bool.and_eq_true, decide_eq_true_eq]
    refine ⟨⟨?_, ?_⟩, ?_⟩ <;> rintro rfl <;> cases h _ hc

theorem isBlank_of_isIdentChar {c : Char} (h : isIdentChar c = true) : isBlank c = false := by
  rw [Bool.eq_false_iff]
  intro blank
  simp only [isIdentChar, Char.isAlphanum, Token.isAlpha_eq, Char.isDigit,
    Bool.or_eq_true, Bool.and_eq_true, decide_eq_true_eq, UInt32.le_iff_toNat_le, ge_iff_le] at h
  simp only [isBlank, Bool.or_eq_true, Bool.and_eq_true, decide_eq_true_eq] at blank
  have value : c.val.toNat = c.toNat := rfl
  have : 'A'.val.toNat = 65 := rfl
  have : 'Z'.val.toNat = 90 := rfl
  have : 'a'.val.toNat = 97 := rfl
  have : 'z'.val.toNat = 122 := rfl
  have : '0'.val.toNat = 48 := rfl
  have : '9'.val.toNat = 57 := rfl
  rcases h with ((h | h) | h) | rfl
  · omega
  · omega
  · omega
  · simp at blank

theorem trim_of_isIdentChar {t : Text} (h : ∀ c ∈ t, isIdentChar c = true) : trim t = t := by
  obtain ⟨a, b, cut, blank_a, blank_b⟩ := exists_trim t
  have nil_of {u : Text} (inside : ∀ c ∈ u, c ∈ t) (blank : ∀ c ∈ u, isBlank c = true) : u = [] := by
    rw [List.eq_nil_iff_forall_not_mem]
    intro c hc
    have := isBlank_of_isIdentChar (h c (inside c hc))
    rw [blank c hc] at this
    cases this
  have nil_a := nil_of (fun c hc => cut ▸ List.mem_append_left _ hc) blank_a
  have nil_b := nil_of (fun c hc => cut ▸ List.mem_append_right _ (List.mem_append_right _ hc)) blank_b
  rw [nil_a, nil_b, List.nil_append, List.append_nil] at cut
  exact cut.symm

theorem isStructural_of_isIdentChar {c : Char} (h : isIdentChar c = true) : isStructural c = false :=
  isStructural_eq_false isIdentChar rfl h

theorem isEntry_slot {key : String} (letters : ∀ c ∈ key.toList, isIdentChar c = true) (n : Nat) :
    IsEntry (key, some (toString n)) := by
  have digits : ∀ c ∈ (toString n).toList, isIdentChar c = true := by
    intro c hc
    rw [Nat.toString_eq_repr, Nat.toList_repr] at hc
    have := Nat.isDigit_of_mem_toDigits (by decide) (by decide) hc
    simp [isIdentChar, Char.isAlphanum, this]
  have text : entryText (key, some (toString n)) =
      (key.toList ++ [' ']) ++ '=' :: (' ' :: (toString n).toList) := by
    simp [entryText]
  have bare {t : Text} (h : ∀ c ∈ t, isIdentChar c = true) : t.filter isStructural = [] :=
    List.filter_eq_nil_iff.2 fun c hc => by simp [isStructural_of_isIdentChar (h c hc)]
  constructor
  · rw [text]
    have nothing : IsArg [] := ⟨rfl, rfl⟩
    apply nothing.of_filter
    rw [List.filter_append, List.filter_append, bare letters,
      List.filter_cons_of_neg (by decide), List.filter_cons_of_neg (by decide),
      List.filter_cons_of_neg (by decide), bare digits]
    rfl
  · rw [text]
    exact (isQuiet_of_isIdentChar letters).concat_space.append_cons
      (isQuiet_of_isIdentChar digits).cons_space (by decide) (by decide) rfl
  · intro member
    cases letters _ member
  · exact trim_of_isIdentChar letters
  · intro value same
    obtain rfl := Option.some.inj same
    exact trim_of_isIdentChar digits

end ShaderPass.Layout
