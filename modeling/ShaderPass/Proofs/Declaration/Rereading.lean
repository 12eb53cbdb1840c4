import ShaderPass.Proofs.Declaration.LayoutText

/-! Lists that are written anew: items with a comma and a space between them are split into the same
items, and the entries of a layout are read again from the list they are written in. Brackets need not
nest properly for this; it is enough that as many are closed as opened. -/
namespace ShaderPass

namespace Text

theorem oneArg_iff {d : Int} {t : Text} :
    oneArg d t = true ↔ ∀ a b, t = a ++ ',' :: b → d + level a ≠ 0 := by
  induction t generalizing d with
  | nil => simp [oneArg]
  | cons c t ih =>
    rw [oneArg_cons, Bool.and_eq_true, ih]
    constructor
    · rintro ⟨first, later⟩ a b cut
      cases a with
      | nil =>
        obtain ⟨rfl, rfl⟩ := List.cons.inj cut
        simpa using first
      | cons c' a =>
        obtain ⟨rfl, rfl⟩ := List.cons.inj cut
        rw [level_cons, ← Int.add_assoc]
        exact later a b rfl
    · intro h
      refine ⟨?_, fun a b cut => ?_⟩
      · rw [Bool.not_eq_true', Bool.and_eq_false_iff, decide_eq_false_iff_not, decide_eq_false_iff_not]
        by_cases comma : c = ','
        · exact .inr (by simpa using h [] t (by rw [comma]; rfl))
        · exact .inl comma
      · have := h (c :: a) b (by rw [cut]; rfl)
        rwa [level_cons, ← Int.add_assoc] at this

/-- An item of a list: no blanks around it, as many brackets closed as opened, and no comma where as many
are closed as opened. -/
structure IsItem (t : Text) : Prop where
  start : t.head?.any isBlank = false
  stop : t.getLast?.any isBlank = false
  closed : level t = 0
  commas : ∀ a b, t = a ++ ',' :: b → level a ≠ 0

instance (t : Text) : Decidable (IsItem t) :=
  decidable_of_iff (t.head?.any isBlank = false ∧ t.getLast?.any isBlank = false ∧ level t = 0 ∧
      oneArg 0 t = true)
    ⟨fun ⟨start, stop, closed, one⟩ => ⟨start, stop, closed, by simpa using oneArg_iff.1 one⟩,
      fun h => ⟨h.start, h.stop, h.closed, oneArg_iff.2 (by simpa using h.commas)⟩⟩

theorem IsItem.isPiece {t : Text} (h : IsItem t) : IsPiece t :=
  ⟨h.closed, oneArg_iff.2 (by simpa using h.commas)⟩

theorem IsItem.trim_eq {t : Text} (h : IsItem t) : trim t = t := by
  have start : trimStart t = t := by
    cases t with
    | nil => rfl
    | cons c t => exact trimStart_append_cons (b := []) (by simp) h.start t
  rcases List.eq_nil_or_concat t with rfl | ⟨s, c, rfl⟩
  · rfl
  · have solid : ¬isBlank c = true := by simpa using h.stop
    rw [trim, start, List.concat_eq_append, trimEnd, trimEndWhile_append_cons solid]
    rfl

theorem splitArgs_joinWith {items : List Text} (visible : items ≠ [[]])
    (h : ∀ item ∈ items, IsItem item) : splitArgs (joinWith [',', ' '] items) = items := by
  by_cases empty : items = []
  · rw [empty]
    rfl
  · have trimmed : (topPieces 0 (joinWith [',', ' '] items)).map trim = items := by
      rw [← Layout.joinWith_spaced, Layout.topPieces_joinWith_spaced empty fun t ht => (h t ht).isPiece,
        Layout.map_trim_spaced, List.map_congr_left (g := id) fun t ht => (h t ht).trim_eq, List.map_id]
    unfold splitArgs
    rw [trimmed]
    split
    · exact absurd rfl visible
    · rfl

end Text

namespace Layout

open Text

theorem trim_entryText_entryOf_eq_nil_iff {t : Text} : trim (entryText (entryOf t)) = [] ↔ trim t = [] := by
  rw [trim_eq_nil_iff, trim_eq_nil_iff, filter_entryText_entryOf fun c blank => by simp [blank]]

/-- A layout that is read from a list whose brackets are all closed is read again from the list that is
written for it. -/
theorem parse_listText_parse {t : Text} (closed : level t = 0) : parse (listText (parse t)) = parse t := by
  by_cases empty : (topPieces 0 t).map trim = [[]]
  · have nothing : parse t = [] := by
      rw [parse, splitArgs, empty]
      rfl
    rw [nothing]
    rfl
  · rw [parse_eq_map empty]
    apply parse_listText_of_pieces
    · rw [List.forall_mem_map]
      intro y hy
      exact (isPiece_of_mem_topPieces closed hy).of_filter
        (filter_entryText_entryOf (fun _ => isStructural_of_isBlank) y)
    · rw [List.forall_mem_map]
      intro y _
      obtain ⟨key_first, key_trim, value_trim⟩ := spelled_entryOf y
      exact entryOf_entryText key_first key_trim value_trim
    · intro blank
      rw [List.map_map, List.map_map, List.map_eq_singleton_iff] at blank
      obtain ⟨y, only, blank⟩ := blank
      rw [only] at empty
      exact empty (congrArg (fun item => [item]) (trim_entryText_entryOf_eq_nil_iff.1 blank))

/-- Joined items are found again by splitting. A layout that was read from a list whose brackets are all
closed is read again from what is written for it: its entries with a comma and a space between them. -/
theorem lists_read_back :
    (∀ items : List Text, items ≠ [[]] → (∀ item ∈ items, IsItem item) →
      splitArgs (joinWith [',', ' '] items) = items) ∧
    ∀ t : Text, level t = 0 →
      (parse t).render = (if parse t = [] then []
        else "layout(".toList ++ (joinWith [',', ' '] ((parse t).map entryText) ++ [')'])) ∧
      parse (joinWith [',', ' '] ((parse t).map entryText)) = parse t := by
  refine ⟨fun items visible h => splitArgs_joinWith visible h, fun t closed => ?_⟩
  rw [← joinWith_spaced]
  refine ⟨?_, parse_listText_parse closed⟩
  split
  · rename_i empty
    rw [empty]
    rfl
  · rename_i some_entry
    exact render_eq some_entry

/-- An empty item, commas in a nested list, and an item and an entry that close a bracket before they
open it. -/
theorem lists_read_back_uneven :
    ["a".toList, [], ")b, c(".toList, "f(x, [y])".toList] ≠ [[]] ∧
    (∀ item ∈ ["a".toList, [], ")b, c(".toList, "f(x, [y])".toList], IsItem item) ∧
    splitArgs (joinWith [',', ' '] ["a".toList, [], ")b, c(".toList, "f(x, [y])".toList]) =
      ["a".toList, [], ")b, c(".toList, "f(x, [y])".toList] ∧
    level " k=(a, b) ,, =c, )x=y=z, w( ,".toList = 0 ∧
    parse (joinWith [',', ' '] ((parse " k=(a, b) ,, =c, )x=y=z, w( ,".toList).map entryText)) =
      parse " k=(a, b) ,, =c, )x=y=z, w( ,".toList := by
  have visible : ["a".toList, [], ")b, c(".toList, "f(x, [y])".toList] ≠ [[]] := by decide
  have items : ∀ item ∈ ["a".toList, [], ")b, c(".toList, "f(x, [y])".toList], IsItem item := by
    decide +kernel
  have closed : level " k=(a, b) ,, =c, )x=y=z, w( ,".toList = 0 := by decide +kernel
  exact ⟨visible, items, lists_read_back.1 _ visible items, closed, (lists_read_back.2 _ closed).2⟩

end Layout

end ShaderPass
