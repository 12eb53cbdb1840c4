import ShaderPass.Proofs.Declaration.Alike

/-! Reading qualifiers off statements that are alike: both give the same qualifiers, and a layout list
that is read is the same in both. -/
namespace ShaderPass.Declaration

open Token ShaderPass.Bracket Statement

namespace Qualifiers

variable {source : Text} {q : Qualifiers} {s : Statement} {t : Token}

def startsList (s : Statement) : Bool :=
  s.head?.any (fun t => t.name = "layout") && (s.drop 1).startsWith '('

theorem startsList_cons (t : Token) (ts : List Token) (size : Nat) :
    startsList ⟨t :: ts, size + 1⟩ =
      (decide (t.name = "layout") && Statement.startsWith ⟨ts, size⟩ '(') := rfl

theorem exists_of_head? (head : s.head? = some t) :
    ∃ ts size, s = ⟨t :: ts, size + 1⟩ := by
  obtain ⟨tokens, size⟩ := s
  cases size with
  | zero => cases head
  | succ size =>
    obtain ⟨ts, rfl⟩ := List.head?_eq_some_iff.1 (show tokens.head? = some t from head)
    exact ⟨ts, size, rfl⟩

theorem read_of_nil (source : Text) (q : Qualifiers) (nothing : s.head? = none) :
    read source q s = some (q, s) := by
  obtain ⟨tokens, size⟩ := s
  cases size with
  | zero => rw [read]; simp
  | succ size =>
    cases tokens with
    | nil => rw [read]; simp
    | cons t ts => cases nothing

theorem read_of_list (q : Qualifiers) (head : s.head? = some t) (list : startsList s = true)
    {inner : Text} {n : Nat} {last : Token}
    (found : bracketed? source (s.tokens.drop 1) = some (inner, n))
    (close : (s.tokens.drop 1)[n]? = some last) (inside : n + 1 < s.size) :
    read source q s = read source
      { q with layout := Layout.parse inner, layoutRange := some (t.start, last.stop) }
      (s.drop (n + 2)) := by
  obtain ⟨ts, size, rfl⟩ := exists_of_head? head
  have found : bracketed? source ts = some (inner, n) := found
  have close : ts[n]? = some last := close
  have inside : n < size := Nat.lt_of_succ_lt_succ inside
  rw [startsList_cons] at list
  rw [read, if_pos list, found]
  simp only [Option.bind_eq_bind, Option.bind_some, close, if_pos inside]
  congr 1
  simp only [Statement.drop, List.drop_succ_cons, Nat.add_sub_add_right]

theorem read_of_open_list (q : Qualifiers) (list : startsList s = true)
    (outside : ∀ n, closeOffset? (s.tokens.drop 1) = some n → s.size ≤ n + 1) :
    read source q s = none := by
  obtain ⟨t, head⟩ : ∃ t, s.head? = some t := by
    cases head : s.head? with
    | none => simp [startsList, head] at list
    | some t => exact ⟨t, rfl⟩
  obtain ⟨ts, size, rfl⟩ := exists_of_head? head
  rw [startsList_cons] at list
  rw [read, if_pos list]
  cases found : bracketed? source ts with
  | none => rfl
  | some pair =>
    obtain ⟨inner, n⟩ := pair
    have := outside n (closeOffset?_of_bracketed? found)
    simp only [Option.bind_eq_bind, Option.bind_some]
    cases ts[n]? with
    | none => rfl
    | some last =>
      simp only [Option.bind_some]
      rw [if_neg]
      simp only at this
      omega

theorem read_of_word (source : Text) (head : s.head? = some t) (no_list : startsList s = false)
    {q' : Qualifiers} (noted : q.note? t = some q') :
    read source q s = read source q' (s.drop 1) := by
  obtain ⟨ts, size, rfl⟩ := exists_of_head? head
  rw [startsList_cons] at no_list
  rw [read, if_neg (by simp [no_list]), noted]
  rfl

theorem read_of_other (source : Text) (head : s.head? = some t) (no_list : startsList s = false)
    (other : q.note? t = none) : read source q s = some (q, s) := by
  obtain ⟨ts, size, rfl⟩ := exists_of_head? head
  rw [startsList_cons] at no_list
  rw [read, if_neg (by simp [no_list]), other]

structure Alike (q q' : Qualifiers) : Prop where
  storage : q'.storage.map Prod.fst = q.storage.map Prod.fst
  precision : q'.precision = q.precision
  access : q'.access = q.access

theorem Alike.refl (q : Qualifiers) : Alike q q := ⟨rfl, rfl, rfl⟩

def SameLayout (q p : Qualifiers) : Prop :=
  p.layout = q.layout ∧ p.layoutRange = q.layoutRange

structure Relisted (z z' : Nat) (s : Statement) (p p' : Qualifiers) : Prop where
  layout : p'.layout = p.layout
  range : ∃ x ∈ s.window, ∃ y ∈ s.window, p.layoutRange = some (x.start, y.stop) ∧
    p'.layoutRange = some ((x.move z z').start, (y.move z z').stop)

theorem Relisted.of_drop {z z' n : Nat} {p p' : Qualifiers} (h : Relisted z z' (s.drop n) p p') :
    Relisted z z' s p p' := by
  obtain ⟨x, hx, y, hy, ranges⟩ := h.range
  rw [window_drop] at hx hy
  exact ⟨h.layout, x, List.mem_of_mem_drop hx, y, List.mem_of_mem_drop hy, ranges⟩

theorem note?_alike {q q' : Qualifiers} (h : Alike q q') (t : Token) (z z' : Nat) :
    (q.note? t = none ∧ q'.note? (t.move z z') = none) ∨
      ∃ p p', q.note? t = some p ∧ q'.note? (t.move z z') = some p' ∧ Alike p p' ∧
        SameLayout q p ∧ SameLayout q' p' := by
  unfold note?
  rw [move_name]
  cases Storage.ofName? t.name with
  | some storage => exact Or.inr ⟨_, _, rfl, rfl, ⟨rfl, h.2, h.3⟩, ⟨rfl, rfl⟩, ⟨rfl, rfl⟩⟩
  | none =>
    dsimp only
    split
    · exact Or.inr ⟨_, _, rfl, rfl, ⟨h.1, h.2, rfl⟩, ⟨rfl, rfl⟩, ⟨rfl, rfl⟩⟩
    · split
      · exact Or.inr ⟨_, _, rfl, rfl, ⟨h.1, h.2, rfl⟩, ⟨rfl, rfl⟩, ⟨rfl, rfl⟩⟩
      · split
        · exact Or.inr ⟨_, _, rfl, rfl, ⟨h.1, rfl, h.3⟩, ⟨rfl, rfl⟩, ⟨rfl, rfl⟩⟩
        · split
          · exact Or.inr ⟨_, _, rfl, rfl, h, ⟨rfl, rfl⟩, ⟨rfl, rfl⟩⟩
          · exact Or.inl ⟨rfl, rfl⟩

theorem startsList_alike {z z' : Nat} {source source' : Text} {s s' : Statement}
    (h : s.Alike z z' source source' s') : startsList s' = startsList s := by
  rw [startsList, h.head?, (h.drop 1).startsWith, startsList]
  cases s.head? <;> rfl

/-- Both statements fail to be read, or they are read to qualifiers that say the same, with the layouts
they came with or with one that was read off both. -/
def ReadsAlike (z z' : Nat) (source source' : Text) (q q' : Qualifiers) (s s' : Statement) : Prop :=
  (read source q s = none ∧ read source' q' s' = none) ∨
    ∃ p r p' r', read source q s = some (p, r) ∧ read source' q' s' = some (p', r') ∧ Alike p p' ∧
      r.Alike z z' source source' r' ∧ (s.Closed → r.Closed) ∧
      (SameLayout q p ∧ SameLayout q' p' ∨ Relisted z z' s p p')

section Alike

variable {z z' : Nat} {source source' : Text} {q q' : Qualifiers} {s s' : Statement} {t : Token}

theorem ReadsAlike.of_stop (h : s.Alike z z' source source' s') (same : Alike q q')
    (old : read source q s = some (q, s)) (new : read source' q' s' = some (q', s')) :
    ReadsAlike z z' source source' q q' s s' :=
  Or.inr ⟨q, s, q', s', old, new, same, h, id, Or.inl ⟨⟨rfl, rfl⟩, ⟨rfl, rfl⟩⟩⟩

theorem ReadsAlike.of_word {p p' : Qualifiers} (kept : SameLayout q p) (kept' : SameLayout q' p')
    (old : read source q s = read source p (s.drop 1))
    (new : read source' q' s' = read source' p' (s'.drop 1))
    (behind : ReadsAlike z z' source source' p p' (s.drop 1) (s'.drop 1)) :
    ReadsAlike z z' source source' q q' s s' := by
  rw [ReadsAlike, old, new]
  rcases behind with failed | ⟨p1, r, p1', r', read1, read1', alike, rest, closed, layouts⟩
  · exact Or.inl failed
  · refine Or.inr ⟨p1, r, p1', r', read1, read1', alike, rest, fun c => closed (c.drop 1), ?_⟩
    rcases layouts with ⟨⟨e1, e2⟩, ⟨e3, e4⟩⟩ | relisted
    · exact Or.inl ⟨⟨e1.trans kept.1, e2.trans kept.2⟩, ⟨e3.trans kept'.1, e4.trans kept'.2⟩⟩
    · exact Or.inr relisted.of_drop

theorem ReadsAlike.of_list {n : Nat} {p p' : Qualifiers} {x y : Token} (first : x ∈ s.window)
    (last : y ∈ s.window) (old : read source q s = read source p (s.drop n))
    (new : read source' q' s' = read source' p' (s'.drop n))
    (behind : ReadsAlike z z' source source' p p' (s.drop n) (s'.drop n))
    (layout : p'.layout = p.layout) (range : p.layoutRange = some (x.start, y.stop))
    (range' : p'.layoutRange = some ((x.move z z').start, (y.move z z').stop)) :
    ReadsAlike z z' source source' q q' s s' := by
  rw [ReadsAlike, old, new]
  rcases behind with failed | ⟨p1, r, p1', r', read1, read1', alike, rest, closed, layouts⟩
  · exact Or.inl failed
  · refine Or.inr ⟨p1, r, p1', r', read1, read1', alike, rest, fun c => closed (c.drop n), Or.inr ?_⟩
    rcases layouts with ⟨⟨e1, e2⟩, ⟨e3, e4⟩⟩ | relisted
    · exact ⟨(e3.trans layout).trans e1.symm, x, first, y, last, e2.trans range, e4.trans range'⟩
    · exact relisted.of_drop

theorem readsAlike_of_startsList (h : s.Alike z z' source source' s') (same : Alike q q')
    (head : s.head? = some t) (list : startsList s = true)
    (behind : ∀ n (p p' : Qualifiers), 0 < n → Alike p p' →
      ReadsAlike z z' source source' p p' (s.drop n) (s'.drop n)) :
    ReadsAlike z z' source source' q q' s s' := by
  have head' : s'.head? = some (t.move z z') := by rw [h.head?, head]; rfl
  have list' := (startsList_alike h).trans list
  obtain ⟨opening, head1, opens⟩ : ∃ opening, (s.drop 1).head? = some opening ∧
      opening.isPunct paren.opening = true := by
    rw [startsList, Bool.and_eq_true] at list
    exact exists_of_startsWith list.2
  have hb : paren ∈ all := by decide
  have size1 : (s.drop 1).size = s.size - 1 := rfl
  rcases (h.drop 1).closeOffset?_cases hb head1 opens with ⟨old, new⟩ | ⟨n, inside, old, new⟩ |
      ⟨n, n', outside, outside', old, new⟩
  · have never (o : Option Nat) (none : o = .none) (size : Nat) : ∀ n, o = some n → size ≤ n + 1 := by
      simp [none]
    exact Or.inl ⟨read_of_open_list q list (never _ old _),
      read_of_open_list q' list' (never _ new _)⟩
  · obtain ⟨last, last_mem, close, close', text, text'⟩ :=
      (h.drop 1).bracketed?_of_lt hb head1 opens inside old new
    have first_mem : t ∈ s.window := List.mem_of_mem_head? (head?_eq s ▸ head)
    rw [window_drop] at last_mem
    have inside' : n + 1 < s'.size := by rw [h.size]; omega
    exact .of_list first_mem (List.mem_of_mem_drop last_mem)
      (read_of_list q head list text close (by omega))
      (read_of_list q' head' list' text' close' inside')
      (behind (n + 2) _ _ (by omega) ⟨same.1, same.2, same.3⟩) rfl rfl rfl
  · have size' := h.size
    refine Or.inl ⟨read_of_open_list q list fun m hm => ?_,
      read_of_open_list q' list' fun m hm => ?_⟩
    · cases old.symm.trans hm
      omega
    · cases new.symm.trans hm
      omega

theorem read_alike (h : s.Alike z z' source source' s') (same : Alike q q') :
    ReadsAlike z z' source source' q q' s s' := by
  induction len : s.size using Nat.strongRecOn generalizing s s' q q' with
  | ind size ih =>
    have behind {t : Token} (head : s.head? = some t) (n : Nat) (p p' : Qualifiers) (some_read : 0 < n)
        (alike : Alike p p') : ReadsAlike z z' source source' p p' (s.drop n) (s'.drop n) := by
      have positive := size_pos head
      exact ih (s.drop n).size (by simp only [Statement.drop]; omega) (h.drop n) alike rfl
    cases head : s.head? with
    | none =>
      have head' : s'.head? = none := by rw [h.head?, head]; rfl
      exact .of_stop h same (read_of_nil _ _ head) (read_of_nil _ _ head')
    | some t =>
      have head' : s'.head? = some (t.move z z') := by rw [h.head?, head]; rfl
      cases list : startsList s with
      | true => exact readsAlike_of_startsList h same head list (behind head)
      | false =>
        have list' := (startsList_alike h).trans list
        rcases note?_alike same t z z' with ⟨other, other'⟩ | ⟨p, p', noted, noted', alike, kept, kept'⟩
        · exact .of_stop h same (read_of_other _ head list other) (read_of_other _ head' list' other')
        · exact .of_word kept kept' (read_of_word source head list noted)
            (read_of_word source' head' list' noted') (behind head 1 p p' Nat.one_pos alike)

end Alike

end Qualifiers

end ShaderPass.Declaration
