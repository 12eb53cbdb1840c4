import ShaderPass.Text.Splice

/-! Byte offsets between characters. At such offsets cutting and slicing only regroup a text, and a
splice is the pieces between its edits with the replacements in between. -/
namespace ShaderPass.Text

theorem takeBytes_append_of_le {s : Text} {n : Nat} (h : byteLen s ≤ n) (t : Text) :
    takeBytes n (s ++ t) = s ++ takeBytes (n - byteLen s) t := by
  induction s generalizing n with
  | nil => simp
  | cons c s ih =>
    have := c.utf8Size_pos
    rw [byteLen_cons] at h ⊢
    obtain ⟨m, rfl⟩ : ∃ m, n = m + 1 := ⟨n - 1, by omega⟩
    rw [List.cons_append, takeBytes, ih (by omega), List.cons_append]
    congr 3
    omega

theorem takeBytes_append_of_ge {s : Text} {n : Nat} (h : n ≤ byteLen s) (t : Text) :
    takeBytes n (s ++ t) = takeBytes n s := by
  induction s generalizing n with
  | nil =>
    obtain rfl : n = 0 := Nat.le_zero.1 h
    rw [takeBytes_zero, takeBytes_zero]
  | cons c s ih =>
    cases n with
    | zero => rw [takeBytes_zero, takeBytes_zero]
    | succ n =>
      rw [byteLen_cons] at h
      rw [List.cons_append, takeBytes, takeBytes, ih (by omega)]

theorem dropBytes_append_of_le {s : Text} {n : Nat} (h : byteLen s ≤ n) (t : Text) :
    dropBytes n (s ++ t) = dropBytes (n - byteLen s) t := by
  induction s generalizing n with
  | nil => simp
  | cons c s ih =>
    have := c.utf8Size_pos
    rw [byteLen_cons] at h ⊢
    obtain ⟨m, rfl⟩ : ∃ m, n = m + 1 := ⟨n - 1, by omega⟩
    rw [List.cons_append, dropBytes, ih (by omega)]
    congr 1
    omega

theorem slice_append (a m b : Text) : slice (byteLen a) (byteLen a + byteLen m) (a ++ (m ++ b)) = m := by
  rw [slice, dropBytes_byteLen_append, Nat.add_sub_cancel_left, takeBytes_byteLen_append]

/-- An offset between two characters of a text, or at one of its ends. -/
def IsBoundary (t : Text) (n : Nat) : Prop :=
  ∃ a b, t = a ++ b ∧ byteLen a = n

theorem isBoundary_zero (t : Text) : IsBoundary t 0 := ⟨[], t, rfl, rfl⟩

theorem IsBoundary.le_byteLen {t : Text} {n : Nat} (h : IsBoundary t n) : n ≤ byteLen t := by
  obtain ⟨a, b, rfl, rfl⟩ := h
  rw [byteLen_append]
  exact Nat.le_add_right _ _

theorem append_eq_append_of_byteLen_le {a b c d : Text} (same : a ++ b = c ++ d)
    (le : byteLen a ≤ byteLen c) : ∃ m, c = a ++ m ∧ b = m ++ d := by
  rcases List.append_eq_append_iff.1 same with ⟨m, rfl, rfl⟩ | ⟨m, rfl, rfl⟩
  · exact ⟨m, rfl, rfl⟩
  · -- The longer text has no more bytes, so what it has more of is empty.
    rw [byteLen_append] at le
    cases m with
    | nil => exact ⟨[], by simp⟩
    | cons x m =>
      have := x.utf8Size_pos
      rw [byteLen_cons] at le
      omega

theorem append_inj_of_byteLen {a b c d : Text} (same : a ++ b = c ++ d)
    (len : byteLen a = byteLen c) : a = c ∧ b = d := by
  obtain ⟨m, rfl, rfl⟩ := append_eq_append_of_byteLen_le same (Nat.le_of_eq len)
  rw [byteLen_append] at len
  cases m with
  | nil => exact ⟨(List.append_nil a).symm, rfl⟩
  | cons e m =>
    have := e.utf8Size_pos
    rw [byteLen_cons] at len
    omega

theorem IsBoundary.exists_slice {t : Text} {m n : Nat} (hm : IsBoundary t m) (hn : IsBoundary t n)
    (le : m ≤ n) : ∃ a s b, t = a ++ (s ++ b) ∧ byteLen a = m ∧ byteLen s = n - m := by
  obtain ⟨a, b, rfl, rfl⟩ := hm
  obtain ⟨c, d, same, rfl⟩ := hn
  obtain ⟨s, rfl, rfl⟩ := append_eq_append_of_byteLen_le same le
  exact ⟨a, s, d, rfl, rfl, by rw [byteLen_append]; omega⟩

theorem byteLen_slice {t : Text} {m n : Nat} (hm : IsBoundary t m) (hn : IsBoundary t n)
    (le : m ≤ n) : byteLen (slice m n t) = n - m := by
  obtain ⟨a, s, b, rfl, rfl, len⟩ := hm.exists_slice hn le
  have stop : n = byteLen a + byteLen s := by omega
  rw [stop, slice_append, Nat.add_sub_cancel_left]

theorem slice_append_dropBytes {t : Text} {m n : Nat} (hm : IsBoundary t m) (hn : IsBoundary t n)
    (le : m ≤ n) : slice m n t ++ dropBytes n t = dropBytes m t := by
  obtain ⟨a, s, b, rfl, rfl, len⟩ := hm.exists_slice hn le
  have stop : n = byteLen (a ++ s) := by rw [byteLen_append]; omega
  rw [dropBytes_byteLen_append, stop, ← List.append_assoc, dropBytes_byteLen_append,
    List.append_assoc, byteLen_append, slice_append]

theorem slice_append_slice {t : Text} {l m n : Nat} (hl : IsBoundary t l) (hm : IsBoundary t m)
    (hn : IsBoundary t n) (lm : l ≤ m) (mn : m ≤ n) : slice l m t ++ slice m n t = slice l n t := by
  apply (List.append_left_inj (dropBytes n t)).1
  rw [List.append_assoc, slice_append_dropBytes hm hn mn, slice_append_dropBytes hl hm lm,
    slice_append_dropBytes hl hn (Nat.le_trans lm mn)]

theorem dropBytes_dropBytes {t : Text} {m n : Nat} (hm : IsBoundary t m) (le : m ≤ n) :
    dropBytes (n - m) (dropBytes m t) = dropBytes n t := by
  obtain ⟨a, b, rfl, rfl⟩ := hm
  rw [dropBytes_byteLen_append, dropBytes_append_of_le le]

theorem spliceFrom_dropBytes {t : Text} {m n : Nat} (hm : IsBoundary t m) (hn : IsBoundary t n)
    (le : m ≤ n) {edits : List Edit} (later : ∀ e ∈ edits, n ≤ e.start ∧ n ≤ e.stop) :
    spliceFrom m (dropBytes m t) edits = slice m n t ++ spliceFrom n (dropBytes n t) edits := by
  rw [← slice_append_dropBytes hm hn le]
  have len := byteLen_slice hm hn le
  cases edits with
  | nil => rfl
  | cons e edits =>
    obtain ⟨start, stop⟩ := later e List.mem_cons_self
    have start' : e.start - m - (n - m) = e.start - n := by omega
    have stop' : e.stop - m - (n - m) = e.stop - n := by omega
    rw [spliceFrom, takeBytes_append_of_le (by omega), dropBytes_append_of_le (by omega), len,
      start', stop', spliceFrom, List.append_assoc, List.append_assoc, List.append_assoc]

theorem spliceFrom_cons {t : Text} {m : Nat} (hm : IsBoundary t m) (e : Edit) (edits : List Edit)
    (le : m ≤ e.stop) :
    spliceFrom m (dropBytes m t) (e :: edits) =
      slice m e.start t ++ e.replacement ++ spliceFrom e.stop (dropBytes e.stop t) edits := by
  rw [spliceFrom, dropBytes_dropBytes hm le, slice]

theorem splice_eq_spliceFrom {t : Text} {edits : List Edit}
    (ascending : edits.Pairwise fun a b => a.start ≤ b.start) :
    splice t edits = spliceFrom 0 (dropBytes 0 t) edits := by
  rw [splice, dropBytes_zero, List.mergeSort_of_pairwise]
  exact ascending.imp fun h => decide_eq_true h

theorem splice_nil (t : Text) : splice t [] = t := by
  rw [splice_eq_spliceFrom List.Pairwise.nil, dropBytes_zero]
  rfl

/-- The text without the characters that start in one of `ranges`; `offset` is where it starts. -/
def without (ranges : List (Nat × Nat)) (offset : Nat) : Text → Text
  | [] => []
  | c :: t =>
    if ranges.any fun range => range.1 ≤ offset && offset < range.2 then
      without ranges (offset + c.utf8Size) t
    else c :: without ranges (offset + c.utf8Size) t

theorem without_append (ranges : List (Nat × Nat)) (offset : Nat) (s t : Text) :
    without ranges offset (s ++ t) =
      without ranges offset s ++ without ranges (offset + byteLen s) t := by
  induction s generalizing offset with
  | nil => simp [without]
  | cons c s ih =>
    rw [List.cons_append, without, without, byteLen_cons, ← Nat.add_assoc]
    split
    · exact ih _
    · rw [ih, List.cons_append]

theorem without_eq_self {ranges : List (Nat × Nat)} {offset : Nat} {t : Text}
    (apart : ∀ range ∈ ranges, range.2 ≤ offset ∨ offset + byteLen t ≤ range.1) :
    without ranges offset t = t := by
  induction t generalizing offset with
  | nil => rfl
  | cons c t ih =>
    have := c.utf8Size_pos
    simp only [byteLen_cons] at apart
    have outside : ¬ (ranges.any fun range => range.1 ≤ offset && offset < range.2) = true := by
      rw [List.any_eq_true]
      rintro ⟨range, member, inside⟩
      rw [Bool.and_eq_true, decide_eq_true_eq, decide_eq_true_eq] at inside
      rcases apart range member with h | h <;> omega
    rw [without, if_neg outside, ih]
    intro range member
    rcases apart range member with h | h
    · exact Or.inl (by omega)
    · exact Or.inr (by omega)

theorem without_eq_nil {ranges : List (Nat × Nat)} {offset : Nat} {t : Text} {range : Nat × Nat}
    (member : range ∈ ranges) (start : range.1 ≤ offset) (stop : offset + byteLen t ≤ range.2) :
    without ranges offset t = [] := by
  induction t generalizing offset with
  | nil => rfl
  | cons c t ih =>
    have := c.utf8Size_pos
    rw [byteLen_cons] at stop
    have inside : (ranges.any fun range => range.1 ≤ offset && offset < range.2) = true := by
      rw [List.any_eq_true]
      refine ⟨range, member, ?_⟩
      rw [Bool.and_eq_true, decide_eq_true_eq, decide_eq_true_eq]
      exact ⟨start, by omega⟩
    rw [without, if_pos inside, ih (by omega) (by omega)]

end ShaderPass.Text
