import ShaderPass.Proofs.Text.Offset
import ShaderPass.Proofs.Text.Words
import ShaderPass.Text.Splice

/-! Texts whose words are exchanged one by one, where the characters between the words stay. -/
namespace ShaderPass.Text

def IsName (w : Text) : Prop :=
  ∃ c more, w = c :: more ∧ isIdentStart c = true ∧ ∀ d ∈ more, isIdentChar d = true

theorem IsName.isWord {w : Text} (h : IsName w) : IsWord w := by
  obtain ⟨c, more, rfl, start, inside⟩ := h
  refine ⟨List.cons_ne_nil _ _, fun d member => ?_⟩
  rcases List.mem_cons.1 member with rfl | member
  · exact isIdentChar_of_isIdentStart start
  · exact inside d member

theorem isName_of_all {w : Text} (start : w.head?.any isIdentStart = true)
    (inside : w.all isIdentChar = true) : IsName w := by
  cases w with
  | nil => cases start
  | cons c more =>
    rw [List.all_cons, Bool.and_eq_true] at inside
    exact ⟨c, more, rfl, start, List.all_eq_true.1 inside.2⟩

/-- A text with its words exchanged. `R w rest r` says that `r` may stand for the word `w` in front of
`rest`. -/
inductive Reworded (R : Text → Text → Text → Prop) : Text → Text → Prop
  | nil : Reworded R [] []
  | char {c : Char} {s t : Text} (plain : isIdentChar c = false) (later : Reworded R s t) :
    Reworded R (c :: s) (c :: t)
  | word {w r s t : Text} (isWord : IsWord w) (free : isFree s.head? = true) (admits : R w s r)
    (later : Reworded R s t) : Reworded R (w ++ s) (r ++ t)

section Reworded

variable {R S : Text → Text → Text → Prop} {s t u w : Text}

theorem Reworded.mono (h : Reworded R s t) (sub : ∀ w rest r, IsWord w → R w rest r → S w rest r) :
    Reworded S s t := by
  induction h with
  | nil => exact .nil
  | char plain _ ih => exact .char plain ih
  | word isWord free admits _ ih => exact .word isWord free (sub _ _ _ isWord admits) ih

theorem not_isFree_append (isWord : IsWord w) (s : Text) : isFree (w ++ s).head? = false := by
  obtain ⟨c, more, rfl⟩ := List.exists_cons_of_ne_nil isWord.1
  simp [isFree, isWord.2 c List.mem_cons_self]

theorem Reworded.isFree (h : Reworded R s t) (free : isFree s.head? = true) :
    Text.isFree t.head? = true := by
  cases h with
  | nil => rfl
  | char plain _ => exact isFree_cons plain
  | word isWord _ _ _ =>
    rw [not_isFree_append isWord] at free
    cases free

theorem Reworded.of_nil (h : Reworded R [] t) : t = [] := by
  generalize whole : ([] : Text) = all at h
  cases h with
  | nil => rfl
  | char => cases whole
  | word isWord => exact absurd (List.append_eq_nil_iff.1 whole.symm).1 isWord.1

theorem Reworded.of_cons {c : Char} (plain : isIdentChar c = false) (h : Reworded R (c :: s) t) :
    ∃ t', t = c :: t' ∧ Reworded R s t' := by
  generalize whole : c :: s = all at h
  cases h with
  | nil => cases whole
  | char _ later =>
    obtain ⟨rfl, rfl⟩ := List.cons.inj whole
    exact ⟨_, rfl, later⟩
  | @word w _ s' _ isWord _ _ _ =>
    have taken := not_isFree_append isWord s'
    rw [← whole, isFree_cons plain] at taken
    cases taken

theorem append_inj_of_isWord {v : Text} (hw : IsWord w) (hv : IsWord v)
    (free : Text.isFree s.head? = true) (free' : Text.isFree t.head? = true) (same : w ++ s = v ++ t) :
    w = v ∧ s = t := by
  have words_eq : w = v := by
    rw [← takeWhile_append_of_isFree hw.2 free, same, takeWhile_append_of_isFree hv.2 free']
  subst words_eq
  exact ⟨rfl, List.append_cancel_left same⟩

theorem Reworded.of_word (isWord : IsWord w) (free : Text.isFree s.head? = true)
    (h : Reworded R (w ++ s) t) : ∃ r t', t = r ++ t' ∧ R w s r ∧ Reworded R s t' := by
  generalize whole : w ++ s = all at h
  cases h with
  | nil => exact absurd (List.append_eq_nil_iff.1 whole).1 isWord.1
  | @char c _ _ plain _ =>
    have taken := not_isFree_append isWord s
    rw [whole, isFree_cons plain] at taken
    cases taken
  | word isWord' free' admits later =>
    obtain ⟨rfl, rfl⟩ := append_inj_of_isWord isWord isWord' free free' whole
    exact ⟨_, _, rfl, admits, later⟩

theorem Reworded.of_append_cons {c : Char} (plain : isIdentChar c = false)
    (h : Reworded R (s ++ c :: u) t) : ∃ s' u', t = s' ++ c :: u' ∧ Reworded R u u' := by
  induction s using word_induction generalizing t with
  | nil =>
    obtain ⟨u', rfl, later⟩ := h.of_cons plain
    exact ⟨[], u', rfl, later⟩
  | char d s between ih =>
    obtain ⟨t', rfl, later⟩ := Reworded.of_cons between h
    obtain ⟨s', u', rfl, rest⟩ := ih later
    exact ⟨d :: s', u', rfl, rest⟩
  | word w s isWord free ih =>
    rw [List.append_assoc] at h
    obtain ⟨r, t', rfl, -, later⟩ := h.of_word isWord (head?_append_isFree free (isFree_cons plain))
    obtain ⟨s', u', rfl, rest⟩ := ih later
    exact ⟨r ++ s', u', by rw [List.append_assoc], rest⟩

theorem free_of_apart (isWord : IsWord w) (free : Text.isFree s.head? = true)
    (apart : Text.isFree (w ++ s).getLast? = true ∨ Text.isFree u.head? = true) :
    Text.isFree (s ++ u).head? = true := by
  cases s with
  | nil =>
    have ends : Text.isFree w.getLast? = false := by
      have member := List.getLast_mem isWord.1
      simp [Text.isFree, List.getLast?_eq_some_getLast isWord.1, isWord.2 _ member]
    rw [List.append_nil, ends] at apart
    exact apart.resolve_left Bool.false_ne_true
  | cons c s => exact free

theorem getLast?_of_append_apart {v : Text}
    (apart : Text.isFree (v ++ s).getLast? = true ∨ Text.isFree u.head? = true) :
    Text.isFree s.getLast? = true ∨ Text.isFree u.head? = true := by
  cases s with
  | nil => exact Or.inl rfl
  | cons d s => rwa [List.getLast?_append, Option.or_of_isSome (by simp)] at apart

theorem Reworded.of_append (h : Reworded R (s ++ u) t)
    (apart : Text.isFree s.getLast? = true ∨ Text.isFree u.head? = true) :
    ∃ s' u', t = s' ++ u' ∧ Reworded (fun w rest r => R w (rest ++ u) r) s s' ∧ Reworded R u u' := by
  induction s using word_induction generalizing t with
  | nil => exact ⟨[], t, rfl, .nil, h⟩
  | char d s plain ih =>
    obtain ⟨t', rfl, later⟩ := Reworded.of_cons plain h
    obtain ⟨s', u', rfl, inner, rest⟩ := ih later (getLast?_of_append_apart (v := [d]) apart)
    exact ⟨d :: s', u', rfl, .char plain inner, rest⟩
  | word w s isWord inner_free ih =>
    rw [List.append_assoc] at h
    obtain ⟨r, t', rfl, admits, later⟩ := h.of_word isWord (free_of_apart isWord inner_free apart)
    obtain ⟨s', u', rfl, inner, rest⟩ := ih later (getLast?_of_append_apart apart)
    exact ⟨r ++ s', u', by rw [List.append_assoc], .word isWord inner_free admits inner, rest⟩

theorem Reworded.append (keeps : ∀ w rest, R w rest w) (s : Text)
    (apart : Text.isFree s.getLast? = true ∨ Text.isFree u.head? = true) (h : Reworded R u t) :
    Reworded R (s ++ u) (s ++ t) := by
  induction s using word_induction with
  | nil => exact h
  | char c s plain ih => exact .char plain (ih (getLast?_of_append_apart (v := [c]) apart))
  | word w s isWord free ih =>
    rw [List.append_assoc, List.append_assoc]
    exact .word isWord (free_of_apart isWord free apart) (keeps _ _) (ih (getLast?_of_append_apart apart))

theorem Reworded.refl (keeps : ∀ w rest, R w rest w) (t : Text) : Reworded R t t := by
  have := Reworded.append keeps t (Or.inr rfl) (Reworded.nil (R := R))
  rwa [List.append_nil] at this

theorem Reworded.trans (first : Reworded R s t) (second : Reworded S t u) :
    Reworded (fun w rest r => ∃ v rest', R w rest v ∧ Reworded R rest rest' ∧
      Reworded (fun x more r => S x (more ++ rest') r) v r) s u := by
  induction first generalizing u with
  | nil =>
    rw [second.of_nil]
    exact .nil
  | char plain _ ih =>
    obtain ⟨u', rfl, later⟩ := second.of_cons plain
    exact .char plain (ih later)
  | word isWord free admits rest ih =>
    obtain ⟨r, u', rfl, inner, later⟩ := second.of_append (Or.inr (rest.isFree free))
    exact .word isWord free ⟨_, _, admits, rest, inner⟩ (ih later)

theorem Reworded.eq (h : Reworded R s t) (kept : ∀ w ∈ words s, ∀ rest r, R w rest r → r = w) : t = s := by
  induction h with
  | nil => rfl
  | char plain _ ih =>
    rw [words_cons plain] at kept
    rw [ih kept]
  | word isWord free admits _ ih =>
    rw [words_append_word isWord free] at kept
    rw [kept _ List.mem_cons_self _ _ admits, ih fun w hw => kept w (List.mem_cons_of_mem _ hw)]

theorem Reworded.joinWith_eq {names : List Text} (isName : ∀ w ∈ names, IsName w)
    (kept : ∀ w ∈ names, ∀ rest r, rest = [] ∨ (∃ v more, IsName v ∧ rest = ' ' :: (v ++ more)) →
      R w rest r → r = w)
    (h : Reworded R (joinWith [' '] names) t) : t = joinWith [' '] names := by
  induction names generalizing t with
  | nil => exact h.of_nil
  | cons w names ih =>
    have isWord := (isName w List.mem_cons_self).isWord
    cases names with
    | nil =>
      rw [show joinWith [' '] [w] = w ++ [] from (List.append_nil w).symm] at h ⊢
      obtain ⟨r, t', rfl, admits, later⟩ := h.of_word isWord rfl
      rw [kept w List.mem_cons_self _ r (Or.inl rfl) admits, later.of_nil]
    | cons v names =>
      rw [joinWith_cons_cons] at h ⊢
      obtain ⟨r, t', rfl, admits, later⟩ := h.of_word isWord (isFree_cons (by decide))
      obtain ⟨t', rfl, inner⟩ := later.of_cons (by decide)
      rw [ih (fun x hx => isName x (List.mem_cons_of_mem _ hx))
        (fun x hx => kept x (List.mem_cons_of_mem _ hx)) inner]
      have follows : ∃ more, joinWith [' '] (v :: names) = v ++ more := by
        cases names with
        | nil => exact ⟨[], (List.append_nil v).symm⟩
        | cons x names => exact ⟨_, joinWith_cons_cons ..⟩
      obtain ⟨more, follows⟩ := follows
      rw [kept w List.mem_cons_self _ r (Or.inr ⟨v, more, isName v (by simp), by rw [follows]⟩) admits]

theorem Reworded.of_joinWith {names : List Text} (isName : ∀ w ∈ names, IsName w)
    {stop : Char} (plain : isIdentChar stop = false)
    (kept : ∀ w ∈ names, ∀ rest r, (∃ more, rest = stop :: more) ∨
      (∃ v more, IsName v ∧ rest = ' ' :: (v ++ more)) → R w rest r → r = w)
    (h : Reworded R (joinWith [' '] names ++ stop :: u) t) :
    ∃ u', t = joinWith [' '] names ++ stop :: u' ∧ Reworded R u u' := by
  obtain ⟨s', t', rfl, inner, later⟩ := h.of_append (Or.inr (isFree_cons plain))
  obtain ⟨u', rfl, rest⟩ := later.of_cons plain
  refine ⟨u', ?_, rest⟩
  rw [inner.joinWith_eq isName fun w hw rest r follows => kept w hw (rest ++ stop :: u) r ?_]
  rcases follows with rfl | ⟨v, more, name, rfl⟩
  · exact Or.inl ⟨u, rfl⟩
  · exact Or.inr ⟨v, more ++ stop :: u, name, by rw [List.cons_append, List.append_assoc]⟩

end Reworded

section Splicing

theorem spliceFrom_append {n : Nat} {edits : List Edit} (s u : Text)
    (later : ∀ e ∈ edits, n + byteLen s ≤ e.start ∧ n + byteLen s ≤ e.stop) :
    spliceFrom n (s ++ u) edits = s ++ spliceFrom (n + byteLen s) u edits := by
  cases edits with
  | nil => rfl
  | cons e edits =>
    obtain ⟨start, stop⟩ := later e List.mem_cons_self
    have start' : e.start - n - byteLen s = e.start - (n + byteLen s) := by omega
    have stop' : e.stop - n - byteLen s = e.stop - (n + byteLen s) := by omega
    rw [spliceFrom, takeBytes_append_of_le (by omega), dropBytes_append_of_le (by omega), start', stop',
      spliceFrom, List.append_assoc, List.append_assoc, List.append_assoc]

theorem spliceFrom_cons_append (n : Nat) (w u r : Text) (edits : List Edit) :
    spliceFrom n (w ++ u) (⟨n, n + byteLen w, r⟩ :: edits) =
      r ++ spliceFrom (n + byteLen w) u edits := by
  rw [spliceFrom, Nat.sub_self, takeBytes_zero, Nat.add_sub_cancel_left, dropBytes_byteLen_append,
    List.nil_append]

theorem reworded_spliceFrom {name : Text} (isName : IsWord name) (t replacement : Text) (offset : Nat) :
    Reworded (fun w _ r => r = if w = name then replacement else w) t
      (spliceFrom offset t ((wordOffsetsFrom name none 0 offset t).map fun n =>
        ⟨n, n + byteLen name, replacement⟩)) := by
  have later (offset : Nat) (t : Text) : ∀ e ∈ (wordOffsetsFrom name none 0 offset t).map
      fun n => (⟨n, n + byteLen name, replacement⟩ : Edit), offset ≤ e.start ∧ offset ≤ e.stop := by
    intro e member
    obtain ⟨n, hn, rfl⟩ := List.mem_map.1 member
    have := (pairwise_wordOffsetsFrom name none 0 offset t).1 n hn
    exact ⟨this, Nat.le_add_right_of_le this⟩
  induction t using word_induction generalizing offset with
  | nil =>
    rw [wordOffsetsFrom_nil isName]
    exact .nil
  | char c t plain ih =>
    rw [wordOffsetsFrom_char isName plain]
    have keeps := spliceFrom_append [c] t (later (offset + byteLen [c]) t)
    have size : byteLen [c] = c.utf8Size := by simp
    rw [size, List.singleton_append, List.singleton_append] at keeps
    rw [keeps]
    exact .char plain (ih _)
  | word w t isWord free ih =>
    rw [wordOffsetsFrom_word isName isWord free]
    by_cases same : w = name
    · subst same
      rw [if_pos rfl, List.singleton_append, List.map_cons, spliceFrom_cons_append]
      exact .word isWord free (if_pos rfl).symm (ih _)
    · rw [if_neg same, List.nil_append, spliceFrom_append w t (later _ t)]
      exact .word isWord free (if_neg same).symm (ih _)

theorem replaceWord_eq_spliceFrom (t name replacement : Text) : replaceWord t name replacement =
    spliceFrom 0 t ((wordOffsets t name).map fun n => ⟨n, n + byteLen name, replacement⟩) := by
  have sorted : ((wordOffsets t name).map fun n => (⟨n, n + byteLen name, replacement⟩ : Edit)).Pairwise
      fun a b => a.start ≤ b.start :=
    List.pairwise_map.2 ((pairwise_wordOffsetsFrom name none 0 0 t).2.imp Nat.le_of_lt)
  rw [replaceWord, splice_eq_spliceFrom sorted, dropBytes_zero]

theorem reworded_replaceWord {name : Text} (isName : IsWord name) (t replacement : Text) :
    Reworded (fun w _ r => r = if w = name then replacement else w) t (replaceWord t name replacement) := by
  rw [replaceWord_eq_spliceFrom]
  exact reworded_spliceFrom isName t replacement 0

end Splicing

end ShaderPass.Text
