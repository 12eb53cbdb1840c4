import ShaderPass.Proofs.Text.Lines
import ShaderPass.Proofs.Text.Runs
import ShaderPass.Text.Word

/-! A text is a sequence of words and of characters between them. The search for an identifier finds the
words that are equal to it. -/
namespace ShaderPass.Text

def IsWord (w : Text) : Prop :=
  w ≠ [] ∧ ∀ c ∈ w, isIdentChar c = true

def words (t : Text) : List Text :=
  runs isIdentChar t

theorem isFree_iff {neighbour : Option Char} :
    isFree neighbour = true ↔ neighbour.any isIdentChar = false := by
  simp [isFree]

theorem isFree_cons {c : Char} {t : Text} (h : isIdentChar c = false) :
    isFree (c :: t).head? = true := by
  simp [isFree, h]

theorem takeWhile_append_of_isFree {s rest : Text} (inside : ∀ d ∈ s, isIdentChar d = true)
    (free : isFree rest.head? = true) : (s ++ rest).takeWhile isIdentChar = s := by
  rw [List.takeWhile_append_of_pos inside]
  cases rest with
  | nil => simp
  | cons c rest =>
    have : isIdentChar c = false := by simpa [isFree] using free
    simp [this]

theorem isFree_head?_dropWhile (t : Text) : isFree (t.dropWhile isIdentChar).head? = true := by
  have stop := List.head?_dropWhile_not isIdentChar t
  cases head : (t.dropWhile isIdentChar).head? with
  | none => rfl
  | some c =>
    rw [head] at stop
    simpa [isFree] using stop

theorem word_induction {motive : Text → Prop} (nil : motive [])
    (char : ∀ c t, isIdentChar c = false → motive t → motive (c :: t))
    (word : ∀ w t, IsWord w → isFree t.head? = true → motive t → motive (w ++ t)) (t : Text) :
    motive t := by
  induction len : t.length using Nat.strongRecOn generalizing t with
  | ind n ih =>
    cases t with
    | nil => exact nil
    | cons c t =>
      cases first : isIdentChar c with
      | false => exact char c t first (ih t.length (by simp [← len]) t rfl)
      | true =>
        have split : c :: t = (c :: t.takeWhile isIdentChar) ++ t.dropWhile isIdentChar := by
          rw [List.cons_append, List.takeWhile_append_dropWhile]
        rw [split]
        refine word _ _ ⟨List.cons_ne_nil _ _, ?_⟩ ?_ (ih _ ?_ _ rfl)
        · intro d member
          rcases List.mem_cons.1 member with rfl | member
          · exact first
          · exact List.all_eq_true.1 List.all_takeWhile d member
        · exact isFree_head?_dropWhile t
        · have := (List.dropWhile_suffix isIdentChar (l := t)).length_le
          rw [← len, List.length_cons]
          omega

section Words

variable {w t : Text} {c : Char}

@[simp] theorem words_nil : words [] = [] :=
  rfl

theorem words_cons (h : isIdentChar c = false) (t : Text) : words (c :: t) = words t :=
  runs_cons_of_neg h t

theorem words_append_word (h : IsWord w) (free : isFree t.head? = true) :
    words (w ++ t) = w :: words t :=
  runs_append h.1 h.2 (isFree_iff.1 free)

theorem words_of_isWord (h : IsWord w) : words w = [w] := by
  have := words_append_word (t := []) h rfl
  rwa [List.append_nil] at this

theorem isWord_of_mem_words (member : w ∈ words t) : IsWord w :=
  mem_runs member

theorem isDigit_of_mem_toDigits {n : Nat} (member : c ∈ Nat.toDigits 10 n) : c.isDigit = true :=
  Nat.isDigit_of_mem_toDigits (by decide) (by decide) member

theorem isWord_toDigits (n : Nat) : IsWord (Nat.toDigits 10 n) :=
  ⟨Nat.toDigits_ne_nil, fun c member => by
    simp [isIdentChar, Char.isAlphanum, isDigit_of_mem_toDigits member]⟩

theorem head?_append_isFree {s t : Text} (hs : isFree s.head? = true) (ht : isFree t.head? = true) :
    isFree (s ++ t).head? = true := by
  cases s with
  | nil => exact ht
  | cons c s => exact hs

theorem words_append_cons (h : isIdentChar c = false) (s t : Text) :
    words (s ++ c :: t) = words s ++ words t := by
  induction s using word_induction with
  | nil => exact words_cons h t
  | char d s plain ih => rw [List.cons_append, words_cons plain, words_cons plain, ih]
  | word w s isWord free ih =>
    rw [List.append_assoc, words_append_word isWord (head?_append_isFree free (isFree_cons h)),
      words_append_word isWord free, ih, List.cons_append]

theorem words_append {s : Text} (free : isFree t.head? = true) : words (s ++ t) = words s ++ words t := by
  cases t with
  | nil => simp [words, runs]
  | cons c t =>
    have plain : isIdentChar c = false := by simpa [isFree] using free
    rw [words_append_cons plain, words_cons plain]

theorem words_joinWith {c : Char} (plain : isIdentChar c = false) (ts : List Text) :
    words (joinWith [c] ts) = ts.flatMap words := by
  induction ts with
  | nil => rfl
  | cons t ts ih =>
    cases ts with
    | nil => simp [joinWith]
    | cons u ts => rw [List.flatMap_cons, ← ih, joinWith_cons_cons, words_append_cons plain]

theorem words_subset_of_mem_feedLines {t line : Text} (member : line ∈ feedLines t) :
    words line ⊆ words t := by
  have := words_joinWith (c := '\n') (by decide) (feedLines t)
  rw [← joinFeeds, joinFeeds_feedLines] at this
  intro w listed
  rw [this]
  exact List.mem_flatMap.2 ⟨line, member, listed⟩

end Words

section Offsets

variable {name : Text} (isName : IsWord name)

theorem wordOffsetsFrom_congr {b b' : Option Char} (same : isFree b = isFree b') (skip offset : Nat)
    (t : Text) : wordOffsetsFrom name b skip offset t = wordOffsetsFrom name b' skip offset t := by
  cases t <;> simp only [wordOffsetsFrom, same]

include isName

theorem wordOffsetsFrom_nil (b : Option Char) (skip offset : Nat) :
    wordOffsetsFrom name b skip offset [] = [] := by
  simp [wordOffsetsFrom, isName.1]

theorem wordOffsetsFrom_char {c : Char} (h : isIdentChar c = false) (b : Option Char) (offset : Nat)
    (t : Text) : wordOffsetsFrom name b 0 offset (c :: t) =
      wordOffsetsFrom name none 0 (offset + c.utf8Size) t := by
  have mismatch : name.isPrefixOf (c :: t) = false := by
    cases name with
    | nil => exact absurd rfl isName.1
    | cons d name =>
      have differs : d ≠ c := by
        rintro rfl
        rw [isName.2 d List.mem_cons_self] at h
        cases h
      simp [List.isPrefixOf, differs]
  rw [wordOffsetsFrom, mismatch, Bool.and_false, if_neg (by simp)]
  exact wordOffsetsFrom_congr (by simp [isFree, h]) _ _ _

theorem length_le_of_isPrefixOf {w t : Text} (free : isFree t.head? = true)
    (found : name.isPrefixOf (w ++ t) = true) : name.length ≤ w.length := by
  rw [List.isPrefixOf_iff_prefix] at found
  refine Nat.le_of_not_lt fun longer => ?_
  obtain ⟨rest, same⟩ := found
  cases t with
  | nil =>
    have := congrArg List.length same
    simp at this
    omega
  | cons c t =>
    have plain : isIdentChar c = false := by simpa [isFree] using free
    have inside : c ∈ name := by
      have at_w := congrArg (fun l => l[w.length]?) same
      simp only [List.getElem?_append_left (show w.length < name.length by omega),
        List.getElem?_append_right (Nat.le_refl _), Nat.sub_self, List.getElem?_cons_zero] at at_w
      exact List.mem_of_getElem? at_w
    rw [isName.2 c inside] at plain
    cases plain

theorem wordOffsetsFrom_inside {w t : Text} (ident : ∀ c ∈ w, isIdentChar c = true)
    (free : isFree t.head? = true) {b : Char} (hb : isIdentChar b = true) {skip : Nat}
    (le : skip ≤ w.length) (offset : Nat) :
    wordOffsetsFrom name (some b) skip offset (w ++ t) =
      wordOffsetsFrom name none 0 (offset + byteLen w) t := by
  induction w generalizing b skip offset with
  | nil =>
    obtain rfl : skip = 0 := Nat.le_zero.1 le
    cases t with
    | nil => rw [List.append_nil, wordOffsetsFrom_nil isName, wordOffsetsFrom_nil isName]
    | cons c t =>
      have plain : isIdentChar c = false := by simpa [isFree] using free
      exact (wordOffsetsFrom_char isName plain _ _ _).trans
        (wordOffsetsFrom_char isName plain _ _ _).symm
  | cons c w ih =>
    have hc := ident c List.mem_cons_self
    have rest {skip : Nat} (le : skip ≤ w.length) :
        wordOffsetsFrom name (some c) skip (offset + c.utf8Size) (w ++ t) =
          wordOffsetsFrom name none 0 (offset + byteLen (c :: w)) t := by
      rw [ih (fun d hd => ident d (List.mem_cons_of_mem _ hd)) hc le, byteLen_cons, Nat.add_assoc]
    have bound : isFree (some b) = false := by simp [isFree, hb]
    rw [List.cons_append, wordOffsetsFrom]
    split
    · rename_i found
      rw [Bool.and_eq_true] at found
      have := length_le_of_isPrefixOf isName (w := c :: w) free found.2
      rw [List.length_cons] at this
      simp only [bound, Bool.false_and, Bool.false_eq_true, if_false]
      exact rest (by omega)
    · rw [List.length_cons] at le
      exact rest (by omega)

theorem wordOffsetsFrom_word {w t : Text} (isWord : IsWord w) (free : isFree t.head? = true)
    (offset : Nat) : wordOffsetsFrom name none 0 offset (w ++ t) =
      (if w = name then [offset] else []) ++ wordOffsetsFrom name none 0 (offset + byteLen w) t := by
  obtain ⟨c, w, rfl⟩ := List.exists_cons_of_ne_nil isWord.1
  have hc := isWord.2 c List.mem_cons_self
  have rest {skip : Nat} (le : skip ≤ w.length) :
      wordOffsetsFrom name (some c) skip (offset + c.utf8Size) (w ++ t) =
        wordOffsetsFrom name none 0 (offset + byteLen (c :: w)) t := by
    rw [wordOffsetsFrom_inside isName (fun d hd => isWord.2 d (List.mem_cons_of_mem _ hd)) free hc le,
      byteLen_cons, Nat.add_assoc]
  rw [List.cons_append, wordOffsetsFrom]
  split
  · rename_i found
    rw [Bool.and_eq_true] at found
    have le := length_le_of_isPrefixOf isName (w := c :: w) free found.2
    rw [List.length_cons] at le
    obtain ⟨tail, cut⟩ := List.isPrefixOf_iff_prefix.1 found.2
    have after : (c :: (w ++ t)).drop name.length = tail := by
      rw [← cut, List.drop_left]
    rw [rest (by omega), after]
    by_cases same : c :: w = name
    · have : tail = t := by
        rw [← same, List.cons_append] at cut
        exact List.append_cancel_left (List.cons.inj cut).2
      rw [if_pos same, this, free]
      rfl
    · -- A shorter name ends inside the word.
      have inside : tail.head?.any isIdentChar = true := by
        have shorter : name.length < (c :: w).length := by
          refine Nat.lt_of_le_of_ne (by rw [List.length_cons]; omega) fun len => same ?_
          have := congrArg (List.take name.length) cut
          rw [List.take_left, ← List.cons_append, len, List.take_left] at this
          exact this.symm
        have : tail.head? = (c :: w)[name.length]? := by
          have at_end := congrArg (fun l => l[name.length]?) cut
          simp only [List.getElem?_append_right (Nat.le_refl _), Nat.sub_self, ← List.cons_append,
            List.getElem?_append_left shorter] at at_end
          rw [List.head?_eq_getElem?, at_end]
        rw [this, List.getElem?_eq_getElem shorter]
        exact isWord.2 _ (List.getElem_mem _)
      rw [if_neg same]
      simp [isFree, inside]
  · rename_i mismatch
    have differs : c :: w ≠ name := by
      rintro rfl
      apply mismatch
      rw [decide_eq_true rfl, Bool.true_and, List.isPrefixOf_iff_prefix, ← List.cons_append]
      exact List.prefix_append _ _
    rw [if_neg differs]
    exact rest (Nat.zero_le _)

theorem wordOffsetsFrom_append_cons {c : Char} (h : isIdentChar c = false) (s t : Text)
    (offset : Nat) : wordOffsetsFrom name none 0 offset (s ++ c :: t) =
      wordOffsetsFrom name none 0 offset s ++
        wordOffsetsFrom name none 0 (offset + byteLen s) (c :: t) := by
  induction s using word_induction generalizing offset with
  | nil => rw [wordOffsetsFrom_nil isName]; rfl
  | char d s plain ih =>
    rw [List.cons_append, wordOffsetsFrom_char isName plain, wordOffsetsFrom_char isName plain, ih,
      byteLen_cons, Nat.add_assoc]
  | word w s isWord free ih =>
    have free' := head?_append_isFree free (isFree_cons (t := t) h)
    rw [List.append_assoc, wordOffsetsFrom_word isName isWord free',
      wordOffsetsFrom_word isName isWord free, ih, byteLen_append, Nat.add_assoc, List.append_assoc]

theorem wordOffsetsFrom_append_char {c : Char} (h : isIdentChar c = false) (s t : Text) (offset : Nat) :
    wordOffsetsFrom name none 0 offset (s ++ [c] ++ t) = wordOffsetsFrom name none 0 offset (s ++ [c]) ++
      wordOffsetsFrom name none 0 (offset + byteLen (s ++ [c])) t := by
  have front := wordOffsetsFrom_append_cons isName h s [] offset
  rw [wordOffsetsFrom_char isName h, wordOffsetsFrom_nil isName, List.append_nil] at front
  have size : byteLen (s ++ [c]) = byteLen s + c.utf8Size := by simp
  rw [front, size, List.append_assoc, List.singleton_append, wordOffsetsFrom_append_cons isName h,
    wordOffsetsFrom_char isName h, Nat.add_assoc]

theorem wordOffsetsFrom_append {t : Text} (free : isFree t.head? = true) (s : Text) (offset : Nat) :
    wordOffsetsFrom name none 0 offset (s ++ t) = wordOffsetsFrom name none 0 offset s ++
      wordOffsetsFrom name none 0 (offset + byteLen s) t := by
  cases t with
  | nil => rw [List.append_nil, wordOffsetsFrom_nil isName, List.append_nil]
  | cons c t => exact wordOffsetsFrom_append_cons isName (by simpa [isFree] using free) s t offset

theorem wordOffsetsFrom_eq_nil {t : Text} (offset : Nat) :
    wordOffsetsFrom name none 0 offset t = [] ↔ name ∉ words t := by
  induction t using word_induction generalizing offset with
  | nil => simp [wordOffsetsFrom_nil isName, words, runs]
  | char c t plain ih => rw [wordOffsetsFrom_char isName plain, words_cons plain, ih]
  | word w t isWord free ih =>
    rw [wordOffsetsFrom_word isName isWord free, words_append_word isWord free,
      List.append_eq_nil_iff, ih, List.mem_cons, not_or, eq_comm (a := name)]
    by_cases same : w = name <;> simp [same]

theorem containsWord_iff_mem_words {t : Text} : containsWord t name = true ↔ name ∈ words t := by
  rw [containsWord, Bool.not_eq_true', List.isEmpty_eq_false_iff, wordOffsets, ne_eq,
    wordOffsetsFrom_eq_nil isName, Classical.not_not]

/-- Whether a word stands at a byte offset, with no identifier character on either side. -/
def StandsAt (t w : Text) (n : Nat) : Prop :=
  ∃ a b, t = a ++ (w ++ b) ∧ byteLen a = n ∧ isFree a.getLast? = true ∧ isFree b.head? = true

theorem mem_wordOffsets {t : Text} {n : Nat} (stands : StandsAt t name n) : n ∈ wordOffsets t name := by
  obtain ⟨a, b, rfl, rfl, before, behind⟩ := stands
  have found (offset : Nat) : offset ∈ wordOffsetsFrom name none 0 offset (name ++ b) := by
    rw [wordOffsetsFrom_word isName isName behind, if_pos rfl]
    exact List.mem_append_left _ List.mem_cons_self
  rw [wordOffsets]
  rcases List.eq_nil_or_concat a with rfl | ⟨a, c, rfl⟩
  · exact found 0
  · have plain : isIdentChar c = false := by simpa [isFree] using before
    rw [List.concat_eq_append, wordOffsetsFrom_append_char isName plain, Nat.zero_add]
    exact List.mem_append_right _ (found _)

theorem standsAt_of_mem_wordOffsets {t : Text} {n : Nat} (found : n ∈ wordOffsets t name) :
    StandsAt t name n := by
  have from_offset (t : Text) (offset : Nat) (found : n ∈ wordOffsetsFrom name none 0 offset t) :
      ∃ a b, t = a ++ (name ++ b) ∧ offset + byteLen a = n ∧ isFree a.getLast? = true ∧
        isFree b.head? = true := by
    induction t using word_induction generalizing offset with
    | nil =>
      rw [wordOffsetsFrom_nil isName] at found
      cases found
    | char c t plain ih =>
      rw [wordOffsetsFrom_char isName plain] at found
      obtain ⟨a, b, rfl, rfl, before, behind⟩ := ih _ found
      refine ⟨c :: a, b, rfl, by rw [byteLen_cons, Nat.add_assoc], ?_, behind⟩
      cases a with
      | nil => simp [isFree, plain]
      | cons d a => rwa [List.getLast?_cons_cons]
    | word w t isWord free ih =>
      rw [wordOffsetsFrom_word isName isWord free, List.mem_append] at found
      rcases found with here | later
      · split at here
        · rename_i same
          obtain rfl := List.mem_singleton.1 here
          exact ⟨[], t, by rw [same]; rfl, rfl, rfl, free⟩
        · cases here
      · obtain ⟨a, b, rfl, rfl, before, behind⟩ := ih _ later
        refine ⟨w ++ a, b, by rw [List.append_assoc], by rw [byteLen_append, Nat.add_assoc], ?_, behind⟩
        -- Words do not touch, so something stands between them.
        rcases List.eq_nil_or_concat a with rfl | ⟨a, c, rfl⟩
        · obtain ⟨d, more, rfl⟩ := List.exists_cons_of_ne_nil isName.1
          have := isName.2 d List.mem_cons_self
          simp [isFree, this] at free
        · simpa using before
  obtain ⟨a, b, cut, place, before, behind⟩ := from_offset t 0 found
  exact ⟨a, b, cut, by omega, before, behind⟩

theorem one_lt_countWord {t : Text} {m n : Nat} (first : StandsAt t name m) (second : StandsAt t name n)
    (apart : m ≠ n) : 1 < countWord t name := by
  have at_m := mem_wordOffsets isName first
  have at_n := mem_wordOffsets isName second
  rw [countWord]
  match offsets : wordOffsets t name with
  | [] =>
    rw [offsets] at at_m
    cases at_m
  | [k] =>
    rw [offsets, List.mem_singleton] at at_m at_n
    exact absurd (at_m.trans at_n.symm) apart
  | _ :: _ :: rest =>
    simp only [List.length_cons]
    omega

end Offsets

theorem pairwise_wordOffsetsFrom (word : Text) (b : Option Char) (skip offset : Nat) (t : Text) :
    (∀ n ∈ wordOffsetsFrom word b skip offset t, offset ≤ n) ∧
      (wordOffsetsFrom word b skip offset t).Pairwise (· < ·) := by
  induction t generalizing b skip offset with
  | nil =>
    rw [wordOffsetsFrom]
    split <;> simp
  | cons c t ih =>
    have := c.utf8Size_pos
    have later (skip : Nat) := ih (some c) skip (offset + c.utf8Size)
    have bound (skip : Nat) :
        ∀ n ∈ wordOffsetsFrom word (some c) skip (offset + c.utf8Size) t, offset < n :=
      fun n member => by have := (later skip).1 n member; omega
    rw [wordOffsetsFrom]
    split
    · dsimp only
      split
      · refine ⟨fun n member => ?_, List.pairwise_cons.2 ⟨bound _, (later _).2⟩⟩
        rcases List.mem_cons.1 member with rfl | member
        · exact Nat.le_refl _
        · exact Nat.le_of_lt (bound _ n member)
      · exact ⟨fun n member => Nat.le_of_lt (bound _ n member), (later _).2⟩
    · exact ⟨fun n member => Nat.le_of_lt (bound _ n member), (later _).2⟩

end ShaderPass.Text
