import ShaderPass.Proofs.Declaration.Outcome
import ShaderPass.Proofs.Token.Relocation

/-! Statements that read alike. A statement that has been moved, with other tokens behind it, gives the
same declaration as long as the brackets in it are closed in it. -/
namespace ShaderPass.Declaration

open Token ShaderPass.Bracket Compile

namespace Statement

def window (s : Statement) : List Token :=
  s.tokens.take s.size

theorem window_drop (s : Statement) (n : Nat) : (s.drop n).window = s.window.drop n := by
  rw [window, drop, window, List.drop_take]

theorem head?_eq (s : Statement) : s.head? = s.window.head? := by
  rw [head?, window, List.head?_take]

theorem size_pos {s : Statement} {t : Token} (head : s.head? = some t) : 0 < s.size := by
  rcases Nat.eq_zero_or_pos s.size with zero | positive
  · rw [head?, if_pos zero] at head
    cases head
  · exact positive

theorem exists_of_startsWith {s : Statement} {c : Char} (h : s.startsWith c = true) :
    ∃ t, s.head? = some t ∧ t.isPunct c = true := by
  rw [startsWith, Option.any_eq_true] at h
  exact h

theorem getElem?_window {s : Statement} {i : Nat} (inside : i < s.size) :
    s.window[i]? = s.tokens[i]? :=
  List.getElem?_take_of_lt inside

/-- A statement and its copy at another place of another text. Searches for a close end at the same
token, or behind the statement in both. -/
structure Alike (z z' : Nat) (source source' : Text) (s s' : Statement) : Prop where
  size : s'.size = s.size
  window : s'.window = s.window.map (move z z')
  close : ∀ i < s.size, ∀ t b, s.tokens[i]? = some t → b ∈ all → t.isPunct b.opening = true →
    (closeOffset? (s'.tokens.drop i)).map (min (s.size - i)) =
      (closeOffset? (s.tokens.drop i)).map (min (s.size - i))
  ordered : Ordered s.window
  text : ∀ x ∈ s.window, ∀ y ∈ s.window, x.stop ≤ y.start →
    Text.slice (x.move z z').stop (y.move z z').start source' = Text.slice x.stop y.start source

def Closed (s : Statement) : Prop :=
  ∃ stack, nested stack (marks s.window) = true

section

variable {z z' : Nat} {source source' : Text} {s s' : Statement}

theorem Alike.drop (h : Alike z z' source source' s s') (n : Nat) :
    Alike z z' source source' (s.drop n) (s'.drop n) := by
  have sub : ∀ x ∈ (s.drop n).window, x ∈ s.window := by
    intro x hx
    rw [window_drop] at hx
    exact List.mem_of_mem_drop hx
  refine ⟨?_, ?_, ?_, ?_, ?_⟩
  · show s'.size - n = s.size - n
    rw [h.size]
  · rw [window_drop, window_drop, h.window, List.map_drop]
  · intro i inside t b at_i hb opens
    have inside' : n + i < s.size := by
      have : i < s.size - n := inside
      omega
    have := h.close (n + i) inside' t b (List.getElem?_drop.symm.trans at_i) hb opens
    show (closeOffset? ((s'.tokens.drop n).drop i)).map (min (s.size - n - i)) =
      (closeOffset? ((s.tokens.drop n).drop i)).map (min (s.size - n - i))
    rw [List.drop_drop, List.drop_drop, Nat.sub_sub]
    exact this
  · rw [window_drop]
    exact h.ordered.sublist (List.drop_sublist n _)
  · intro x hx y hy
    exact h.text x (sub x hx) y (sub y hy)

theorem Alike.shorten (h : Alike z z' source source' s s') {m : Nat} (le : m ≤ s.size) :
    Alike z z' source source' ⟨s.tokens, m⟩ ⟨s'.tokens, m⟩ := by
  have cut : s.tokens.take m = s.window.take m := by
    rw [Statement.window, List.take_take, Nat.min_eq_left le]
  have cut' : s'.tokens.take m = s'.window.take m := by
    rw [Statement.window, List.take_take, h.size, Nat.min_eq_left le]
  have sub : ∀ x ∈ s.tokens.take m, x ∈ s.window := by
    intro x hx
    rw [cut] at hx
    exact List.mem_of_mem_take hx
  refine ⟨rfl, ?_, ?_, ?_, ?_⟩
  · show s'.tokens.take m = (s.tokens.take m).map _
    rw [cut, cut', h.window, List.map_take]
  · intro i inside t b at_i hb opens
    have inside : i < m := inside
    have := congrArg (Option.map (min (m - i))) (h.close i (by omega) t b at_i hb opens)
    rw [Option.map_map, Option.map_map] at this
    have narrow : (min (m - i)) ∘ (min (s.size - i)) = min (m - i) := by
      funext n
      show min (m - i) (min (s.size - i) n) = min (m - i) n
      omega
    rwa [narrow] at this
  · show Ordered (s.tokens.take m)
    rw [cut]
    exact h.ordered.sublist (List.take_sublist m _)
  · intro x hx y hy
    exact h.text x (sub x hx) y (sub y hy)

theorem Alike.getElem? (h : Alike z z' source source' s s') {i : Nat} (inside : i < s.size) :
    s'.tokens[i]? = s.tokens[i]?.map (move z z') := by
  rw [← getElem?_window inside, ← getElem?_window (h.size ▸ inside), h.window, List.getElem?_map]

theorem Alike.head? (h : Alike z z' source source' s s') : s'.head? = s.head?.map (move z z') := by
  rw [head?_eq, head?_eq, h.window, List.head?_map]

theorem Alike.startsWith (h : Alike z z' source source' s s') (c : Char) :
    s'.startsWith c = s.startsWith c := by
  rw [Statement.startsWith, h.head?, Statement.startsWith]
  cases s.head? <;> rfl

theorem Alike.ident? (h : Alike z z' source source' s s') : s'.ident? = s.ident? := by
  rw [Statement.ident?, h.head?, Statement.ident?]
  cases s.head? with
  | none => rfl
  | some t =>
    cases identifier : t.isIdentifier <;> simp [Option.filter, identifier]

theorem Alike.closeOffset?_cases (h : Alike z z' source source' s s') {b : Bracket} (hb : b ∈ all)
    {t : Token} (head : s.head? = some t) (opens : t.isPunct b.opening = true) :
    (closeOffset? s.tokens = none ∧ closeOffset? s'.tokens = none) ∨
      (∃ n < s.size, closeOffset? s.tokens = some n ∧ closeOffset? s'.tokens = some n) ∨
      ∃ n n', s.size ≤ n ∧ s.size ≤ n' ∧ closeOffset? s.tokens = some n ∧
        closeOffset? s'.tokens = some n' := by
  have at_zero : s.tokens[0]? = some t := by
    rw [← getElem?_window (size_pos head), ← List.head?_eq_getElem?, ← head?_eq, head]
  have same := h.close 0 (size_pos head) t b at_zero hb opens
  rw [List.drop_zero, List.drop_zero, Nat.sub_zero] at same
  cases old : closeOffset? s.tokens with
  | none =>
    rw [old, Option.map_none, Option.map_eq_none_iff] at same
    exact Or.inl ⟨rfl, same⟩
  | some n =>
    rw [old, Option.map_some, Option.map_eq_some_iff] at same
    obtain ⟨n', new, capped⟩ := same
    right
    by_cases inside : n < s.size
    · have : n' = n := by omega
      exact Or.inl ⟨n, inside, rfl, this ▸ new⟩
    · exact Or.inr ⟨n, n', by omega, by omega, rfl, new⟩

theorem closeOffset?_ne_zero {b : Bracket} (hb : b ∈ all) {tokens : List Token} {t : Token}
    (first : tokens.head? = some t) (opens : t.isPunct b.opening = true) {n : Nat}
    (found : closeOffset? tokens = some n) : 0 < n := by
  obtain ⟨ts, rfl⟩ := List.head?_eq_some_iff.1 first
  obtain ⟨-, m, -, rfl⟩ := (closeOffset?_eq_some_iff hb opens).1 found
  exact Nat.succ_pos m

theorem bracketed?_eq (source : Text) {tokens : List Token} {n : Nat} {first last : Token}
    (found : closeOffset? tokens = some n) (head : tokens.head? = some first)
    (close : tokens[n]? = some last) :
    bracketed? source tokens = some (Text.slice first.stop last.start source, n) := by
  simp [bracketed?, found, head, close]

theorem bracketed?_eq_none {source : Text} {tokens : List Token}
    (open_still : closeOffset? tokens = none) : bracketed? source tokens = none := by
  simp [bracketed?, open_still]

theorem closeOffset?_of_bracketed? {source : Text} {tokens : List Token} {inner : Text} {n : Nat}
    (found : bracketed? source tokens = some (inner, n)) : closeOffset? tokens = some n := by
  cases close : closeOffset? tokens with
  | none => rw [bracketed?_eq_none close] at found; cases found
  | some m =>
    simp only [bracketed?, close, Option.bind_eq_bind, Option.bind_some] at found
    cases head : tokens.head? with
    | none => rw [head] at found; cases found
    | some first =>
      cases last : tokens[m]? with
      | none => rw [head, last] at found; cases found
      | some last =>
        rw [head, last] at found
        simp only [Option.bind_some, Option.pure_def, Option.some.injEq, Prod.mk.injEq] at found
        rw [found.2]

theorem Alike.bracketed?_of_lt (h : Alike z z' source source' s s') {b : Bracket} (hb : b ∈ all)
    {t : Token} (first : s.head? = some t) (opens : t.isPunct b.opening = true) {n : Nat}
    (inside : n < s.size) (found : closeOffset? s.tokens = some n)
    (found' : closeOffset? s'.tokens = some n) :
    ∃ last ∈ s.window, s.tokens[n]? = some last ∧ s'.tokens[n]? = some (last.move z z') ∧
      bracketed? source s.tokens = some (Text.slice t.stop last.start source, n) ∧
      bracketed? source' s'.tokens = some (Text.slice t.stop last.start source, n) := by
  have head : s.tokens.head? = some t := by
    rw [Statement.head?, if_neg (by omega)] at first
    exact first
  have head' : s'.tokens.head? = some (t.move z z') := by
    have := h.head?
    rw [first, Statement.head?, h.size, if_neg (by omega)] at this
    exact this
  have positive := closeOffset?_ne_zero hb head opens found
  have close_lt : n < s.tokens.length := by
    obtain ⟨ts, tokens⟩ := List.head?_eq_some_iff.1 head
    rw [tokens] at found
    obtain ⟨-, m, hm, rfl⟩ := (closeOffset?_eq_some_iff hb opens).1 found
    rw [tokens, List.length_cons]
    exact Nat.succ_lt_succ (closeAfter_lt hm)
  obtain ⟨last, at_n⟩ : ∃ last, s.tokens[n]? = some last := ⟨_, List.getElem?_eq_getElem close_lt⟩
  have at_n' : s'.tokens[n]? = some (last.move z z') := by
    rw [h.getElem? inside, at_n, Option.map_some]
  have last_mem : last ∈ s.window := List.mem_of_getElem? ((getElem?_window inside).trans at_n)
  have first_mem : t ∈ s.window := List.mem_of_mem_head? (head?_eq s ▸ first)
  have apart : t.stop ≤ last.start := by
    obtain ⟨ts, cut⟩ := List.head?_eq_some_iff.1 (head?_eq s ▸ first)
    have at_n := (getElem?_window inside).trans at_n
    rw [cut] at at_n
    obtain ⟨m, rfl⟩ : ∃ m, n = m + 1 := ⟨n - 1, by omega⟩
    have pairs := h.ordered.1
    rw [cut, List.pairwise_cons] at pairs
    exact pairs.1 last (List.mem_of_getElem? (List.getElem?_cons_succ.symm.trans at_n))
  refine ⟨last, last_mem, at_n, at_n', bracketed?_eq source found head at_n, ?_⟩
  rw [bracketed?_eq source' found' head' at_n', h.text t first_mem last last_mem apart]

theorem Closed.of_marks (h : Closed s) (same : marks s'.window = marks s.window) : Closed s' := by
  obtain ⟨stack, nested⟩ := h
  exact ⟨stack, same ▸ nested⟩

theorem Closed.drop (h : Closed s) (n : Nat) : Closed (s.drop n) := by
  obtain ⟨stack, nested⟩ := h
  rw [← List.take_append_drop n s.window, marks_append] at nested
  rw [Closed, window_drop]
  exact exists_nested_of_append nested

theorem Closed.of_first (h : Closed s) {b : Bracket} (hb : b ∈ all) {t : Token}
    (first : s.head? = some t) (opens : t.isPunct b.opening = true) {n : Nat}
    (found : closeOffset? s.tokens = some n) :
    n < s.size ∧ Closed ⟨s.tokens.drop 1, n - 1⟩ := by
  obtain ⟨stack, nested⟩ := h
  obtain ⟨rest, cut⟩ := List.head?_eq_some_iff.1 (head?_eq s ▸ first)
  have whole : s.tokens = t :: (rest ++ s.tokens.drop s.size) := by
    rw [← List.cons_append, ← cut, window, List.take_append_drop]
  rw [cut, marks_cons_of_some (isPunct_iff.1 opens), nested_cons_opening hb] at nested
  obtain ⟨m, close⟩ := exists_closeAfter hb nested
  have inner := nested_take_of_closeAfter hb [] nested close
  have lt := closeAfter_lt close
  rw [whole] at found
  obtain ⟨-, n, same, rfl⟩ := (closeOffset?_eq_some_iff hb opens).1 found
  rw [closeAfter_append_of_some close, Option.some.injEq] at same
  subst same
  have size : rest.length + 1 ≤ s.size := by
    have := congrArg List.length cut
    rw [window, List.length_take, List.length_cons] at this
    omega
  refine ⟨by omega, [], ?_⟩
  rw [window, whole, List.drop_one, List.tail_cons, Nat.add_sub_cancel,
    List.take_append_of_le_length (Nat.le_of_lt lt)]
  exact inner

end

end Statement

open Statement

section Reading

variable {z z' : Nat} {source source' : Text} {s s' : Statement}

theorem Statement.Alike.cases (h : Alike z z' source source' s s') :
    (s.window = [] ∧ s'.window = []) ∨ ∃ t ts ts', 0 < s.size ∧ s.head? = some t ∧
      s.tokens = t :: ts ∧ s'.tokens = t.move z z' :: ts' := by
  cases cut : s.window with
  | nil =>
    refine Or.inl ⟨rfl, ?_⟩
    rw [h.window, cut]
    rfl
  | cons t rest =>
    have head : s.head? = some t := by
      rw [head?_eq, cut]
      rfl
    have positive := size_pos head
    have head' : s'.head? = some (t.move z z') := by
      rw [h.head?, head]
      rfl
    have first := head
    have first' := head'
    rw [Statement.head?, if_neg (Nat.ne_of_gt positive)] at first
    rw [Statement.head?, h.size, if_neg (Nat.ne_of_gt positive)] at first'
    obtain ⟨ts, tokens⟩ := List.head?_eq_some_iff.1 first
    obtain ⟨ts', tokens'⟩ := List.head?_eq_some_iff.1 first'
    exact Or.inr ⟨t, ts, ts', positive, head, tokens, tokens'⟩

theorem members_of_window_nil (allowUnsized : Bool) (words : List String) (empty : s.window = []) :
    members source allowUnsized words s.size s.tokens = pure [] := by
  obtain ⟨tokens, size⟩ := s
  cases size with
  | zero => rw [members]; simp
  | succ size =>
    cases tokens with
    | nil => rw [members]; simp
    | cons t ts => cases empty

theorem outcome_members (h : Alike z z' source source' s s') (closed : Closed s)
    (allowUnsized : Bool) (words : List String) :
    outcome (members source' allowUnsized words s'.size s'.tokens) =
      outcome (members source allowUnsized words s.size s.tokens) := by
  induction len : s.size using Nat.strongRecOn generalizing s s' words with
  | ind size ih =>
    rcases h.cases with ⟨empty, empty'⟩ | ⟨t, ts, ts', positive, head, tokens, tokens'⟩
    · rw [← len, members_of_window_nil _ _ empty, members_of_window_nil _ _ empty']
    · obtain ⟨m, rfl⟩ : ∃ m, size = m + 1 := ⟨size - 1, by omega⟩
      -- What is left behind `n` more tokens.
      have later (n : Nat) (words : List String) :
          outcome (members source' allowUnsized words (m - n) (ts'.drop n)) =
            outcome (members source allowUnsized words (m - n) (ts.drop n)) := by
        have shift : m - n = s.size - (n + 1) := by omega
        have cut : ts.drop n = s.tokens.drop (n + 1) := by rw [tokens, List.drop_succ_cons]
        have cut' : ts'.drop n = s'.tokens.drop (n + 1) := by rw [tokens', List.drop_succ_cons]
        have := ih (s.size - (n + 1)) (by omega) (h.drop (n + 1)) (closed.drop (n + 1)) words rfl
        rw [shift, cut, cut']
        rw [← h.size] at this ⊢
        exact this
      have next := later 0
      simp only [Nat.sub_zero, List.drop_zero] at next
      rw [h.size, len, tokens, tokens', members, members]
      by_cases directive : t.isDirective = true
      · rw [if_pos (show (t.move z z').isDirective = true from directive), if_pos directive, outcome_fatal, outcome_fatal]
      rw [if_neg (show ¬ (t.move z z').isDirective = true from directive), if_neg directive]
      by_cases identifier : t.isIdentifier = true
      · rw [if_pos (show (t.move z z').isIdentifier = true from identifier), if_pos identifier]
        exact next _
      rw [if_neg (show ¬ (t.move z z').isIdentifier = true from identifier), if_neg identifier]
      by_cases opens : t.isPunct '[' = true
      · rw [if_pos (show (t.move z z').isPunct '[' = true from opens), if_pos opens]
        have hb : square ∈ all := by decide
        have same : closeOffset? (t :: ts) = closeOffset? (t.move z z' :: ts') ∧
            (bracketed? source (t :: ts)).map Prod.fst =
              (bracketed? source' (t.move z z' :: ts')).map Prod.fst := by
          rcases h.closeOffset?_cases hb head opens with ⟨old, new⟩ | ⟨n, inside, old, new⟩ |
              ⟨n, n', outside, -, old, -⟩
          · rw [← tokens, ← tokens', old, new, bracketed?_eq_none old, bracketed?_eq_none new]
            exact ⟨rfl, rfl⟩
          · obtain ⟨last, -, -, -, text, text'⟩ := h.bracketed?_of_lt hb head opens inside old new
            rw [← tokens, ← tokens', old, new, text, text']
            exact ⟨rfl, rfl⟩
          · exact absurd (closed.of_first hb head opens old).1 (Nat.not_lt.2 outside)
        have lengths := outcome_arrayLength_congr same.2 allowUnsized
        rw [outcome_bind (steady_arrayLength _ _ _) fun _ =>
            (steady_members _ _ _ _ _).bind fun _ => steady_pure _,
          outcome_bind (steady_arrayLength _ _ _) fun _ =>
            (steady_members _ _ _ _ _).bind fun _ => steady_pure _, ← lengths, ← same.1]
        congr 1
        funext found
        rw [outcome_bind (steady_members _ _ _ _ _) fun _ => steady_pure _,
          outcome_bind (steady_members _ _ _ _ _) fun _ => steady_pure _, later]
      rw [if_neg (show ¬ (t.move z z').isPunct '[' = true from opens), if_neg opens]
      by_cases ends : t.isPunct ';' = true
      · rw [if_pos (show (t.move z z').isPunct ';' = true from ends), if_pos ends, outcome_bind (steady_members _ _ _ _ _) fun _ => steady_pure _,
          outcome_bind (steady_members _ _ _ _ _) fun _ => steady_pure _, next]
      · rw [if_neg (show ¬ (t.move z z').isPunct ';' = true from ends), if_neg ends]
        exact next _

end Reading

end ShaderPass.Declaration
