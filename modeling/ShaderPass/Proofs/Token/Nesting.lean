import Mathlib.Algebra.Ring.Int.Defs
import ShaderPass.Proofs.Token.Position

/-! Brackets that nest properly. A search for the close of a bracket counts one pair only; in front of
properly nested tokens it finds its close, and it passes over properly nested tokens without noticing
them, in either direction. -/
namespace ShaderPass

namespace Bracket

def all : List Bracket := [paren, square, brace]

theorem mem_all_iff {b : Bracket} : b ∈ all ↔ b = paren ∨ b = square ∨ b = brace := by
  simp [all]

/-- Whether a text closes the brackets of `stack`, innermost first, and nests its own brackets
properly. -/
def nested (stack : List Bracket) : Text → Bool
  | [] => stack.isEmpty
  | c :: t =>
    match all.find? fun b => b.opening = c with
    | some b => nested (b :: stack) t
    | none =>
      match all.find? fun b => b.closing = c with
      | some b => stack.head? = some b && nested stack.tail t
      | none => nested stack t

def isPlain (c : Char) : Bool :=
  all.all fun b => b.opening ≠ c && b.closing ≠ c

theorem nested_cons_of_isPlain {c : Char} (plain : isPlain c = true) (stack : List Bracket)
    (t : Text) : nested stack (c :: t) = nested stack t := by
  have no_opening : all.find? (fun b => decide (b.opening = c)) = none := by
    rw [List.find?_eq_none]
    intro b hb
    have := List.all_eq_true.1 plain b hb
    simp only [Bool.and_eq_true, decide_eq_true_eq] at this ⊢
    exact this.1
  have no_closing : all.find? (fun b => decide (b.closing = c)) = none := by
    rw [List.find?_eq_none]
    intro b hb
    have := List.all_eq_true.1 plain b hb
    simp only [Bool.and_eq_true, decide_eq_true_eq] at this ⊢
    exact this.2
  simp only [nested, no_opening, no_closing]

theorem nested_cons_opening {b : Bracket} (hb : b ∈ all) (stack : List Bracket) (t : Text) :
    nested stack (b.opening :: t) = nested (b :: stack) t := by
  rcases mem_all_iff.1 hb with rfl | rfl | rfl <;> rfl

theorem nested_cons_closing {b : Bracket} (hb : b ∈ all) (stack : List Bracket) (t : Text) :
    nested stack (b.closing :: t) = true ↔
      ∃ outer, stack = b :: outer ∧ nested outer t = true := by
  have found : all.find? (fun b' => decide (b'.opening = b.closing)) = none ∧
      all.find? (fun b' => decide (b'.closing = b.closing)) = some b := by
    rcases mem_all_iff.1 hb with rfl | rfl | rfl <;> exact ⟨rfl, rfl⟩
  simp only [nested, found.1, found.2]
  cases stack with
  | nil => simp
  | cons b' outer =>
    simp only [List.head?_cons, Option.some.injEq, List.tail_cons, Bool.and_eq_true,
      decide_eq_true_eq, List.cons.injEq]
    constructor
    · rintro ⟨rfl, h⟩
      exact ⟨outer, ⟨rfl, rfl⟩, h⟩
    · rintro ⟨_, ⟨rfl, rfl⟩, h⟩
      exact ⟨rfl, h⟩

theorem isPlain_or (c : Char) : isPlain c = true ∨ (∃ b ∈ all, c = b.opening) ∨
    ∃ b ∈ all, c = b.closing := by
  by_cases opens : ∃ b ∈ all, c = b.opening
  · exact Or.inr (Or.inl opens)
  by_cases closes : ∃ b ∈ all, c = b.closing
  · exact Or.inr (Or.inr closes)
  left
  rw [isPlain, List.all_eq_true]
  intro b hb
  simp only [Bool.and_eq_true, decide_eq_true_eq]
  exact ⟨fun h => opens ⟨b, hb, h.symm⟩, fun h => closes ⟨b, hb, h.symm⟩⟩

theorem nested_append_congr {t t' : Text} (same : ∀ stack, nested stack t = nested stack t')
    (stack : List Bracket) (s : Text) : nested stack (s ++ t) = nested stack (s ++ t') := by
  induction s generalizing stack with
  | nil => exact same stack
  | cons c s ih => simp only [List.cons_append, nested, ih]

theorem nested_append {s : Text} (inner : List Bracket) (h : nested inner s = true)
    (stack : List Bracket) (t : Text) : nested (inner ++ stack) (s ++ t) = nested stack t := by
  induction s generalizing inner with
  | nil => rw [List.isEmpty_iff.1 h, List.nil_append, List.nil_append]
  | cons c s ih =>
    rw [List.cons_append]
    rcases isPlain_or c with plain | ⟨b, hb, rfl⟩ | ⟨b, hb, rfl⟩
    · rw [nested_cons_of_isPlain plain] at h ⊢
      exact ih _ h
    · rw [nested_cons_opening hb] at h ⊢
      exact ih (b :: inner) h
    · obtain ⟨outer, rfl, rest⟩ := (nested_cons_closing hb _ _).1 h
      rw [← ih _ rest, Bool.eq_iff_iff, List.cons_append, nested_cons_closing hb]
      simp

end Bracket

namespace Token

def mark? (t : Token) : Option Char :=
  if t.kind = .punct then t.lexeme.head? else none

theorem isPunct_iff {t : Token} {c : Char} : t.isPunct c = true ↔ t.mark? = some c := by
  simp only [isPunct, mark?, Bool.and_eq_true, decide_eq_true_eq]
  split <;> simp [*]

theorem eq_of_isPunct {t : Token} {c d : Char} (punct : t.isPunct c = true) (punct' : t.isPunct d = true) :
    c = d :=
  Option.some.inj ((isPunct_iff.1 punct).symm.trans (isPunct_iff.1 punct'))

def marks (ts : List Token) : Text :=
  ts.filterMap mark?

theorem marks_append (ts us : List Token) : marks (ts ++ us) = marks ts ++ marks us :=
  List.filterMap_append

theorem marks_cons_of_none {t : Token} (h : t.mark? = none) (ts : List Token) :
    marks (t :: ts) = marks ts := by
  simp [marks, h]

theorem marks_cons_of_some {t : Token} {c : Char} (h : t.mark? = some c) (ts : List Token) :
    marks (t :: ts) = c :: marks ts := by
  simp [marks, h]

end Token

namespace Bracket

open Token

def weight (b : Bracket) (t : Token) : Int :=
  if t.isPunct b.opening then 1 else if t.isPunct b.closing then -1 else 0

theorem neg_one_le_weight (b : Bracket) (t : Token) : -1 ≤ b.weight t := by
  unfold weight
  split
  · decide
  · split <;> decide

def depth (b : Bracket) (ts : List Token) : Int :=
  (ts.map b.weight).sum

@[simp] theorem depth_nil (b : Bracket) : b.depth [] = 0 := rfl

@[simp] theorem depth_cons (b : Bracket) (t : Token) (ts : List Token) :
    b.depth (t :: ts) = b.weight t + b.depth ts := by
  simp [depth]

@[simp] theorem depth_append (b : Bracket) (ts us : List Token) :
    b.depth (ts ++ us) = b.depth ts + b.depth us := by
  simp [depth]

theorem closeAfter_cons {b : Bracket} {d : Nat} (positive : 1 ≤ d) (t : Token) (ts : List Token) :
    closeAfter b d (t :: ts) =
      if d + b.weight t = 0 then some 0 else (closeAfter b (d + b.weight t).toNat ts).map (· + 1) := by
  rw [closeAfter, weight]
  split
  · rw [if_neg (by omega)]
    rfl
  · split
    · by_cases last : d = 1
      · simp [last]
      · rw [if_neg last, if_neg (by omega)]
        congr 2
        omega
    · rw [if_neg (by omega)]
      simp

theorem closeAfter_append_of_pos {b : Bracket} {ts : List Token} {d : Nat}
    (positive : ∀ us, us <+: ts → 1 ≤ d + b.depth us) (later : List Token) :
    closeAfter b d (ts ++ later) =
      (closeAfter b (d + b.depth ts).toNat later).map (· + ts.length) := by
  induction ts generalizing d with
  | nil => simp
  | cons t ts ih =>
    have here := positive [] List.nil_prefix
    have next := positive [t] (by simp)
    simp only [depth_nil, depth_cons] at here next
    rw [List.cons_append, closeAfter_cons (by omega), if_neg (by omega), ih]
    · rw [Option.map_map, depth_cons, List.length_cons, Int.toNat_of_nonneg (by omega),
        Int.add_assoc]
      rfl
    · intro us hus
      have := positive (t :: us) ((List.prefix_cons_inj t).2 hus)
      rw [depth_cons] at this
      omega

theorem closeAfter_append_of_some {b : Bracket} {ts : List Token} {d n : Nat}
    (found : closeAfter b d ts = some n) (later : List Token) :
    closeAfter b d (ts ++ later) = some n := by
  induction ts generalizing d n with
  | nil => simp [closeAfter] at found
  | cons t ts ih =>
    rw [List.cons_append, closeAfter]
    rw [closeAfter] at found
    split at found
    · obtain ⟨m, hm, rfl⟩ := Option.map_eq_some_iff.1 found
      rw [if_pos ‹_›, ih hm]
      rfl
    · rename_i no_opening
      rw [if_neg no_opening]
      split at found
      · rename_i closes
        rw [if_pos closes]
        split at found
        · rw [if_pos ‹_›, found]
        · obtain ⟨m, hm, rfl⟩ := Option.map_eq_some_iff.1 found
          rw [if_neg ‹_›, ih hm]
          rfl
      · obtain ⟨m, hm, rfl⟩ := Option.map_eq_some_iff.1 found
        rw [if_neg ‹_›, ih hm]
        rfl

theorem exists_of_closeAfter {b : Bracket} {d n : Nat} {ts : List Token}
    (found : closeAfter b d ts = some n) : ∃ t, ts[n]? = some t ∧ t.isPunct b.closing = true := by
  induction ts generalizing d n with
  | nil => simp [closeAfter] at found
  | cons t ts ih =>
    rw [closeAfter] at found
    split at found
    · obtain ⟨m, hm, rfl⟩ := Option.map_eq_some_iff.1 found
      exact ih hm
    · split at found
      · split at found
        · obtain rfl := Option.some.inj found
          exact ⟨t, rfl, ‹_›⟩
        · obtain ⟨m, hm, rfl⟩ := Option.map_eq_some_iff.1 found
          exact ih hm
      · obtain ⟨m, hm, rfl⟩ := Option.map_eq_some_iff.1 found
        exact ih hm

theorem closeAfter_lt {b : Bracket} {d n : Nat} {ts : List Token}
    (found : closeAfter b d ts = some n) : n < ts.length := by
  obtain ⟨t, at_n, -⟩ := exists_of_closeAfter found
  exact (List.getElem?_eq_some_iff.1 at_n).1

theorem pos_of_closeAfter_eq_none {b : Bracket} {ts : List Token} {d : Nat} (positive : 1 ≤ d)
    (open_still : closeAfter b d ts = none) : ∀ us, us <+: ts → 1 ≤ d + b.depth us := by
  induction ts generalizing d with
  | nil =>
    intro us hus
    rw [List.prefix_nil.1 hus, depth_nil]
    omega
  | cons t ts ih =>
    intro us hus
    rw [closeAfter_cons positive] at open_still
    split at open_still
    · cases open_still
    · rename_i deep
      cases us with
      | nil =>
        rw [depth_nil]
        omega
      | cons u us =>
        obtain ⟨rfl, rest⟩ := List.cons_prefix_cons.1 hus
        have bound := neg_one_le_weight b u
        have := ih (by omega) (Option.map_eq_none_iff.1 open_still) us rest
        rw [depth_cons]
        omega

structure Level (b : Bracket) (ts : List Token) : Prop where
  total : b.depth ts = 0
  front : ∀ us, us <+: ts → 0 ≤ b.depth us

theorem Level.closeAfter_append {b : Bracket} {ts : List Token} (h : b.Level ts) {d : Nat}
    (positive : 1 ≤ d) (later : List Token) :
    closeAfter b d (ts ++ later) = (closeAfter b d later).map (· + ts.length) := by
  rw [closeAfter_append_of_pos, h.total]
  · simp
  · intro us hus
    have := h.front us hus
    omega

def flip (b : Bracket) : Bracket := ⟨b.closing, b.opening⟩

theorem weight_flip {b : Bracket} (apart : b.opening ≠ b.closing) (t : Token) :
    b.flip.weight t = -b.weight t := by
  simp only [weight, flip, isPunct_iff]
  by_cases opens : t.mark? = some b.opening
  · simp [opens, apart]
  · by_cases closes : t.mark? = some b.closing <;> simp [opens, closes, apart.symm]

theorem depth_flip {b : Bracket} (apart : b.opening ≠ b.closing) (ts : List Token) :
    b.flip.depth ts = -b.depth ts := by
  induction ts with
  | nil => rfl
  | cons t ts ih =>
    rw [depth_cons, depth_cons, ih, weight_flip apart]
    omega

theorem depth_reverse (b : Bracket) (ts : List Token) : b.depth ts.reverse = b.depth ts := by
  simp [depth, List.sum_reverse]

theorem Level.reverse {b : Bracket} (apart : b.opening ≠ b.closing) {ts : List Token}
    (h : b.Level ts) : b.flip.Level ts.reverse := by
  constructor
  · rw [depth_flip apart, depth_reverse, h.total]
    rfl
  · rintro us ⟨vs, cut⟩
    have whole : ts = vs.reverse ++ us.reverse := by
      rw [← List.reverse_append, cut, List.reverse_reverse]
    have front := h.front vs.reverse (whole ▸ List.prefix_append _ _)
    have total := h.total
    rw [whole, depth_append, depth_reverse, depth_reverse] at total
    rw [depth_reverse] at front
    rw [depth_flip apart]
    omega

theorem distinct : ∀ b ∈ all, ∀ b' ∈ all, (b'.opening = b.opening ↔ b' = b) ∧
    (b'.closing = b.closing ↔ b' = b) ∧ b'.opening ≠ b.closing ∧ b'.closing ≠ b.opening := by
  decide

/-- What a token does to the open brackets: nothing, or it opens a bracket, or it closes the innermost
one. -/
theorem nested_marks_cases (t : Token) :
    ((∀ stack us, nested stack (marks (t :: us)) = nested stack (marks us)) ∧
      ∀ b ∈ all, b.weight t = 0) ∨
    (∃ b' ∈ all, (∀ stack us, nested stack (marks (t :: us)) = nested (b' :: stack) (marks us)) ∧
      ∀ b ∈ all, b.weight t = if b' = b then 1 else 0) ∨
    (∃ b' ∈ all, (∀ stack us, nested stack (marks (t :: us)) = true ↔
        ∃ outer, stack = b' :: outer ∧ nested outer (marks us) = true) ∧
      ∀ b ∈ all, b.weight t = if b' = b then -1 else 0) := by
  cases mark : t.mark? with
  | none =>
    exact Or.inl ⟨fun stack us => by rw [marks_cons_of_none mark],
      fun b _ => by simp [weight, isPunct_iff, mark]⟩
  | some c =>
    have read (us : List Token) : marks (t :: us) = c :: marks us := marks_cons_of_some mark us
    rcases isPlain_or c with plain | ⟨b', hb', rfl⟩ | ⟨b', hb', rfl⟩
    · refine Or.inl ⟨fun stack us => by rw [read, nested_cons_of_isPlain plain], fun b hb => ?_⟩
      have := List.all_eq_true.1 plain b hb
      simp only [Bool.and_eq_true, decide_eq_true_eq] at this
      simp [weight, isPunct_iff, mark, this.1.symm, this.2.symm]
    · refine Or.inr (Or.inl ⟨b', hb', fun stack us => by rw [read, nested_cons_opening hb'],
        fun b hb => ?_⟩)
      obtain ⟨same, -, other, -⟩ := distinct b hb b' hb'
      simp [weight, isPunct_iff, mark, same, other]
    · refine Or.inr (Or.inr ⟨b', hb', fun stack us => by rw [read, nested_cons_closing hb'],
        fun b hb => ?_⟩)
      obtain ⟨-, same, -, other⟩ := distinct b hb b' hb'
      simp [weight, isPunct_iff, mark, same, other]

theorem nested_marks_cons {stack : List Bracket} {t : Token} {ts : List Token}
    (h : nested stack (marks (t :: ts)) = true) :
    ∃ stack', nested stack' (marks ts) = true ∧
      ∀ b ∈ all, (stack'.count b : Int) = stack.count b + b.weight t := by
  rcases nested_marks_cases t with ⟨read, weight⟩ | ⟨b', -, read, weight⟩ | ⟨b', -, read, weight⟩
  · rw [read] at h
    exact ⟨stack, h, fun b hb => by rw [weight b hb, Int.add_zero]⟩
  · rw [read] at h
    refine ⟨b' :: stack, h, fun b hb => ?_⟩
    rw [weight b hb, List.count_cons]
    simp only [beq_iff_eq]
    split <;> omega
  · obtain ⟨outer, rfl, rest⟩ := (read _ _).1 h
    refine ⟨outer, rest, fun b hb => ?_⟩
    rw [weight b hb, List.count_cons]
    simp only [beq_iff_eq]
    split <;> omega

theorem depth_of_nested {b : Bracket} (hb : b ∈ all) {stack : List Bracket} {ts : List Token}
    (h : nested stack (marks ts) = true) :
    b.depth ts = -(stack.count b : Int) ∧ ∀ us, us <+: ts → 0 ≤ b.depth us + stack.count b := by
  induction ts generalizing stack with
  | nil =>
    have empty : stack = [] := List.isEmpty_iff.1 h
    subst empty
    refine ⟨rfl, fun us hus => ?_⟩
    rw [List.prefix_nil.1 hus]
    simp
  | cons t ts ih =>
    obtain ⟨stack', rest, count⟩ := nested_marks_cons h
    have count := count b hb
    obtain ⟨total, front⟩ := ih rest
    constructor
    · rw [depth_cons]
      omega
    · intro us hus
      cases us with
      | nil =>
        rw [depth_nil]
        omega
      | cons u us =>
        obtain ⟨rfl, inner⟩ := List.cons_prefix_cons.1 hus
        have := front us inner
        rw [depth_cons]
        omega

theorem level_of_nested {b : Bracket} (hb : b ∈ all) {ts : List Token}
    (h : nested [] (marks ts) = true) : b.Level ts := by
  obtain ⟨total, front⟩ := depth_of_nested hb h
  exact ⟨by simpa using total, fun us hus => by simpa using front us hus⟩

theorem exists_closeAfter {b : Bracket} (hb : b ∈ all) {stack : List Bracket} {ts : List Token}
    (h : nested (b :: stack) (marks ts) = true) : ∃ n, closeAfter b 1 ts = some n := by
  rw [← Option.ne_none_iff_exists']
  intro open_still
  have deep := pos_of_closeAfter_eq_none (Nat.le_refl 1) open_still ts (List.prefix_refl ts)
  have total := (depth_of_nested hb h).1
  rw [List.count_cons_self] at total
  omega

theorem exists_nested_of_append {stack : List Bracket} {s t : Text}
    (h : nested stack (s ++ t) = true) : ∃ stack', nested stack' t = true := by
  induction s generalizing stack with
  | nil => exact ⟨stack, h⟩
  | cons c s ih =>
    rw [List.cons_append] at h
    rcases isPlain_or c with plain | ⟨b, hb, rfl⟩ | ⟨b, hb, rfl⟩
    · rw [nested_cons_of_isPlain plain] at h
      exact ih h
    · rw [nested_cons_opening hb] at h
      exact ih h
    · obtain ⟨outer, -, rest⟩ := (nested_cons_closing hb _ _).1 h
      exact ih rest

theorem nested_take_of_closeAfter {b : Bracket} (hb : b ∈ all) (inner : List Bracket)
    {outer : List Bracket} {ts : List Token} {n : Nat} (h : nested (inner ++ b :: outer) (marks ts) = true)
    (found : closeAfter b (inner.count b + 1) ts = some n) :
    nested inner (marks (ts.take n)) = true := by
  induction ts generalizing inner n with
  | nil => simp [closeAfter] at found
  | cons t ts ih =>
    rw [closeAfter_cons (by omega)] at found
    -- The depth counts the open brackets of the pair, so `found` speaks about the new stack.
    have step (inner' : List Bracket)
        (count : (inner'.count b : Int) = inner.count b + b.weight t)
        (rest : nested (inner' ++ b :: outer) (marks ts) = true)
        (read : ∀ us, nested inner (marks (t :: us)) = nested inner' (marks us)) :
        nested inner (marks ((t :: ts).take n)) = true := by
      rw [if_neg (by omega)] at found
      obtain ⟨m, hm, rfl⟩ := Option.map_eq_some_iff.1 found
      have depth : (((inner.count b + 1 : Nat) : Int) + b.weight t).toNat = inner'.count b + 1 := by
        omega
      rw [depth] at hm
      rw [List.take_succ_cons, read]
      exact ih inner' rest hm
    rcases nested_marks_cases t with ⟨read, weight⟩ | ⟨b', -, read, weight⟩ | ⟨b', -, read, weight⟩
    · rw [read] at h
      exact step inner (by rw [weight b hb, Int.add_zero]) h (read inner)
    · rw [read] at h
      refine step (b' :: inner) ?_ h (read inner)
      rw [weight b hb, List.count_cons]
      simp only [beq_iff_eq]
      split <;> omega
    · obtain ⟨rest_stack, stack_eq, rest⟩ := (read _ _).1 h
      cases inner with
      | nil =>
        -- The token closes the bracket itself.
        obtain ⟨rfl, -⟩ := List.cons.inj stack_eq
        rw [weight b hb, if_pos rfl, List.count_nil, if_pos (by rfl)] at found
        obtain rfl := Option.some.inj found
        rfl
      | cons b'' inner =>
        obtain ⟨rfl, rfl⟩ := List.cons.inj stack_eq
        refine step inner ?_ rest fun us => ?_
        · rw [weight b hb, List.count_cons]
          simp only [beq_iff_eq]
          split <;> omega
        · rw [Bool.eq_iff_iff, read]
          simp

theorem nested_drop_of_closeAfter {b : Bracket} (hb : b ∈ all) {outer : List Bracket}
    {ts : List Token} {n : Nat} (h : nested (b :: outer) (marks ts) = true)
    (found : closeAfter b 1 ts = some n) : nested outer (marks (ts.drop (n + 1))) = true := by
  have inner := nested_take_of_closeAfter hb [] h found
  obtain ⟨close, at_n, closes⟩ := exists_of_closeAfter found
  obtain ⟨lt, rfl⟩ := List.getElem?_eq_some_iff.1 at_n
  rw [← List.take_append_drop n ts, marks_append, ← List.nil_append (b :: outer),
    nested_append [] inner, List.drop_eq_getElem_cons lt,
    marks_cons_of_some (isPunct_iff.1 closes), nested_cons_closing hb] at h
  obtain ⟨outer', same, rest⟩ := h
  rwa [(List.cons.inj same).2]

end Bracket
end ShaderPass
