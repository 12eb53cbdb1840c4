import ShaderPass.Proofs.Token.Nesting

/-! Tokens at other places: moving tokens changes no decision that looks at kinds and lexemes, and
tokens between matching brackets can be exchanged for others without a search for a close noticing. -/
namespace ShaderPass

namespace Token

def move (z z' : Nat) (t : Token) : Token :=
  { t with start := t.start - z + z' }

section Move

variable (z z' : Nat) (t : Token)

@[simp] theorem move_kind : (t.move z z').kind = t.kind := rfl

@[simp] theorem move_lexeme : (t.move z z').lexeme = t.lexeme := rfl

@[simp] theorem move_name : (t.move z z').name = t.name := rfl

@[simp] theorem move_isDirective : (t.move z z').isDirective = t.isDirective := rfl

@[simp] theorem move_isIdentifier : (t.move z z').isIdentifier = t.isIdentifier := rfl

@[simp] theorem move_isPunct (c : Char) : (t.move z z').isPunct c = t.isPunct c := rfl

@[simp] theorem move_start : (t.move z z').start = t.start - z + z' := rfl

theorem move_stop {z : Nat} (z' : Nat) {t : Token} (h : z ≤ t.start) :
    (t.move z z').stop = t.stop - z + z' := by
  simp only [stop, move_start, move_lexeme]
  omega

end Move

theorem marks_map_move (z z' : Nat) (ts : List Token) : marks (ts.map (move z z')) = marks ts := by
  rw [marks, List.filterMap_map]
  rfl

theorem place_append (n : Nat) (ps qs : List (TokenKind × Text)) :
    place n (ps ++ qs) = place n ps ++ place (n + Text.byteLen (ps.map Prod.snd).flatten) qs := by
  induction ps generalizing n with
  | nil => rfl
  | cons p ps ih =>
    rw [List.cons_append, place, place, ih, List.map_cons, List.flatten_cons, Text.byteLen_append,
      List.cons_append, Nat.add_assoc]

theorem place_eq_map_move (z z' : Nat) (ps : List (TokenKind × Text)) :
    place z' ps = (place z ps).map (move z z') := by
  have general : ∀ n, place (z' + n) ps = (place (z + n) ps).map (move z z') := by
    induction ps with
    | nil => intro n; rfl
    | cons p ps ih =>
      intro n
      have first : z + n - z + z' = z' + n := by omega
      rw [place, place, List.map_cons, Nat.add_assoc, Nat.add_assoc, ih]
      simp only [move, first]
  exact general 0

end Token

namespace Bracket

theorem closeAfter_map (f : Token → Token) (same : ∀ t c, (f t).isPunct c = t.isPunct c)
    (b : Bracket) (d : Nat) (ts : List Token) : closeAfter b d (ts.map f) = closeAfter b d ts := by
  induction ts generalizing d with
  | nil => rfl
  | cons t ts ih => simp only [List.map_cons, closeAfter, same, ih]

theorem closeOffset?_map_move (z z' : Nat) (ts : List Token) :
    closeOffset? (ts.map (Token.move z z')) = closeOffset? ts := by
  cases ts with
  | nil => rfl
  | cons t ts =>
    show (ofOpening? t.lexeme).bind _ = (ofOpening? t.lexeme).bind _
    congr
    funext b
    exact closeAfter_map (Token.move z z') (fun _ _ => rfl) b 0 (t :: ts)

theorem closeOffset?_cons {b : Bracket} (hb : b ∈ all) {t : Token}
    (opens : t.isPunct b.opening = true) (ts : List Token) : closeOffset? (t :: ts) =
      if t.lexeme = [b.opening] then (closeAfter b 1 ts).map (· + 1) else none := by
  show (ofOpening? t.lexeme).bind (fun b => closeAfter b 0 (t :: ts)) = _
  split
  · rename_i lexeme
    have found : ofOpening? [b.opening] = some b := by
      rcases mem_all_iff.1 hb with rfl | rfl | rfl <;> rfl
    rw [lexeme, found, Option.bind_some, closeAfter, if_pos opens]
  · rename_i other
    have none : ofOpening? t.lexeme = none := by
      rw [ofOpening?, List.find?_eq_none]
      intro b' hb' same
      rw [decide_eq_true_eq] at same
      rw [Token.isPunct_iff, Token.mark?] at opens
      split at opens
      · rw [same, List.head?_cons, Option.some.injEq] at opens
        exact other (opens ▸ same)
      · cases opens
    rw [none]
    rfl

theorem closeOffset?_eq_some_iff {b : Bracket} (hb : b ∈ all) {t : Token}
    (opens : t.isPunct b.opening = true) {ts : List Token} {n : Nat} :
    closeOffset? (t :: ts) = some n ↔
      t.lexeme = [b.opening] ∧ ∃ m, closeAfter b 1 ts = some m ∧ n = m + 1 := by
  rw [closeOffset?_cons hb opens]
  split
  · rename_i lexeme
    rw [Option.map_eq_some_iff, and_iff_right lexeme]
    exact exists_congr fun m => and_congr_right' eq_comm
  · rename_i other
    exact iff_of_false nofun fun found => other found.1

theorem closeAfter_append_cases (b : Bracket) {d : Nat} (positive : 1 ≤ d) (ts : List Token) :
    (∃ n, n < ts.length ∧ ∀ later, closeAfter b d (ts ++ later) = some n) ∨
      ∃ e, 1 ≤ e ∧
        ∀ later, closeAfter b d (ts ++ later) = (closeAfter b e later).map (· + ts.length) := by
  cases found : closeAfter b d ts with
  | some n => exact Or.inl ⟨n, closeAfter_lt found, closeAfter_append_of_some found⟩
  | none =>
    have deep := pos_of_closeAfter_eq_none positive found
    have := deep ts (List.prefix_refl ts)
    exact Or.inr ⟨(d + b.depth ts).toNat, by omega, closeAfter_append_of_pos deep⟩

structure Group (ts : List Token) : Prop where
  level : ∀ b ∈ all, b.Level ts
  flat : ∀ t ∈ ts, t.isDirective = false ∧ t.isPunct ';' = false ∧ t.isPunct '\x7b' = false

theorem group_nil : Group [] :=
  ⟨fun _ _ => ⟨rfl, fun us hus => by rw [List.prefix_nil.1 hus]; exact Int.le_refl 0⟩, by simp⟩

theorem Group.closeAfter_append {ts : List Token} (h : Group ts) {b : Bracket} (hb : b ∈ all)
    {d : Nat} (positive : 1 ≤ d) (later : List Token) :
    closeAfter b d (ts ++ later) = (closeAfter b d later).map (· + ts.length) :=
  (h.level b hb).closeAfter_append positive later

theorem Group.closeAfter_reverse_append {ts : List Token} (h : Group ts) {b : Bracket}
    (hb : b ∈ all) {d : Nat} (positive : 1 ≤ d) (later : List Token) :
    closeAfter b.flip d (ts.reverse ++ later) = (closeAfter b.flip d later).map (· + ts.length) := by
  have apart : b.opening ≠ b.closing := (distinct b hb b hb).2.2.1
  have := ((h.level b hb).reverse apart).closeAfter_append positive later
  rwa [List.length_reverse] at this

end Bracket
end ShaderPass
