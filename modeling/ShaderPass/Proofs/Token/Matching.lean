import ShaderPass.Proofs.Token.Partition
import ShaderPass.Proofs.Token.Relocation

/-! The close of a bracket is where the brackets of its pair balance for the first time. Brackets of one
pair therefore nest, whatever brackets of other pairs do in between. -/
namespace ShaderPass.Bracket

open Token

section Search

variable {b : Bracket} {ts : List Token} {d n : Nat}

/-- The search for a close with a depth that cannot fall below zero: there it gives up. -/
def checkedClose (b : Bracket) (depth : Nat) : List Token → Option (Option Nat)
  | [] => some none
  | t :: ts =>
    if t.isPunct b.opening then (checkedClose b (depth + 1) ts).map (Option.map (· + 1))
    else if t.isPunct b.closing then
      if depth = 0 then none
      else if depth = 1 then some (some 0)
      else (checkedClose b (depth - 1) ts).map (Option.map (· + 1))
    else (checkedClose b depth ts).map (Option.map (· + 1))

theorem checkedClose_of_pos (positive : 1 ≤ d) (ts : List Token) :
    checkedClose b d ts = some (closeAfter b d ts) := by
  induction ts generalizing d with
  | nil => rfl
  | cons t ts ih =>
    rw [checkedClose, closeAfter]
    split
    · rw [ih (Nat.le_add_left 1 d), Option.map_some]
    · split
      · rw [if_neg (Nat.ne_of_gt positive)]
        split
        · rfl
        · rw [ih (by omega), Option.map_some]
      · rw [ih positive, Option.map_some]

theorem checkedClose_zero {t : Token} (opens : t.isPunct b.opening = true) (ts : List Token) :
    checkedClose b 0 (t :: ts) = some (closeAfter b 0 (t :: ts)) := by
  rw [checkedClose, closeAfter, if_pos opens, if_pos opens, checkedClose_of_pos (Nat.le_refl 1),
    Option.map_some]

theorem closeAfter_eq_some_iff (positive : 1 ≤ d) : closeAfter b d ts = some n ↔
    n < ts.length ∧ d + b.depth (ts.take (n + 1)) = 0 ∧
      ∀ m < n, d + b.depth (ts.take (m + 1)) ≠ 0 := by
  induction ts generalizing d n with
  | nil => simp [closeAfter]
  | cons t ts ih =>
    have bound := neg_one_le_weight b t
    have first : d + b.depth ((t :: ts).take 1) = d + b.weight t := by simp
    rw [closeAfter_cons positive]
    split
    · rename_i closes
      constructor
      · intro found
        obtain rfl := Option.some.inj found
        exact ⟨Nat.zero_lt_succ _, first.trans closes, fun m small => absurd small (Nat.not_lt_zero m)⟩
      · rintro ⟨-, -, least⟩
        cases n with
        | zero => rfl
        | succ n => exact absurd (first.trans closes) (least 0 (Nat.zero_lt_succ n))
    · rename_i deep
      have depth : ((d + b.weight t).toNat : Int) = d + b.weight t := Int.toNat_of_nonneg (by omega)
      have later (m : Nat) : d + b.depth ((t :: ts).take (m + 2)) =
          (d + b.weight t).toNat + b.depth (ts.take (m + 1)) := by
        rw [List.take_succ_cons, depth_cons, depth, Int.add_assoc]
      cases n with
      | zero =>
        refine iff_of_false (by simp) ?_
        rintro ⟨-, closes, -⟩
        exact deep (first.symm.trans closes)
      | succ n =>
        rw [Option.map_eq_some_iff]
        simp only [Nat.add_right_cancel_iff, exists_eq_right]
        rw [ih (by omega), later, List.length_cons, Nat.add_lt_add_iff_right]
        refine and_congr_right fun _ => and_congr_right fun _ => ?_
        constructor
        · intro least m small
          cases m with
          | zero => rwa [first]
          | succ m => rw [later]; exact least m (by omega)
        · intro least m small
          rw [← later]
          exact least (m + 1) (by omega)

theorem pos_of_closeAfter (positive : 1 ≤ d) (found : closeAfter b d ts = some n) {m : Nat}
    (le : m ≤ n) : 1 ≤ d + b.depth (ts.take m) := by
  have least := ((closeAfter_eq_some_iff positive).1 found).2.2
  have open_still : closeAfter b d (ts.take n) = none := by
    cases inner : closeAfter b d (ts.take n) with
    | none => rfl
    | some l =>
      obtain ⟨small, closes, -⟩ := (closeAfter_eq_some_iff positive).1 inner
      have before : l < n := Nat.lt_of_lt_of_le small (List.length_take_le n ts)
      rw [List.take_take, Nat.min_eq_left before] at closes
      exact absurd closes (least l before)
  exact pos_of_closeAfter_eq_none positive open_still _ (List.take_prefix_take_left le)

theorem closeAfter_drop (positive : 1 ≤ d) (found : closeAfter b d ts = some n) {p : Nat} (le : p ≤ n) :
    closeAfter b (d + b.depth (ts.take p)).toNat (ts.drop p) = some (n - p) := by
  have front : ∀ us, us <+: ts.take p → 1 ≤ d + b.depth us := by
    intro us inside
    have short := inside.length_le
    rw [List.length_take] at short
    rw [List.prefix_iff_eq_take.1 inside, List.take_take, Nat.min_eq_left (by omega)]
    exact pos_of_closeAfter positive found (by omega)
  have passed := closeAfter_append_of_pos front (ts.drop p)
  rw [List.take_append_drop, found, List.length_take_of_le (by have := closeAfter_lt found; omega)] at passed
  obtain ⟨l, later, rfl⟩ := Option.map_eq_some_iff.1 passed.symm
  rw [later, Nat.add_sub_cancel]

theorem exists_closeAfter_lt (deeper : 1 ≤ d) (found : closeAfter b (d + 1) ts = some n) :
    ∃ l < n, closeAfter b 1 ts = some l := by
  obtain ⟨-, closes, -⟩ := (closeAfter_eq_some_iff (Nat.le_add_left 1 d)).1 found
  cases inner : closeAfter b 1 ts with
  | none =>
    have := pos_of_closeAfter_eq_none (Nat.le_refl 1) inner _ (List.take_prefix (n + 1) ts)
    omega
  | some l =>
    refine ⟨l, Nat.lt_of_not_le fun later => ?_, rfl⟩
    rcases Nat.eq_or_lt_of_le later with rfl | later
    · have := ((closeAfter_eq_some_iff (Nat.le_refl 1)).1 inner).2.1
      omega
    · have := pos_of_closeAfter (Nat.le_refl 1) inner (show n + 1 ≤ l from later)
      omega

end Search

section Pairs

variable {b : Bracket} {ts : List Token} {i j k : Nat}

def OpensAt (b : Bracket) (ts : List Token) (i : Nat) : Prop :=
  ∃ t, ts[i]? = some t ∧ t.isPunct b.opening = true

/-- Whether as many brackets of a pair close as open among the tokens from one index to another, both
included. -/
def Balanced (b : Bracket) (ts : List Token) (i j : Nat) : Prop :=
  ((ts.drop i).take (j + 1 - i)).countP (isPunct b.closing) =
    ((ts.drop i).take (j + 1 - i)).countP (isPunct b.opening)

def Punctuated (ts : List Token) : Prop :=
  ∀ t ∈ ts, ∀ b ∈ all, t.lexeme = [b.opening] ↔ t.isPunct b.opening = true

/-- Brackets with their closes. Those of one pair nest or stand apart, and no close belongs to two of them. -/
structure Nests (ts : List Token) : Prop where
  /-- A bracket is closed where its pair balances first. -/
  close_iff : ∀ i j, matchingClose? ts i = some j ↔ ∃ b ∈ all, b.OpensAt ts i ∧
    i < j ∧ j < ts.length ∧ b.Balanced ts i j ∧ ∀ m, i < m → m < j → ¬ b.Balanced ts i m
  /-- The depth that is counted never has to fall below zero. -/
  checked : ∀ b ∈ all, ∀ i, b.OpensAt ts i →
    checkedClose b 0 (ts.drop i) = some (closeAfter b 0 (ts.drop i))
  /-- A bracket in front of the close of another is closed in front of it, too. -/
  inner : ∀ b ∈ all, ∀ i k j, b.OpensAt ts i → b.OpensAt ts k → i < k →
    matchingClose? ts i = some j → k < j → ∃ l, matchingClose? ts k = some l ∧ l < j
  apart : ∀ b ∈ all, ∀ i k j l, b.OpensAt ts i → b.OpensAt ts k → i < k →
    matchingClose? ts i = some j → matchingClose? ts k = some l → j < k ∨ l < j
  once : ∀ i k j, matchingClose? ts i = some j → matchingClose? ts k = some j → i = k

theorem depth_eq_countP (hb : b ∈ all) (ts : List Token) :
    b.depth ts = ts.countP (isPunct b.opening) - ts.countP (isPunct b.closing) := by
  have apart : b.opening ≠ b.closing := (distinct b hb b hb).2.2.1
  induction ts with
  | nil => rfl
  | cons t ts ih =>
    rw [depth_cons, ih, List.countP_cons, List.countP_cons, weight]
    by_cases opens : t.isPunct b.opening = true
    · have no_close : t.isPunct b.closing = false :=
        Bool.eq_false_iff.2 fun closes => apart (eq_of_isPunct opens closes)
      rw [if_pos opens, if_pos opens, no_close]
      simp
      omega
    · by_cases closes : t.isPunct b.closing = true
      · rw [if_neg opens, if_neg opens, if_pos closes, if_pos closes]
        omega
      · rw [if_neg opens, if_neg opens, if_neg closes, if_neg closes]
        omega

theorem drop_of_opensAt (opens : b.OpensAt ts i) :
    ∃ t, t.isPunct b.opening = true ∧ t ∈ ts ∧ ts.drop i = t :: ts.drop (i + 1) := by
  obtain ⟨t, at_i, opens⟩ := opens
  obtain ⟨lt, rfl⟩ := List.getElem?_eq_some_iff.1 at_i
  exact ⟨ts[i], opens, List.getElem_mem lt, List.drop_eq_getElem_cons lt⟩

theorem balanced_iff (hb : b ∈ all) (opens : b.OpensAt ts i) (n : Nat) :
    b.Balanced ts i (n + (i + 1)) ↔ 1 + b.depth ((ts.drop (i + 1)).take (n + 1)) = 0 := by
  obtain ⟨t, opens, -, cut⟩ := drop_of_opensAt opens
  have length : n + (i + 1) + 1 - i = (n + 1) + 1 := by omega
  have total := depth_eq_countP hb (t :: (ts.drop (i + 1)).take (n + 1))
  have weight_eq : b.weight t = 1 := if_pos opens
  rw [depth_cons, weight_eq] at total
  rw [Balanced, length, cut, List.take_succ_cons, total]
  omega

theorem matchingClose?_of_opensAt (hb : b ∈ all) (punctuated : Punctuated ts) (opens : b.OpensAt ts i) :
    matchingClose? ts i = (closeAfter b 1 (ts.drop (i + 1))).map (· + (i + 1)) := by
  obtain ⟨t, opens, member, cut⟩ := drop_of_opensAt opens
  rw [matchingClose?, cut, closeOffset?_cons hb opens, if_pos ((punctuated t member b hb).2 opens),
    Option.map_map]
  congr 1
  funext n
  show n + 1 + i = n + (i + 1)
  omega

theorem exists_opensAt (punctuated : Punctuated ts) (found : matchingClose? ts i = some j) :
    ∃ b ∈ all, b.OpensAt ts i := by
  rw [matchingClose?] at found
  cases cut : ts.drop i with
  | nil => simp [cut, closeOffset?] at found
  | cons t rest =>
    obtain ⟨n, offset, -⟩ := Option.map_eq_some_iff.1 found
    rw [cut] at offset
    obtain ⟨b, opening, -⟩ := Option.bind_eq_some_iff.1 offset
    have at_i : ts[i]? = some t := by
      rw [← List.head?_drop, cut]
      rfl
    have lexeme : t.lexeme = [b.opening] := by simpa using List.find?_some opening
    have hb : b ∈ all := List.mem_of_find?_eq_some opening
    exact ⟨b, hb, t, at_i, (punctuated t (List.mem_of_getElem? at_i) b hb).1 lexeme⟩

theorem isPunct_of_matchingClose? (hb : b ∈ all) (punctuated : Punctuated ts) (opens : b.OpensAt ts i)
    (found : matchingClose? ts i = some j) : ∃ t, ts[j]? = some t ∧ t.isPunct b.closing = true := by
  rw [matchingClose?_of_opensAt hb punctuated opens] at found
  obtain ⟨n, search, rfl⟩ := Option.map_eq_some_iff.1 found
  obtain ⟨t, at_n, closes⟩ := exists_of_closeAfter search
  rw [List.getElem?_drop] at at_n
  exact ⟨t, by rw [← at_n, Nat.add_comm], closes⟩

theorem matchingClose?_eq_some_iff (hb : b ∈ all) (punctuated : Punctuated ts) (opens : b.OpensAt ts i) :
    matchingClose? ts i = some j ↔ i < j ∧ j < ts.length ∧ b.Balanced ts i j ∧
      ∀ m, i < m → m < j → ¬ b.Balanced ts i m := by
  have offset {m : Nat} (later : i < m) : ∃ n, m = n + (i + 1) := ⟨m - (i + 1), by omega⟩
  rw [matchingClose?_of_opensAt hb punctuated opens, Option.map_eq_some_iff]
  simp only [closeAfter_eq_some_iff (Nat.le_refl 1), List.length_drop]
  constructor
  · rintro ⟨n, ⟨inside, closes, least⟩, rfl⟩
    refine ⟨by omega, by omega, (balanced_iff hb opens n).2 closes, fun m later before => ?_⟩
    obtain ⟨m, rfl⟩ := offset later
    rw [balanced_iff hb opens]
    exact least m (by omega)
  · rintro ⟨later, inside, closes, least⟩
    obtain ⟨n, rfl⟩ := offset later
    refine ⟨n, ⟨by omega, (balanced_iff hb opens n).1 closes, fun m before => ?_⟩, rfl⟩
    have := least (m + (i + 1)) (by omega) (by omega)
    rwa [balanced_iff hb opens] at this

theorem exists_inner_close (hb : b ∈ all) (punctuated : Punctuated ts) (outer : b.OpensAt ts i)
    (opens : b.OpensAt ts k) (later : i < k) (found : matchingClose? ts i = some j) (before : k < j) :
    ∃ l, matchingClose? ts k = some l ∧ l < j := by
  rw [matchingClose?_of_opensAt hb punctuated outer] at found
  obtain ⟨n, search, rfl⟩ := Option.map_eq_some_iff.1 found
  obtain ⟨p, rfl⟩ : ∃ p, k = p + (i + 1) := ⟨k - (i + 1), by omega⟩
  obtain ⟨t, opens_t, -, cut⟩ := drop_of_opensAt opens
  have within := closeAfter_drop (Nat.le_refl 1) search (p := p) (by omega)
  have deep := pos_of_closeAfter (Nat.le_refl 1) search (m := p) (by omega)
  rw [List.drop_drop, Nat.add_comm (i + 1), cut, closeAfter, if_pos opens_t,
    Option.map_eq_some_iff] at within
  obtain ⟨n', behind, distance⟩ := within
  obtain ⟨l, sooner, close⟩ := exists_closeAfter_lt (by omega) behind
  refine ⟨l + (p + (i + 1) + 1), ?_, by omega⟩
  rw [matchingClose?_of_opensAt hb punctuated opens, close]
  rfl

theorem eq_of_matchingClose?_eq (punctuated : Punctuated ts) (first : matchingClose? ts i = some j)
    (second : matchingClose? ts k = some j) : i = k := by
  -- Of two brackets with one close the latter would be closed sooner.
  have not_lt {i k : Nat} (first : matchingClose? ts i = some j) (second : matchingClose? ts k = some j) :
      ¬ i < k := by
    intro later
    obtain ⟨b, hb, outer⟩ := exists_opensAt punctuated first
    obtain ⟨b', hb', opens⟩ := exists_opensAt punctuated second
    obtain ⟨t, at_j, closes⟩ := isPunct_of_matchingClose? hb punctuated outer first
    obtain ⟨t', at_j', closes'⟩ := isPunct_of_matchingClose? hb' punctuated opens second
    obtain rfl := Option.some.inj (at_j.symm.trans at_j')
    obtain rfl := (distinct b hb b' hb').2.1.1 (eq_of_isPunct closes' closes)
    have before := ((matchingClose?_eq_some_iff hb punctuated opens).1 second).1
    obtain ⟨l, close, sooner⟩ := exists_inner_close hb punctuated outer opens later first before
    rw [second, Option.some.injEq] at close
    omega
  exact Nat.le_antisymm (Nat.le_of_not_lt (not_lt second first)) (Nat.le_of_not_lt (not_lt first second))

theorem punctuated_significant (t : Text) : Punctuated (significant t) := by
  intro k member b hb
  have piece := mem_pieces_of_mem_significant member
  refine ⟨fun lexeme => ?_, lexeme_of_isPunct member⟩
  have meant := (List.mem_filter.1 member).2
  have mark : isMark b.opening = true := by
    rcases mem_all_iff.1 hb with rfl | rfl | rfl <;> rfl
  rcases shape_of_mem_pieces piece with ⟨punct, -⟩ | comment | directive | ⟨-, plain⟩
  · simp [isPunct, punct, lexeme]
  · simp [isTrivia, comment] at meant
  · obtain ⟨qs, rs, cut⟩ := List.append_of_mem piece
    obtain ⟨hash, -⟩ := (directive_iff_of_pieces cut).1 directive
    rw [lexeme, List.head?_cons, Option.some.injEq] at hash
    rcases mem_all_iff.1 hb with rfl | rfl | rfl <;> cases hash
  · rw [plain b.opening (by simp [lexeme])] at mark
    cases mark

/-- The closes found in a text match their brackets. -/
theorem nests_significant (t : Text) : Nests (significant t) := by
  have punctuated := punctuated_significant t
  have distinct_marks {b : Bracket} (hb : b ∈ all) {k j : Nat} (opens : b.OpensAt (significant t) k)
      (closes : ∃ u, (significant t)[j]? = some u ∧ u.isPunct b.closing = true) : k ≠ j := by
    rintro rfl
    obtain ⟨u, at_k, opening⟩ := opens
    obtain ⟨u', at_k', closing⟩ := closes
    obtain rfl := Option.some.inj (at_k.symm.trans at_k')
    exact (distinct b hb b hb).2.2.1 (eq_of_isPunct opening closing)
  constructor
  · intro i j
    constructor
    · intro found
      obtain ⟨b, hb, opens⟩ := exists_opensAt punctuated found
      exact ⟨b, hb, opens, (matchingClose?_eq_some_iff hb punctuated opens).1 found⟩
    · rintro ⟨b, hb, opens, least⟩
      exact (matchingClose?_eq_some_iff hb punctuated opens).2 least
  · intro b _ i opens
    obtain ⟨u, opening, -, cut⟩ := drop_of_opensAt opens
    rw [cut]
    exact checkedClose_zero opening _
  · intro b hb i k j outer opens later found before
    exact exists_inner_close hb punctuated outer opens later found before
  · intro b hb i k j l outer opens later found found'
    have apart := distinct_marks hb opens (isPunct_of_matchingClose? hb punctuated outer found)
    rcases Nat.lt_or_gt_of_ne apart with before | behind
    · obtain ⟨l', close, sooner⟩ := exists_inner_close hb punctuated outer opens later found before
      obtain rfl := Option.some.inj (found'.symm.trans close)
      exact Or.inr sooner
    · exact Or.inl behind
  · intro i k j first second
    exact eq_of_matchingClose?_eq punctuated first second

/-- Brackets of different pairs may cross. -/
example : let ts := significant ['(', '[', ')', ']']
    matchingClose? ts 0 = some 2 ∧ matchingClose? ts 1 = some 3 := by
  decide +kernel

end Pairs

end ShaderPass.Bracket
