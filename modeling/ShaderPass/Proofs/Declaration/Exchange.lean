import ShaderPass.Proofs.Declaration.Listing
import ShaderPass.Proofs.FunctionDef.Relocation

/-! Statements around an exchange of tokens. In front of it and behind it statements are alike; the
statement that holds it is longer or shorter by what was exchanged. -/
namespace ShaderPass.Declaration

open Token ShaderPass.Bracket Statement FunctionDef

theorem statementLength_cons_of_ends {t : Token} (ends : (t.isDirective || t.isPunct ';') = true)
    (ts : List Token) : statementLength (t :: ts) = 0 := by
  rw [statementLength, if_pos ends]

theorem statementLength_cons_of_other {t : Token} (inside : (t.isDirective || t.isPunct ';') = false)
    (no_block : t.isPunct '\x7b' = false) (ts : List Token) :
    statementLength (t :: ts) = statementLength ts + 1 := by
  rw [statementLength, if_neg (by simp [inside]), if_neg (by simp [no_block])]

theorem statementLength_cons_of_block {t : Token} (inside : (t.isDirective || t.isPunct ';') = false)
    (block : t.isPunct '\x7b' = true) {ts : List Token} {n : Nat}
    (found : closeOffset? (t :: ts) = some n) :
    statementLength (t :: ts) = n + 1 + statementLength (ts.drop n) := by
  rw [statementLength, if_neg (by simp [inside]), if_pos block, found]

theorem statementLength_cons_of_open {t : Token} (inside : (t.isDirective || t.isPunct ';') = false)
    (block : t.isPunct '\x7b' = true) {ts : List Token} (open_still : closeOffset? (t :: ts) = none) :
    statementLength (t :: ts) = ts.length + 1 := by
  rw [statementLength, if_neg (by simp [inside]), if_pos block, open_still]

theorem statementLength_append_of_flat {front : List Token}
    (flat : ∀ t ∈ front, t.isDirective = false ∧ t.isPunct ';' = false ∧ t.isPunct '\x7b' = false)
    (later : List Token) : statementLength (front ++ later) = front.length + statementLength later := by
  induction front with
  | nil => rw [List.nil_append, List.length_nil, Nat.zero_add]
  | cons t front ih =>
    obtain ⟨directive, ends, block⟩ := flat t List.mem_cons_self
    rw [List.cons_append, statementLength_cons_of_other (by rw [directive, ends]; rfl) block,
      ih fun u hu => flat u (List.mem_cons_of_mem _ hu), List.length_cons]
    omega

theorem statementLength_map_move (z z' : Nat) (ts : List Token) :
    statementLength (ts.map (move z z')) = statementLength ts := by
  induction len : ts.length using Nat.strongRecOn generalizing ts with
  | ind n ih =>
    cases ts with
    | nil => rfl
    | cons t ts =>
      rw [List.length_cons] at len
      rw [List.map_cons]
      cases ends : t.isDirective || t.isPunct ';' with
      | true =>
        rw [statementLength_cons_of_ends ends,
          statementLength_cons_of_ends (show ((t.move z z').isDirective || _) = true from ends)]
      | false =>
        cases block : t.isPunct '\x7b' with
        | false =>
          rw [statementLength_cons_of_other ends block, statementLength_cons_of_other
              (show ((t.move z z').isDirective || _) = false from ends) block,
            ih ts.length (by omega) ts rfl]
        | true =>
          have same := closeOffset?_map_move z z' (t :: ts)
          have ends' : ((t.move z z').isDirective || (t.move z z').isPunct ';') = false := ends
          cases found : closeOffset? (t :: ts) with
          | none =>
            rw [statementLength_cons_of_open ends block found,
              statementLength_cons_of_open ends' block (same.trans found), List.length_map]
          | some n =>
            rw [statementLength_cons_of_block ends block found,
              statementLength_cons_of_block ends' block (same.trans found), ← List.map_drop,
              ih (ts.drop n).length (by rw [List.length_drop]; omega) _ rfl]

section

variable {a z z' : Nat} {before after later : List Token} {k : Token}

theorem statementLength_exchange (h : Exchange a z z' before after k later) (front : List Token) :
    (∃ n, n < front.length ∧ statementLength (front ++ (before ++ k :: later)) = n ∧
      statementLength (front ++ (after ++ (k :: later).map (move z z'))) = n) ∨
    ∃ m, statementLength (front ++ (before ++ k :: later)) =
        front.length + before.length + (m + 1) ∧
      statementLength (front ++ (after ++ (k :: later).map (move z z'))) =
        front.length + after.length + (m + 1) := by
  induction len : front.length using Nat.strongRecOn generalizing front with
  | ind n ih =>
    cases front with
    | nil =>
      right
      have inside : (k.isDirective || k.isPunct ';') = false ∧ k.isPunct '\x7b' = false := by
        have kind := of_decide_eq_true h.identifier
        simp [isDirective, isPunct, kind]
      refine ⟨statementLength later, ?_, ?_⟩
      · rw [List.nil_append, statementLength_append_of_flat h.old.flat,
          statementLength_cons_of_other inside.1 inside.2, ← len, List.length_nil, Nat.zero_add]
      · rw [List.nil_append, statementLength_append_of_flat h.new.flat, statementLength_map_move,
          statementLength_cons_of_other inside.1 inside.2, ← len, List.length_nil, Nat.zero_add]
    | cons t front =>
      rw [List.length_cons] at len
      rw [List.cons_append, List.cons_append]
      cases ends : t.isDirective || t.isPunct ';' with
      | true =>
        exact Or.inl ⟨0, by omega, statementLength_cons_of_ends ends _,
          statementLength_cons_of_ends ends _⟩
      | false =>
        cases block : t.isPunct '\x7b' with
        | false =>
          rw [statementLength_cons_of_other ends block, statementLength_cons_of_other ends block]
          rcases ih front.length (by omega) front rfl with ⟨n, lt, old, new⟩ | ⟨m, old, new⟩
          · exact Or.inl ⟨n + 1, by omega, by rw [old], by rw [new]⟩
          · exact Or.inr ⟨m, by rw [old]; omega, by rw [new]; omega⟩
        | true =>
          rcases h.closeOffset?_cases (b := brace) (by decide) block front with
            ⟨m, lt, old, new⟩ | ⟨m, old, new⟩ | ⟨old, new⟩
          · rw [statementLength_cons_of_block ends block old,
              statementLength_cons_of_block ends block new, List.drop_append_of_le_length lt,
              List.drop_append_of_le_length lt]
            rcases ih (front.drop (m + 1)).length (by rw [List.length_drop]; omega) _ rfl with
              ⟨n, lt', old', new'⟩ | ⟨n, old', new'⟩
            · rw [List.length_drop] at lt'
              exact Or.inl ⟨m + 1 + 1 + n, by omega, by rw [old'], by rw [new']⟩
            · rw [List.length_drop] at old' new'
              exact Or.inr ⟨n, by rw [old']; omega, by rw [new']; omega⟩
          · -- The block goes on behind the exchange.
            rw [statementLength_cons_of_block ends block old,
              statementLength_cons_of_block ends block new, drop_append_append, drop_append_append,
              ← List.map_drop, statementLength_map_move]
            exact Or.inr ⟨m + statementLength ((k :: later).drop (m + 1)), by omega, by omega⟩
          · rw [statementLength_cons_of_open ends block old, statementLength_cons_of_open ends block new,
              List.length_append, List.length_append, List.length_append, List.length_append,
              List.length_map, List.length_cons]
            exact Or.inr ⟨later.length, by omega, by omega⟩

def InFront (source : Text) (a : Nat) (t : Token) : Prop :=
  t.StandsIn source ∧ t.stop ≤ a

theorem InFront.start_le {source : Text} {t : Token} (h : InFront source a t) : t.start ≤ a :=
  Nat.le_trans (Nat.le_add_right _ _) h.2

structure Agree (a z z' : Nat) (source source' : Text) : Prop where
  front : ∀ m n, Text.IsBoundary source m → n ≤ a → Text.slice m n source' = Text.slice m n source
  behind : ∀ m n, z ≤ m → Text.slice (m - z + z') (n - z + z') source' = Text.slice m n source
  length : Text.byteLen source' = Text.byteLen source - z + z'

theorem agree_append (u m m' w : Text) :
    Agree (Text.byteLen u) (Text.byteLen u + Text.byteLen m) (Text.byteLen u + Text.byteLen m')
      (u ++ (m ++ w)) (u ++ (m' ++ w)) := by
  refine ⟨?_, ?_, ?_⟩
  · rintro i j ⟨p, r, whole, rfl⟩ le
    rw [Text.slice, Text.slice]
    rcases Nat.le_total (Text.byteLen p) (Text.byteLen u) with inside | outside
    · obtain ⟨q, rfl, -⟩ := Text.append_eq_append_of_byteLen_le whole.symm inside
      rw [Text.byteLen_append] at le
      rw [List.append_assoc, List.append_assoc, Text.dropBytes_byteLen_append,
        Text.dropBytes_byteLen_append, Text.takeBytes_append_of_ge (by omega),
        Text.takeBytes_append_of_ge (by omega)]
    · rw [Nat.sub_eq_zero_of_le (Nat.le_trans le outside), Text.takeBytes_zero, Text.takeBytes_zero]
  · intro i j le
    have offset : i - (Text.byteLen u + Text.byteLen m) + (Text.byteLen u + Text.byteLen m') -
        Text.byteLen (u ++ m') = i - Text.byteLen (u ++ m) := by
      rw [Text.byteLen_append, Text.byteLen_append]
      omega
    rw [Text.slice, Text.slice, ← List.append_assoc, ← List.append_assoc,
      Text.dropBytes_append_of_le (by rw [Text.byteLen_append]; omega),
      Text.dropBytes_append_of_le (by rw [Text.byteLen_append]; omega), offset]
    congr 1
    omega
  · simp only [Text.byteLen_append]
    omega

theorem map_move_zero (ts : List Token) : ts.map (move 0 0) = ts :=
  List.map_id ts

variable {source source' : Text}

theorem alike_front (h : Exchange a z z' before after k later) (agree : Agree a z z' source source')
    {ts : List Token} {size : Nat} (inside : size ≤ ts.length) (ordered : Ordered ts)
    (ahead : ∀ t ∈ ts, InFront source a t) :
    Alike 0 0 source source' ⟨ts ++ (before ++ k :: later), size⟩
      ⟨ts ++ (after ++ (k :: later).map (move z z')), size⟩ := by
  have cut (us : List Token) : Statement.window ⟨ts ++ us, size⟩ = ts.take size :=
    List.take_append_of_le_length inside
  refine ⟨rfl, ?_, ?_, ?_, ?_⟩
  · rw [cut, cut, map_move_zero]
  · intro i lt t b at_i hb opens
    have lt : i < size := lt
    have at_ts : ts[i]? = some t := (List.getElem?_append_left (by omega)).symm.trans at_i
    obtain ⟨lt', rfl⟩ := List.getElem?_eq_some_iff.1 at_ts
    have drop (us : List Token) : (ts ++ us).drop i = ts[i] :: (ts.drop (i + 1) ++ us) := by
      rw [List.drop_append_of_le_length (by omega), List.drop_eq_getElem_cons lt', List.cons_append]
    have left : (ts.drop (i + 1)).length + (i + 1) = ts.length := by
      rw [List.length_drop]
      omega
    show (closeOffset? ((ts ++ _).drop i)).map (min (size - i)) =
      (closeOffset? ((ts ++ _).drop i)).map (min (size - i))
    rw [drop, drop]
    rcases h.closeOffset?_cases hb opens (ts.drop (i + 1)) with
      ⟨m, -, old, new⟩ | ⟨m, old, new⟩ | ⟨old, new⟩
    · rw [old, new]
    · rw [old, new, Option.map_some, Option.map_some, Option.some.injEq]
      omega
    · rw [old, new]
  · rw [cut]
    exact ordered.sublist (List.take_sublist _ _)
  · intro x hx y hy _
    rw [cut] at hx hy
    exact agree.front x.stop y.start (ahead x (List.mem_of_mem_take hx)).1.isBoundary_stop
      (ahead y (List.mem_of_mem_take hy)).start_le

theorem alike_behind (agree : Agree a z z' source source') {ts : List Token} (size : Nat)
    (ordered : Ordered ts) (behind : ∀ t ∈ ts, z ≤ t.start) :
    Alike z z' source source' ⟨ts, size⟩ ⟨ts.map (move z z'), size⟩ := by
  refine ⟨rfl, ?_, ?_, ordered.sublist (List.take_sublist _ _), ?_⟩
  · rw [window, window, List.map_take]
  · intro i _ t b _ _ _
    show (closeOffset? ((ts.map (move z z')).drop i)).map _ = _
    rw [← List.map_drop, closeOffset?_map_move]
  · intro x hx y _ _
    have start := behind x (List.mem_of_mem_take hx)
    rw [move_stop z' start, move_start]
    exact agree.behind x.stop y.start (Nat.le_trans start (Nat.le_add_right _ _))

end

end ShaderPass.Declaration
