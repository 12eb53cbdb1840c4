import Mathlib.Data.List.Forall2
import ShaderPass.FunctionDef
import ShaderPass.Proofs.Token.Relocation

/-! Function definitions when a group of tokens is exchanged for another: the same definitions are
found, at the same places in front of the exchange and at moved places behind it. -/
namespace ShaderPass.FunctionDef

open Token ShaderPass.Bracket

def relocate (a z z' n : Nat) : Nat :=
  if n ≤ a then n else n - z + z'

structure Moved (a z z' : Nat) (f g : FunctionDef) : Prop where
  start_out : f.start ≤ a ∨ z ≤ f.start
  stop_out : f.stop ≤ a ∨ z ≤ f.stop
  start : g.start = relocate a z z' f.start
  stop : g.stop = relocate a z z' f.stop

def declares : List Token → Bool
  | name :: type :: _ => name.isIdentifier && type.isIdentifier
  | _ => false

theorem isSome_header?_of_other {last : Token} (other : last.isPunct ')' = false)
    (rest : List Token) : (header? (last :: rest)).isSome = false := by
  simp [header?, other]

theorem isSome_header?_of_paren {last : Token} (closes : last.isPunct ')' = true)
    (rest : List Token) : (header? (last :: rest)).isSome =
      ((closeAfter paren.flip 1 rest).map fun n => declares (rest.drop (n + 1))).getD false := by
  have search : closeAfter ⟨')', '('⟩ 0 (last :: rest) =
      (closeAfter paren.flip 1 rest).map (· + 1) := by
    rw [closeAfter, if_pos closes]
    rfl
  simp only [header?, List.head?_cons, Option.bind_eq_bind, Option.bind_some, closes, if_true, search]
  cases closeAfter paren.flip 1 rest with
  | none => rfl
  | some n =>
    simp only [Option.map_some, Option.bind_some, List.drop_succ_cons, Option.getD_some]
    split
    · rename_i name type later cut
      rw [cut, declares]
      split <;> simp_all
    · rename_i short
      cases cut : rest.drop (n + 1) with
      | nil => rfl
      | cons name later =>
        cases later with
        | nil => rfl
        | cons type later => exact absurd cut (short name type later)

theorem declares_map_move (z z' : Nat) (ts : List Token) :
    declares (ts.map (move z z')) = declares ts := by
  cases ts with
  | nil => rfl
  | cons name ts => cases ts <;> rfl

theorem isSome_header?_map_move (z z' : Nat) (statement : List Token) :
    (header? (statement.map (move z z'))).isSome = (header? statement).isSome := by
  cases statement with
  | nil => rfl
  | cons last rest =>
    cases closes : last.isPunct ')' with
    | false =>
      rw [List.map_cons, isSome_header?_of_other closes,
        isSome_header?_of_other (show (last.move z z').isPunct ')' = false from closes)]
    | true =>
      rw [List.map_cons, isSome_header?_of_paren closes,
        isSome_header?_of_paren (show (last.move z z').isPunct ')' = true from closes),
        closeAfter_map (move z z') fun _ _ => rfl]
      simp only [← List.map_drop, declares_map_move]

def blockSize (t : Token) (ts : List Token) : Nat :=
  (closeOffset? (t :: ts)).getD ts.length

section Scan

variable {statement : List Token} {t : Token} (ts : List Token)

theorem scan_cons_of_ends (ends : (t.isDirective || t.isPunct ';') = true) :
    scan statement (t :: ts) = scan [] ts := by
  rw [scan, if_pos ends]

theorem scan_cons_of_other (inside : (t.isDirective || t.isPunct ';') = false)
    (no_block : t.isPunct '\x7b' = false) : scan statement (t :: ts) = scan (t :: statement) ts := by
  rw [scan, if_neg (by simp [inside]), if_neg (by simp [no_block])]

theorem scan_cons_of_block (inside : (t.isDirective || t.isPunct ';') = false)
    (block : t.isPunct '\x7b' = true) (no_header : (header? statement).isSome = false) :
    scan statement (t :: ts) =
      scan ((ts.take (blockSize t ts)).reverse ++ t :: statement) (ts.drop (blockSize t ts)) := by
  rw [scan, if_neg (by simp [inside]), if_pos block]
  rw [Option.isSome_eq_false_iff, Option.isNone_iff_eq_none] at no_header
  rw [no_header]
  rfl

theorem scan_cons_of_body (inside : (t.isDirective || t.isPunct ';') = false)
    (block : t.isPunct '\x7b' = true) (header : (header? statement).isSome = true) {first : Token}
    (last : statement.getLast? = some first) :
    ∃ f, scan statement (t :: ts) = f :: scan [] (ts.drop (blockSize t ts)) ∧
      f.start = first.start ∧ f.stop = ((ts.take (blockSize t ts)).getLastD t).stop := by
  obtain ⟨⟨type, name⟩, header⟩ := Option.isSome_iff_exists.1 header
  obtain ⟨head, head_eq⟩ : ∃ head, statement.head? = some head := by
    cases statement with
    | nil => simp at last
    | cons head _ => exact ⟨head, rfl⟩
  rw [scan, if_neg (by simp [inside]), if_pos block, header, head_eq, last]
  exact ⟨_, rfl, rfl, rfl⟩

end Scan

theorem blockSize_map_move (z z' : Nat) (t : Token) (ts : List Token) :
    blockSize (t.move z z') (ts.map (move z z')) = blockSize t ts := by
  rw [blockSize, ← List.map_cons, closeOffset?_map_move, List.length_map, blockSize]

theorem getLast?_of_header {statement : List Token} (header : (header? statement).isSome = true) :
    ∃ first, statement.getLast? = some first := by
  cases statement with
  | nil => simp [header?] at header
  | cons head tail => exact ⟨_, List.getLast?_cons⟩

theorem getLastD_map {α β : Type} (f : α → β) (l : List α) (a : α) :
    (l.map f).getLastD (f a) = f (l.getLastD a) := by
  rw [List.getLastD_eq_getLast?, List.getLastD_eq_getLast?, List.getLast?_map]
  cases l.getLast? <;> rfl

section Twins

variable (a z z' : Nat)

def Behind (t : Token) : Prop :=
  z ≤ t.start ∧ a < t.start

/-- Statements before and after an exchange that stay alike however they go on: both declare a function
or none does, and they start at the same place. -/
structure Twins (s s' : List Token) : Prop where
  header : ∀ us : List Token, (header? (us.reverse ++ s)).isSome =
    (header? ((us.map (move z z')).reverse ++ s')).isSome
  first : ∀ us : List Token, (∀ u ∈ us, Behind a z u) → ∀ t, (us.reverse ++ s).getLast? = some t →
    ∃ t', ((us.map (move z z')).reverse ++ s').getLast? = some t' ∧
      (t.start ≤ a ∨ z ≤ t.start) ∧ t'.start = relocate a z z' t.start

variable {a z z'}

theorem Behind.relocate_start {t : Token} (h : Behind a z t) (z' : Nat) :
    relocate a z z' t.start = (t.move z z').start := by
  rw [relocate, if_neg (Nat.not_le.2 h.2), move_start]

theorem relocate_stop {t : Token} (start : z ≤ t.start) (stop : a < t.stop) (z' : Nat) :
    relocate a z z' t.stop = (t.move z z').stop := by
  rw [relocate, if_neg (Nat.not_le.2 stop), move_stop z' start]

theorem Behind.lt_stop {t : Token} (h : Behind a z t) : a < t.stop :=
  Nat.lt_of_lt_of_le h.2 (Nat.le_add_right _ _)

theorem twins_nil : Twins a z z' [] [] := by
  constructor
  · intro us
    rw [List.append_nil, List.append_nil, ← List.map_reverse, isSome_header?_map_move]
  · intro us behind t last
    rw [List.append_nil, List.getLast?_reverse] at last
    refine ⟨t.move z z', ?_, Or.inr (behind t (List.mem_of_mem_head? last)).1,
      ((behind t (List.mem_of_mem_head? last)).relocate_start z').symm⟩
    rw [List.append_nil, List.getLast?_reverse, List.head?_map, last]
    rfl

theorem Twins.append {s s' : List Token} (h : Twins a z z' s s') {us : List Token}
    (behind : ∀ u ∈ us, Behind a z u) :
    Twins a z z' (us.reverse ++ s) ((us.map (move z z')).reverse ++ s') := by
  constructor
  · intro vs
    have := h.header (us ++ vs)
    simpa using this
  · intro vs behind' t last
    have := h.first (us ++ vs) (fun u hu => (List.mem_append.1 hu).elim (behind u) (behind' u)) t
      (by simpa using last)
    simpa using this

theorem Twins.cons {s s' : List Token} (h : Twins a z z' s s') {t : Token} (behind : Behind a z t) :
    Twins a z z' (t :: s) (t.move z z' :: s') :=
  @Twins.append _ _ _ _ _ h [t] (by simpa using behind)

theorem Twins.exists_body {s s' : List Token} (h : Twins a z z' s s') {t : Token} {ts : List Token}
    (behind : ∀ u ∈ t :: ts, Behind a z u) (ends : (t.isDirective || t.isPunct ';') = false)
    (block : t.isPunct '\x7b' = true) (found : (header? s).isSome = true) :
    ∃ f g, scan s (t :: ts) = f :: scan [] (ts.drop (blockSize t ts)) ∧
      scan s' ((t :: ts).map (move z z')) =
        g :: scan [] ((ts.drop (blockSize t ts)).map (move z z')) ∧ Moved a z z' f g := by
  have header := h.header []
  simp only [List.reverse_nil, List.nil_append, List.map_nil] at header
  rw [found] at header
  obtain ⟨first, last⟩ := getLast?_of_header found
  obtain ⟨first', last', out, start⟩ := h.first [] (by simp) first last
  obtain ⟨f, scan_f, f_start, f_stop⟩ := scan_cons_of_body ts ends block found last
  obtain ⟨g, scan_g, g_start, g_stop⟩ :=
    scan_cons_of_body (t := t.move z z') (ts.map (move z z')) ends block header.symm last'
  have size : blockSize (t.move z z') (ts.map (move z z')) = blockSize t ts :=
    blockSize_map_move z z' t ts
  have close_behind : Behind a z ((ts.take (blockSize t ts)).getLastD t) := by
    have member := List.getLastD_mem_cons (l := ts.take (blockSize t ts)) (a := t)
    rcases List.mem_cons.1 member with same | member
    · rw [same]
      exact behind t List.mem_cons_self
    · exact behind _ (List.mem_cons_of_mem _ (List.mem_of_mem_take member))
  refine ⟨f, g, scan_f, ?_, ?_, ?_, ?_, ?_⟩
  · rw [List.map_cons, scan_g, size, ← List.map_drop]
  · rw [f_start]
    exact out
  · have le : ((ts.take (blockSize t ts)).getLastD t).start ≤ f.stop := by
      rw [f_stop]
      exact Nat.le_add_right _ _
    exact Or.inr (Nat.le_trans close_behind.1 le)
  · rw [f_start, g_start]
    exact start
  · rw [f_stop, g_stop, size, ← List.map_take, relocate_stop close_behind.1 close_behind.lt_stop,
      getLastD_map]

theorem scan_of_twins {s s' : List Token} (h : Twins a z z' s s') {ts : List Token}
    (behind : ∀ t ∈ ts, Behind a z t) :
    List.Forall₂ (Moved a z z') (scan s ts) (scan s' (ts.map (move z z'))) := by
  induction len : ts.length using Nat.strongRecOn generalizing s s' ts with
  | ind n ih =>
    cases ts with
    | nil =>
      rw [List.map_nil, scan, scan]
      exact List.Forall₂.nil
    | cons t ts =>
      have here := behind t List.mem_cons_self
      have later : ∀ u ∈ ts, Behind a z u := fun u hu => behind u (List.mem_cons_of_mem _ hu)
      have shorter : ts.length < n := by
        rw [← len]
        exact Nat.lt_succ_self _
      cases ends : t.isDirective || t.isPunct ';' with
      | true =>
        rw [List.map_cons, scan_cons_of_ends ts ends, scan_cons_of_ends (t := t.move z z') _ ends]
        exact ih ts.length shorter twins_nil later rfl
      | false =>
        cases block : t.isPunct '\x7b' with
        | false =>
          rw [List.map_cons, scan_cons_of_other ts ends block,
            scan_cons_of_other (t := t.move z z') _ ends block]
          exact ih ts.length shorter (h.cons here) later rfl
        | true =>
          have inside : ∀ u ∈ ts.take (blockSize t ts), Behind a z u :=
            fun u hu => later u (List.mem_of_mem_take hu)
          have outside : ∀ u ∈ ts.drop (blockSize t ts), Behind a z u :=
            fun u hu => later u (List.mem_of_mem_drop hu)
          have shorter' : (ts.drop (blockSize t ts)).length < n := by
            rw [List.length_drop]
            omega
          cases found : (header? s).isSome with
          | false =>
            have header := h.header []
            simp only [List.reverse_nil, List.nil_append, List.map_nil, found] at header
            rw [List.map_cons, scan_cons_of_block ts ends block found,
              scan_cons_of_block (t := t.move z z') _ ends block header.symm, blockSize_map_move,
              ← List.map_take, ← List.map_drop]
            exact ih _ shorter' ((h.cons here).append inside) outside rfl
          | true =>
            obtain ⟨f, g, old, new, moved⟩ := h.exists_body behind ends block found
            rw [old, new]
            exact List.Forall₂.cons moved (ih _ shorter' twins_nil outside rfl)

def headed (front st : List Token) : Bool :=
  match front with
  | [] => false
  | last :: rest =>
    last.isPunct ')' &&
      match closeAfter paren.flip 1 rest with
      | some n => declares (rest.drop (n + 1))
      | none => ((closeAfter paren.flip (1 + paren.flip.depth rest).toNat st).map
          fun n => declares (st.drop (n + 1))).getD false

theorem headed_map_move (z z' : Nat) (front st : List Token) :
    headed (front.map (move z z')) st = headed front st := by
  cases front with
  | nil => rfl
  | cons last rest =>
    have depth : paren.flip.depth (rest.map (move z z')) = paren.flip.depth rest := by
      simp only [depth, List.map_map]
      rfl
    simp only [List.map_cons, headed, closeAfter_map (move z z') fun _ _ => rfl, depth,
      ← List.map_drop, declares_map_move, move_isPunct]

theorem declares_append {front back : List Token} (some_front : front ≠ [])
    (gap : ∀ t, back.head? = some t → t.isIdentifier = false) :
    declares (front ++ back) = declares front := by
  cases front with
  | nil => exact absurd rfl some_front
  | cons name later =>
    cases later with
    | cons type later => rfl
    | nil =>
      rw [List.singleton_append]
      cases back with
      | nil => rfl
      | cons t back => simp [declares, gap t rfl]

theorem drop_succ_ne_nil_of_opening {rest : List Token} {k opening : Token} {n : Nat}
    (ends : rest.getLast? = some k) (identifier : k.isIdentifier = true) (at_n : rest[n]? = some opening)
    {c : Char} (opens : opening.isPunct c = true) : rest.drop (n + 1) ≠ [] := by
  intro empty
  have inside := (List.getElem?_eq_some_iff.1 at_n).1
  have at_end : n = rest.length - 1 := by
    have := congrArg List.length empty
    rw [List.length_drop, List.length_nil] at this
    omega
  rw [List.getLast?_eq_getElem?, ← at_end, at_n] at ends
  rw [Option.some.inj ends, isPunct, Bool.and_eq_true, decide_eq_true_eq] at opens
  rw [isIdentifier, decide_eq_true_eq, opens.1] at identifier
  cases identifier

theorem isSome_header?_append {group st front : List Token} {k : Token} (h : Group group)
    (identifier : k.isIdentifier = true) (ends : front.getLast? = some k)
    (gap : ∀ t, (group.reverse ++ st).head? = some t → t.isIdentifier = false) :
    (header? (front ++ (group.reverse ++ st))).isSome = headed front st := by
  cases front with
  | nil => simp at ends
  | cons last rest =>
    rw [List.cons_append, headed]
    cases closes : last.isPunct ')' with
    | false => exact isSome_header?_of_other closes _
    | true =>
      rw [isSome_header?_of_paren closes, Bool.true_and]
      cases found : closeAfter paren.flip 1 rest with
      | some n =>
        -- The parameter list starts behind the identifier, so what is declared ends with it.
        rw [closeAfter_append_of_some found, Option.map_some, Option.getD_some]
        obtain ⟨opening, at_n, opens⟩ := exists_of_closeAfter found
        have inside := (List.getElem?_eq_some_iff.1 at_n).1
        have rest_ends : rest.getLast? = some k := by
          cases rest with
          | nil => simp at inside
          | cons head tail => rwa [List.getLast?_cons_cons] at ends
        have some_name := drop_succ_ne_nil_of_opening rest_ends identifier at_n opens
        rw [List.drop_append_of_le_length inside]
        exact declares_append some_name gap
      | none =>
        have deep := pos_of_closeAfter_eq_none (Nat.le_refl 1) found
        have positive := deep rest (List.prefix_refl rest)
        rw [closeAfter_append_of_pos deep,
          h.closeAfter_reverse_append (b := paren) (by decide) (by omega)]
        cases closeAfter paren.flip ((1 : Nat) + paren.flip.depth rest).toNat st with
        | none => rfl
        | some n =>
          simp only [Option.map_some, Option.getD_some]
          have position : n + group.length + rest.length + 1 =
              rest.length + (group.reverse.length + (n + 1)) := by
            rw [List.length_reverse]
            omega
          rw [position, ← List.drop_drop, List.drop_left, ← List.drop_drop, List.drop_left]

theorem twins_of_group {before after st : List Token} {k : Token} (group : Group before)
    (group' : Group after) (identifier : k.isIdentifier = true)
    (gap : ∀ t, (before.reverse ++ st).head? = some t → t.isIdentifier = false)
    (gap' : ∀ t, (after.reverse ++ st).head? = some t → t.isIdentifier = false)
    (first : ∀ t, (k :: (before.reverse ++ st)).getLast? = some t →
      ∃ t', (k.move z z' :: (after.reverse ++ st)).getLast? = some t' ∧
        (t.start ≤ a ∨ z ≤ t.start) ∧ t'.start = relocate a z z' t.start) :
    Twins a z z' (k :: (before.reverse ++ st)) (k.move z z' :: (after.reverse ++ st)) := by
  constructor
  · intro us
    have old : (header? (us.reverse ++ [k] ++ (before.reverse ++ st))).isSome = _ :=
      isSome_header?_append group identifier (by simp) gap
    have new : (header? ((us.map (move z z')).reverse ++ [k.move z z'] ++
        (after.reverse ++ st))).isSome = _ :=
      isSome_header?_append group' (k := k.move z z') identifier (by simp) gap'
    have same := headed_map_move z z' (us.reverse ++ [k]) st
    rw [List.map_append, List.map_reverse] at same
    rw [List.append_assoc] at old new
    exact old.trans (same.symm.trans new.symm)
  · intro us _ t last
    rw [List.getLast?_append, List.getLast?_cons, Option.some_or, ← List.getLast?_cons] at last
    rw [List.getLast?_append, List.getLast?_cons, Option.some_or, ← List.getLast?_cons]
    exact first t last

end Twins

theorem scan_append_of_flat {group : List Token} (h : Group group) (st later : List Token) :
    scan st (group ++ later) = scan (group.reverse ++ st) later := by
  have flat := h.flat
  clear h
  induction group generalizing st with
  | nil => rfl
  | cons t group ih =>
    obtain ⟨directive, ends, block⟩ := flat t List.mem_cons_self
    rw [List.cons_append, scan_cons_of_other _ (by rw [directive, ends]; rfl) block,
      ih _ (fun u hu => flat u (List.mem_cons_of_mem _ hu)), List.reverse_cons, List.append_assoc,
      List.singleton_append]

/-- A group of tokens from `a` to `z` that is exchanged for another one, in front of an identifier
`k`. -/
structure Exchange (a z z' : Nat) (before after : List Token) (k : Token) (later : List Token) :
    Prop where
  old : Group before
  new : Group after
  identifier : k.isIdentifier = true
  old_first : ∀ t, (before ++ [k]).head? = some t → t.start = a
  new_first : ∃ t, after.head? = some t ∧ t.start = a
  old_last : ∀ t, before.getLast? = some t → t.isIdentifier = false
  new_last : ∀ t, after.getLast? = some t → t.isIdentifier = false
  start : z ≤ k.start
  stop : a < k.stop
  behind : ∀ t ∈ later, Behind a z t

section Exchange

variable {a z z' : Nat} {before after later : List Token} {k : Token}

theorem Exchange.closeOffset?_cases (h : Exchange a z z' before after k later) {b : Bracket}
    (hb : b ∈ all) {t : Token} (opens : t.isPunct b.opening = true) (front : List Token) :
    (∃ m, m < front.length ∧ closeOffset? (t :: (front ++ (before ++ k :: later))) = some (m + 1) ∧
      closeOffset? (t :: (front ++ (after ++ (k :: later).map (move z z')))) = some (m + 1)) ∨
    (∃ m, closeOffset? (t :: (front ++ (before ++ k :: later))) =
        some (front.length + before.length + (m + 1)) ∧
      closeOffset? (t :: (front ++ (after ++ (k :: later).map (move z z')))) =
        some (front.length + after.length + (m + 1))) ∨
    (closeOffset? (t :: (front ++ (before ++ k :: later))) = none ∧
      closeOffset? (t :: (front ++ (after ++ (k :: later).map (move z z')))) = none) := by
  rw [closeOffset?_cons hb opens, closeOffset?_cons hb opens]
  by_cases lexeme : t.lexeme = [b.opening]
  · rw [if_pos lexeme, if_pos lexeme]
    rcases closeAfter_append_cases b (Nat.le_refl 1) front with ⟨m, lt, found⟩ | ⟨e, pos, found⟩
    · exact Or.inl ⟨m, lt, by rw [found]; rfl, by rw [found]; rfl⟩
    · right
      rw [found, found, h.old.closeAfter_append hb pos, h.new.closeAfter_append hb pos,
        closeAfter_map (move z z') fun _ _ => rfl]
      cases closeAfter b e (k :: later) with
      | none => exact Or.inr ⟨rfl, rfl⟩
      | some m =>
        refine Or.inl ⟨m, ?_, ?_⟩
        · simp only [Option.map_some, Option.some.injEq]
          omega
        · simp only [Option.map_some, Option.some.injEq]
          omega
  · rw [if_neg lexeme, if_neg lexeme]
    exact Or.inr (Or.inr ⟨rfl, rfl⟩)

theorem Exchange.blockSize_cases (h : Exchange a z z' before after k later) {t : Token}
    (block : t.isPunct '\x7b' = true) (front : List Token) :
    (∃ m, m < front.length ∧ blockSize t (front ++ (before ++ k :: later)) = m + 1 ∧
      blockSize t (front ++ (after ++ (k :: later).map (move z z'))) = m + 1) ∨
    ∃ m, blockSize t (front ++ (before ++ k :: later)) = front.length + before.length + (m + 1) ∧
      blockSize t (front ++ (after ++ (k :: later).map (move z z'))) =
        front.length + after.length + (m + 1) := by
  rw [blockSize, blockSize]
  rcases h.closeOffset?_cases (b := brace) (by decide) block front with
    ⟨m, lt, old, new⟩ | ⟨m, old, new⟩ | ⟨old, new⟩
  · exact Or.inl ⟨m, lt, by rw [old]; rfl, by rw [new]; rfl⟩
  · exact Or.inr ⟨m, by rw [old]; rfl, by rw [new]; rfl⟩
  · refine Or.inr ⟨later.length, ?_, ?_⟩
    · rw [old, Option.getD_none, List.length_append, List.length_append, List.length_cons]
      omega
    · rw [new, Option.getD_none, List.length_append, List.length_append, List.length_map,
        List.length_cons]
      omega

structure Ahead (a : Nat) (before ts : List Token) : Prop where
  stop : ∀ t ∈ ts, t.stop ≤ a
  fresh : before = [] → ∀ t, ts.getLast? = some t → t.isIdentifier = false

theorem Ahead.of_append {ts us : List Token} (h : Ahead a before (ts ++ us)) : Ahead a before us := by
  refine ⟨fun t ht => h.stop t (List.mem_append_right _ ht), fun nothing t last => ?_⟩
  exact h.fresh nothing t (by rw [List.getLast?_append, last, Option.some_or])

theorem Ahead.start {ts : List Token} (h : Ahead a before ts) {t : Token} (member : t ∈ ts) :
    t.start ≤ a :=
  Nat.le_trans (Nat.le_add_right _ _) (h.stop t member)

theorem Exchange.twins (h : Exchange a z z' before after k later) {st : List Token}
    (ahead : Ahead a before st.reverse) :
    Twins a z z' (k :: (before.reverse ++ st)) (k.move z z' :: (after.reverse ++ st)) := by
  obtain ⟨first', head', start'⟩ := h.new_first
  refine twins_of_group h.old h.new h.identifier ?_ ?_ ?_
  · intro t head
    rw [List.head?_append, List.head?_reverse] at head
    cases last : before.getLast? with
    | none =>
      rw [last, Option.none_or] at head
      exact ahead.fresh (List.getLast?_eq_none_iff.1 last) t (by rwa [List.getLast?_reverse])
    | some u =>
      rw [last, Option.some_or] at head
      exact h.old_last t (last.trans head)
  · intro t head
    rw [List.head?_append, List.head?_reverse] at head
    cases last : after.getLast? with
    | none =>
      rw [List.getLast?_eq_none_iff.1 last] at head'
      cases head'
    | some u =>
      rw [last, Option.some_or] at head
      exact h.new_last t (last.trans head)
  · intro t last
    rw [← List.cons_append, List.getLast?_append] at last ⊢
    cases outer : st.getLast? with
    | some u =>
      rw [outer, Option.some_or] at last
      obtain rfl := Option.some.inj last
      have start := ahead.start (List.mem_reverse.2 (List.mem_of_mem_getLast? outer))
      exact ⟨u, rfl, Or.inl start, by rw [relocate, if_pos start]⟩
    | none =>
      rw [outer, Option.none_or, show k :: before.reverse = (before ++ [k]).reverse by simp,
        List.getLast?_reverse] at last
      have start := h.old_first t last
      refine ⟨first', ?_, Or.inl (Nat.le_of_eq start), ?_⟩
      · rw [show k.move z z' :: after.reverse = (after ++ [k.move z z']).reverse by simp,
          List.getLast?_reverse, List.head?_append, head']
        rfl
      · rw [start', start, relocate, if_pos (Nat.le_refl a)]

theorem take_append_append (ts us vs : List Token) (n : Nat) :
    (ts ++ (us ++ vs)).take (ts.length + us.length + n) = ts ++ (us ++ vs.take n) := by
  rw [Nat.add_assoc, List.take_append, List.take_append, List.take_of_length_le (by omega),
    List.take_of_length_le (by omega)]
  simp

theorem drop_append_append (ts us vs : List Token) (n : Nat) :
    (ts ++ (us ++ vs)).drop (ts.length + us.length + n) = vs.drop n := by
  rw [Nat.add_assoc, ← List.drop_drop, List.drop_left, ← List.drop_drop, List.drop_left]

theorem getLastD_append_append (ts us vs : List Token) (t u : Token) :
    (ts ++ (us ++ t :: vs)).getLastD u = vs.getLastD t := by
  simp [List.getLastD_eq_getLast?, List.getLast?_append, List.getLast?_cons]

theorem Ahead.moved {ts : List Token} (h : Ahead a before ts) {first last : Token} (first_mem : first ∈ ts)
    (last_mem : last ∈ ts) {f g : FunctionDef} (f_start : f.start = first.start)
    (f_stop : f.stop = last.stop) (g_start : g.start = first.start) (g_stop : g.stop = last.stop) :
    Moved a z z' f g := by
  have start : f.start ≤ a := f_start ▸ h.start first_mem
  have stop : f.stop ≤ a := f_stop ▸ h.stop last last_mem
  refine ⟨Or.inl start, Or.inl stop, ?_, ?_⟩
  · rw [relocate, if_pos start, f_start, g_start]
  · rw [relocate, if_pos stop, f_stop, g_stop]

/-- A block in front of an exchange that goes on behind it: its definition moves, and so do the later ones. -/
theorem Exchange.moved_scan_of_block (h : Exchange a z z' before after k later) {t : Token}
    {st front : List Token} {m : Nat} (ahead : Ahead a before (st.reverse ++ t :: front))
    (ends : (t.isDirective || t.isPunct ';') = false) (block : t.isPunct '\x7b' = true)
    (size : blockSize t (front ++ (before ++ k :: later)) = front.length + before.length + (m + 1))
    (size' : blockSize t (front ++ (after ++ (k :: later).map (move z z'))) =
      front.length + after.length + (m + 1)) :
    List.Forall₂ (Moved a z z') (scan st (t :: (front ++ (before ++ k :: later))))
      (scan st (t :: (front ++ (after ++ (k :: later).map (move z z'))))) := by
  have outside : ∀ u ∈ later.drop m, Behind a z u := fun u hu => h.behind u (List.mem_of_mem_drop hu)
  have inside : ∀ u ∈ later.take m, Behind a z u := fun u hu => h.behind u (List.mem_of_mem_take hu)
  cases found : (header? st).isSome with
  | false =>
    have whole : st.reverse ++ t :: front = (front.reverse ++ t :: st).reverse := by simp
    rw [scan_cons_of_block _ ends block found, scan_cons_of_block _ ends block found, size, size',
      take_append_append, take_append_append, drop_append_append, drop_append_append]
    have := scan_of_twins ((h.twins (whole ▸ ahead)).append inside) outside
    simpa using this
  | true =>
    obtain ⟨first, last⟩ := getLast?_of_header found
    obtain ⟨f, scan_f, f_start, f_stop⟩ := scan_cons_of_body _ ends block found last
    obtain ⟨g, scan_g, g_start, g_stop⟩ := scan_cons_of_body _ ends block found last
    rw [scan_f, scan_g, size, size', drop_append_append, drop_append_append, List.drop_succ_cons,
      List.map_cons, List.drop_succ_cons, ← List.map_drop]
    rw [size, take_append_append, List.take_succ_cons, getLastD_append_append] at f_stop
    rw [size', take_append_append, List.map_cons, List.take_succ_cons, getLastD_append_append,
      ← List.map_take, getLastD_map] at g_stop
    have start : f.start ≤ a := by
      rw [f_start]
      exact ahead.start (List.mem_append_left _ (List.mem_reverse.2 (List.mem_of_mem_getLast? last)))
    have close : z ≤ ((later.take m).getLastD k).start ∧ a < ((later.take m).getLastD k).stop := by
      have member := List.getLastD_mem_cons (l := later.take m) (a := k)
      rcases List.mem_cons.1 member with same | member
      · rw [same]
        exact ⟨h.start, h.stop⟩
      · exact ⟨(inside _ member).1, (inside _ member).lt_stop⟩
    refine List.Forall₂.cons ⟨Or.inl start, Or.inr ?_, ?_, ?_⟩ (scan_of_twins twins_nil outside)
    · rw [f_stop]
      exact Nat.le_trans close.1 (Nat.le_add_right _ _)
    · rw [relocate, if_pos start, f_start, g_start]
    · rw [f_stop, g_stop, relocate_stop close.1 close.2]

/-- A definition whose body ends in front of the exchange. -/
theorem Ahead.exists_body {st front : List Token} {t : Token}
    (ahead : Ahead a before (st.reverse ++ t :: front))
    (ends : (t.isDirective || t.isPunct ';') = false) (block : t.isPunct '\x7b' = true) {m : Nat}
    (inside : m + 1 ≤ front.length) {us vs : List Token} (size : blockSize t (front ++ us) = m + 1)
    (size' : blockSize t (front ++ vs) = m + 1) (found : (header? st).isSome = true) :
    ∃ f g, scan st (t :: (front ++ us)) = f :: scan [] (front.drop (m + 1) ++ us) ∧
      scan st (t :: (front ++ vs)) = g :: scan [] (front.drop (m + 1) ++ vs) ∧ Moved a z z' f g := by
  obtain ⟨first, last⟩ := getLast?_of_header found
  obtain ⟨f, scan_f, f_start, f_stop⟩ := scan_cons_of_body (front ++ us) ends block found last
  obtain ⟨g, scan_g, g_start, g_stop⟩ := scan_cons_of_body (front ++ vs) ends block found last
  rw [size, List.drop_append_of_le_length inside] at scan_f
  rw [size', List.drop_append_of_le_length inside] at scan_g
  rw [size, List.take_append_of_le_length inside] at f_stop
  rw [size', List.take_append_of_le_length inside] at g_stop
  have first_mem : first ∈ st.reverse ++ t :: front :=
    List.mem_append_left _ (List.mem_reverse.2 (List.mem_of_mem_getLast? last))
  have last_mem : (front.take (m + 1)).getLastD t ∈ st.reverse ++ t :: front :=
    List.mem_append_right _ (((List.take_sublist (m + 1) front).cons_cons t).mem
      List.getLastD_mem_cons)
  exact ⟨f, g, scan_f, scan_g, ahead.moved first_mem last_mem f_start f_stop g_start g_stop⟩

theorem Exchange.moved_scan (h : Exchange a z z' before after k later) {st front : List Token}
    (ahead : Ahead a before (st.reverse ++ front)) :
    List.Forall₂ (Moved a z z') (scan st (front ++ (before ++ k :: later)))
      (scan st (front ++ (after ++ (k :: later).map (move z z')))) := by
  have k_inside : (k.isDirective || k.isPunct ';') = false ∧ k.isPunct '\x7b' = false := by
    have kind := of_decide_eq_true h.identifier
    simp [isDirective, isPunct, kind]
  induction len : front.length using Nat.strongRecOn generalizing st front with
  | ind n ih =>
    cases front with
    | nil =>
      rw [List.append_nil] at ahead
      rw [List.nil_append, List.nil_append, scan_append_of_flat h.old, scan_append_of_flat h.new,
        List.map_cons, scan_cons_of_other later k_inside.1 k_inside.2,
        scan_cons_of_other (t := k.move z z') _ k_inside.1 k_inside.2]
      exact scan_of_twins (h.twins ahead) h.behind
    | cons t front =>
      have shorter : front.length < n := by
        rw [← len]
        exact Nat.lt_succ_self _
      have regroup : st.reverse ++ t :: front = (t :: st).reverse ++ front := by simp
      rw [List.cons_append, List.cons_append]
      cases ends : t.isDirective || t.isPunct ';' with
      | true =>
        rw [scan_cons_of_ends _ ends, scan_cons_of_ends _ ends]
        exact ih front.length shorter (regroup ▸ ahead).of_append rfl
      | false =>
        cases block : t.isPunct '\x7b' with
        | false =>
          rw [scan_cons_of_other _ ends block, scan_cons_of_other _ ends block]
          exact ih front.length shorter (regroup ▸ ahead) rfl
        | true =>
          rcases h.blockSize_cases block front with ⟨m, inside, size, size'⟩ | ⟨m, size, size'⟩
          · -- The block ends in front of the exchange.
            have shorter' : (front.drop (m + 1)).length < n := by
              rw [List.length_drop]
              omega
            have regroup' : st.reverse ++ t :: front =
                ((front.take (m + 1)).reverse ++ t :: st).reverse ++ front.drop (m + 1) := by simp
            cases found : (header? st).isSome with
            | false =>
              rw [scan_cons_of_block _ ends block found, scan_cons_of_block _ ends block found, size,
                size', List.take_append_of_le_length inside, List.take_append_of_le_length inside,
                List.drop_append_of_le_length inside, List.drop_append_of_le_length inside]
              exact ih _ shorter' (regroup' ▸ ahead) rfl
            | true =>
              obtain ⟨f, g, old, new, moved⟩ := ahead.exists_body ends block inside size size' found
              rw [old, new]
              exact List.Forall₂.cons moved (ih _ shorter' (regroup' ▸ ahead).of_append rfl)
          · exact h.moved_scan_of_block ahead ends block size size'

end Exchange

end ShaderPass.FunctionDef
