import ShaderPass.Proofs.Token.Stripping

/-! Words exchanged for names or for elements of arrays: comments stay comments, so the next token is the
same punctuation as before. -/
namespace ShaderPass.Token

open Text

def Inert (r : Text) : Prop :=
  r.head?.any isIdentChar = true ∧ ∀ c ∈ r, c ≠ '*' ∧ c ≠ '\n'

def Leads (stop : Char) (lineStart : Bool) (t : Text) : Prop :=
  ∃ n k later, sig n (pieces lineStart t) = k :: later ∧ k.isPunct stop = true

section Inert

variable {R : Text → Text → Text → Prop} {s t w r : Text}

theorem inert_of_isWord (isWord : IsWord w) : Inert w := by
  obtain ⟨c, more, rfl⟩ := List.exists_cons_of_ne_nil isWord.1
  refine ⟨isWord.2 c List.mem_cons_self, fun d member => ⟨?_, ?_⟩⟩
  · rintro rfl
    cases isWord.2 _ member
  · rintro rfl
    cases isWord.2 _ member

theorem head?_append_of_inert (inert : Inert r) (t : Text) :
    ∃ c more, r ++ t = c :: more ∧ isIdentChar c = true := by
  obtain ⟨ident, -⟩ := inert
  cases r with
  | nil => cases ident
  | cons c r => exact ⟨c, r ++ t, rfl, ident⟩

theorem dropWhile_append_of_inert (inert : Inert r) (t : Text) :
    (r ++ t).dropWhile (· ≠ '\n') = t.dropWhile (· ≠ '\n') :=
  List.dropWhile_append_of_pos fun c member => decide_eq_true (inert.2 c member).2

theorem drop_blockCommentLength_of_inert (inert : Inert r) (t : Text) :
    (r ++ t).drop (blockCommentLength (r ++ t)) = t.drop (blockCommentLength t) := by
  have no_star := fun c member => (inert.2 c member).1
  clear inert
  induction r with
  | nil => rfl
  | cons c r ih =>
    rw [List.cons_append, blockCommentLength_cons, if_neg fun closes =>
      no_star c List.mem_cons_self closes.1, List.drop_succ_cons]
    exact ih fun d member => no_star d (List.mem_cons_of_mem _ member)

variable (inert : ∀ w rest r, IsWord w → R w rest r → Inert r)
include inert

theorem notMem_of_reworded {c : Char} (h : Reworded R s t) (free : c ∉ s)
    (never : ∀ r, Inert r → c ∉ r) : c ∉ t := by
  induction h with
  | nil => exact free
  | char _ _ ih =>
    rw [List.mem_cons, not_or] at free ⊢
    exact ⟨free.1, ih free.2⟩
  | word isWord _ admits _ ih =>
    rw [List.mem_append, not_or] at free ⊢
    exact ⟨never _ (inert _ _ _ isWord admits), ih free.2⟩

theorem inert_of_reworded (h : Reworded R s t) (some_inert : Inert s) : Inert t := by
  refine ⟨?_, fun c member => ⟨?_, ?_⟩⟩
  · cases h with
    | nil => exact some_inert.1
    | char _ _ => exact some_inert.1
    | @word _ r _ t isWord _ admits _ =>
      obtain ⟨c, more, shape, ident⟩ := head?_append_of_inert (inert _ _ _ isWord admits) t
      rw [shape]
      exact ident
  · rintro rfl
    exact notMem_of_reworded inert h (fun m => (some_inert.2 _ m).1 rfl)
      (fun r hr m => (hr.2 _ m).1 rfl) member
  · rintro rfl
    exact notMem_of_reworded inert h (fun m => (some_inert.2 _ m).2 rfl)
      (fun r hr m => (hr.2 _ m).2 rfl) member

theorem head?_of_reworded {c : Char} (plain : isIdentChar c = false) (h : Reworded R s t) :
    t.head? = some c ↔ s.head? = some c := by
  cases h with
  | nil => exact Iff.rfl
  | char _ _ => exact Iff.rfl
  | @word w r s t isWord _ admits _ =>
    obtain ⟨d, more, shape, ident⟩ := head?_append_of_inert (inert _ _ _ isWord admits) t
    obtain ⟨d', more', shape', ident'⟩ := head?_append_of_inert (inert_of_isWord isWord) s
    rw [shape, shape']
    constructor
    · intro head
      obtain rfl := Option.some.inj head
      rw [plain] at ident
      cases ident
    · intro head
      obtain rfl := Option.some.inj head
      rw [plain] at ident'
      cases ident'

theorem reworded_dropWhile (h : Reworded R s t) :
    Reworded R (s.dropWhile (· ≠ '\n')) (t.dropWhile (· ≠ '\n')) := by
  induction h with
  | nil => exact .nil
  | @char c _ _ plain later ih =>
    by_cases feed : c = '\n'
    · subst feed
      exact .char plain later
    · rw [List.dropWhile_cons_of_pos (by simpa using feed), List.dropWhile_cons_of_pos (by simpa using feed)]
      exact ih
  | word isWord _ admits _ ih =>
    rw [dropWhile_append_of_inert (inert_of_isWord isWord),
      dropWhile_append_of_inert (inert _ _ _ isWord admits)]
    exact ih

theorem reworded_drop_blockCommentLength (h : Reworded R s t) :
    Reworded R (s.drop (blockCommentLength s)) (t.drop (blockCommentLength t)) := by
  induction h with
  | nil => exact .nil
  | @char c s t _ later ih =>
    have closes := head?_of_reworded inert (c := '/') rfl later
    rw [blockCommentLength_cons, blockCommentLength_cons]
    by_cases close : c = '*' ∧ s.head? = some '/'
    · rw [if_pos close, if_pos ⟨close.1, closes.2 close.2⟩, List.drop_succ_cons, List.drop_succ_cons]
      obtain ⟨s, rfl⟩ := List.head?_eq_some_iff.1 close.2
      obtain ⟨t, rfl⟩ := List.head?_eq_some_iff.1 (closes.2 close.2)
      obtain ⟨t', same, rest⟩ := later.of_cons (by rfl)
      obtain ⟨-, rfl⟩ := List.cons.inj same
      exact rest
    · rw [if_neg close, if_neg fun close' => close ⟨close'.1, closes.1 close'.2⟩, List.drop_succ_cons,
        List.drop_succ_cons]
      exact ih
  | word isWord _ admits _ ih =>
    rw [drop_blockCommentLength_of_inert (inert_of_isWord isWord),
      drop_blockCommentLength_of_inert (inert _ _ _ isWord admits)]
    exact ih

end Inert

section Leads

variable {stop : Char} {lineStart : Bool} {t : Text}

theorem Leads.of_lineStart (no_hash : stop ≠ '#') (h : Leads stop lineStart t) (lineStart' : Bool) :
    Leads stop lineStart' t := by
  obtain ⟨n, k, later, tokens, punct⟩ := h
  refine ⟨n, k, later, ?_, punct⟩
  rw [sig_of_lineStart fun k' head hash => ?_, tokens]
  rw [tokens] at head
  obtain rfl := Option.some.inj head
  have mark : k.lexeme.head? = some stop := by
    simp only [isPunct, Bool.and_eq_true, decide_eq_true_eq] at punct
    exact punct.2
  rw [hash] at mark
  exact absurd (Option.some.inj mark).symm no_hash

theorem leads_iff_of_sig {lineStart' : Bool} {s : Text} {m : Nat}
    (same : ∀ n, sig n (pieces lineStart s) = sig (n + m) (pieces lineStart' t)) :
    Leads stop lineStart s ↔ Leads stop lineStart' t := by
  constructor
  · rintro ⟨n, k, later, tokens, punct⟩
    exact ⟨n + m, k, later, (same n).symm.trans tokens, punct⟩
  · rintro ⟨n, k, later, tokens, punct⟩
    refine ⟨0, k.move n (0 + m), later.map (move n (0 + m)), ?_, punct⟩
    rw [same, sig_eq_map_move n, tokens, List.map_cons]

theorem leads_cons_iff {c : Char} {kind : TokenKind} {more : Nat}
    (first : classify lineStart c t = (kind, more)) (trivia : kind = .comment ∨ kind = .blank) :
    Leads stop lineStart (c :: t) ↔
      Leads stop (startsLine lineStart kind (c :: t.take more)) (t.drop more) :=
  leads_iff_of_sig fun n => by rw [pieces_cons, first, sig_cons, if_pos trivia]

theorem leads_cons_of_solid {c : Char} {kind : TokenKind} {more : Nat}
    (first : classify lineStart c t = (kind, more)) (solid : ¬ (kind = .comment ∨ kind = .blank)) :
    Leads stop lineStart (c :: t) ↔ kind = .punct ∧ c = stop := by
  have rest (n : Nat) : sig n (pieces lineStart (c :: t)) = ⟨kind, c :: t.take more, n⟩ ::
      sig (n + byteLen (c :: t.take more))
        (pieces (startsLine lineStart kind (c :: t.take more)) (t.drop more)) := by
    rw [pieces_cons, first, sig_cons, if_neg solid]
  have mark (n : Nat) : Token.isPunct stop ⟨kind, c :: t.take more, n⟩ = true ↔ kind = .punct ∧ c = stop := by
    simp [isPunct]
  constructor
  · rintro ⟨n, k, later, tokens, punct⟩
    rw [rest] at tokens
    obtain ⟨rfl, -⟩ := List.cons.inj tokens
    exact (mark n).1 punct
  · intro punct
    exact ⟨0, _, _, rest 0, (mark 0).2 punct⟩

theorem leads_cons_of_blank {c : Char} (no_hash : stop ≠ '#') (blank : isTokenBlank c = true) :
    Leads stop lineStart (c :: t) ↔ Leads stop lineStart t := by
  rw [← List.singleton_append, leads_iff_of_sig fun n => sig_blank (by simpa using blank) n lineStart t]
  exact ⟨fun leads => leads.of_lineStart no_hash _, fun leads => leads.of_lineStart no_hash _⟩

theorem not_leads_of_isIdentChar {c : Char} (ident : isIdentChar c = true) :
    ¬ Leads stop lineStart (c :: t) := by
  intro leads
  obtain ⟨solid, no_slash, no_hash⟩ := solid_of_isIdentChar ident
  rcases first : classify lineStart c t with ⟨kind, more⟩
  cases starts_of_classify first with
  | blank blank =>
    rw [solid] at blank
    cases blank
  | comment _ opens =>
    simp only [opensComment, Bool.and_eq_true, decide_eq_true_eq] at opens
    exact no_slash opens.1
  | directive hash _ => exact no_hash hash
  | identifier _ => cases ((leads_cons_of_solid first (by simp)).1 leads).1
  | number _ _ => cases ((leads_cons_of_solid first (by simp)).1 leads).1
  | punct _ _ _ no_letter no_digit _ =>
    simp only [isIdentChar, Char.isAlphanum, Bool.or_eq_true] at ident
    simp only [isIdentStart, Bool.or_eq_false_iff] at no_letter
    simp_all

theorem leads_of_reworded {R : Text → Text → Text → Prop}
    (inert : ∀ w rest r, IsWord w → R w rest r → Inert r) (no_hash : stop ≠ '#') (no_point : stop ≠ '.')
    {s : Text} (h : Reworded R s t) (leads : Leads stop lineStart t) : Leads stop lineStart s := by
  induction len : t.length using Nat.strongRecOn generalizing s t lineStart with
  | ind n ih =>
    cases h with
    | nil => exact leads
    | @word w r s t isWord _ admits _ =>
      obtain ⟨c, more, shape, ident⟩ := head?_append_of_inert (inert _ _ _ isWord admits) t
      rw [shape] at leads
      exact absurd leads (not_leads_of_isIdentChar ident)
    | @char c s t plain later =>
      have head {d : Char} (apart : isIdentChar d = false) := head?_of_reworded inert apart later
      have opens : opensComment c t = opensComment c s := by
        simp only [opensComment, head (show isIdentChar '/' = false from rfl),
          head (show isIdentChar '*' = false from rfl)]
      by_cases blank : isTokenBlank c = true
      · rw [leads_cons_of_blank no_hash blank] at leads ⊢
        exact ih t.length (by simp [← len]) later leads rfl
      rcases first : classify lineStart c t with ⟨kind, more⟩
      cases starts_of_classify first with
      | blank yes => exact absurd yes blank
      | directive _ _ => cases ((leads_cons_of_solid first (by simp)).1 leads).1
      | identifier _ => cases ((leads_cons_of_solid first (by simp)).1 leads).1
      | number _ _ => cases ((leads_cons_of_solid first (by simp)).1 leads).1
      | punct solid closed no_directive no_letter no_digit _ =>
        obtain ⟨-, rfl⟩ := (leads_cons_of_solid first (by simp)).1 leads
        have single : classify lineStart c s = (.punct, 0) := by
          rw [opens] at closed
          by_cases slash : c = '/' <;> simp_all [classify, opensComment]
        exact (leads_cons_of_solid single (by simp)).2 ⟨rfl, rfl⟩
      | comment _ comment =>
        simp only [opensComment, Bool.and_eq_true, Bool.or_eq_true, decide_eq_true_eq] at comment
        obtain ⟨rfl, line | block⟩ := comment
        · have cut {s : Text} (line : s.head? = some '/') :
              classify lineStart '/' s = (.comment, (s.takeWhile (· ≠ '\n')).length) := by
            simp [classify, isTokenBlank, line]
          rw [leads_cons_iff (cut line) (Or.inl rfl), drop_length_takeWhile] at leads
          rw [leads_cons_iff (cut ((head (by decide)).1 line)) (Or.inl rfl), drop_length_takeWhile]
          have shorter := (List.dropWhile_suffix (· ≠ '\n') (l := t)).length_le
          exact ih _ (by simp only [List.length_cons] at len; omega) (reworded_dropWhile inert later)
            leads rfl
        · have cut {s : Text} (block : s.head? = some '*') :
              classify lineStart '/' s = (.comment, blockCommentLength (s.drop 1) + 1) := by
            simp [classify, isTokenBlank, block]
          obtain ⟨s', rfl⟩ := List.head?_eq_some_iff.1 ((head (by decide)).1 block)
          obtain ⟨t', rfl, rest⟩ := later.of_cons (by rfl)
          rw [leads_cons_iff (cut rfl) (Or.inl rfl)] at leads ⊢
          refine ih _ ?_ (reworded_drop_blockCommentLength inert rest) leads rfl
          simp only [List.length_cons] at len
          simp only [List.length_drop]
          omega

end Leads

end ShaderPass.Token
