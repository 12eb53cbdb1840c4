import ShaderPass.FunctionDef
import ShaderPass.Proofs.Text.Offset

/-! Where tokens and functions stand: tokens follow one another at character boundaries, and function
definitions are disjoint ranges from the start of a token to the end of one. -/
namespace ShaderPass
namespace Token

def StandsIn (t : Text) (token : Token) : Prop :=
  ∃ a b, t = a ++ (token.lexeme ++ b) ∧ Text.byteLen a = token.start

theorem StandsIn.isBoundary_start {t : Text} {token : Token} (h : token.StandsIn t) :
    Text.IsBoundary t token.start := by
  obtain ⟨a, b, rfl, start⟩ := h
  exact ⟨a, _, rfl, start⟩

theorem StandsIn.isBoundary_stop {t : Text} {token : Token} (h : token.StandsIn t) :
    Text.IsBoundary t token.stop := by
  obtain ⟨a, b, rfl, start⟩ := h
  exact ⟨a ++ token.lexeme, b, by rw [List.append_assoc], by
    rw [Text.byteLen_append, start, stop]⟩

theorem exists_cons_of_mem_pieces {lineStart : Bool} {t : Text} {kind : TokenKind} {lexeme : Text}
    (h : (kind, lexeme) ∈ pieces lineStart t) :
    ∃ c rest, lexeme = c :: rest ∧ (kind ≠ .blank → isTokenBlank c = false) := by
  fun_induction pieces lineStart t with
  | case1 => simp at h
  | case2 lineStart c t kind' more classified lexeme' ih =>
    rcases List.mem_cons.1 h with h | h
    · obtain ⟨rfl, rfl⟩ := Prod.mk.inj h
      refine ⟨c, _, rfl, fun not_blank => ?_⟩
      cases blank : isTokenBlank c with
      | false => rfl
      | true =>
        rw [classify, if_pos blank] at classified
        exact absurd (Prod.mk.inj classified).1.symm not_blank
    · exact ih h

theorem start_le_of_mem_place {start : Nat} {ps : List (TokenKind × Text)} {token : Token}
    (h : token ∈ place start ps) : start ≤ token.start := by
  induction ps generalizing start with
  | nil => simp [place] at h
  | cons p ps ih =>
    rw [place, List.mem_cons] at h
    rcases h with rfl | h
    · exact Nat.le_refl _
    · exact Nat.le_trans (Nat.le_add_right _ _) (ih h)

theorem pairwise_place (start : Nat) (ps : List (TokenKind × Text)) :
    (place start ps).Pairwise fun a b => a.stop ≤ b.start := by
  induction ps generalizing start with
  | nil => exact List.Pairwise.nil
  | cons p ps ih =>
    rw [place, List.pairwise_cons]
    exact ⟨fun b h => start_le_of_mem_place h, ih _⟩

theorem standsIn_of_mem_place {before : Text} {ps : List (TokenKind × Text)} {token : Token}
    (h : token ∈ place (Text.byteLen before) ps) :
    token.StandsIn (before ++ (ps.map Prod.snd).flatten) ∧ (token.kind, token.lexeme) ∈ ps := by
  induction ps generalizing before with
  | nil => simp [place] at h
  | cons p ps ih =>
    rw [place, List.mem_cons] at h
    rcases h with rfl | h
    · exact ⟨⟨before, (ps.map Prod.snd).flatten, by simp, rfl⟩, List.mem_cons_self⟩
    · rw [← Text.byteLen_append] at h
      obtain ⟨stands, member⟩ := ih h
      refine ⟨?_, List.mem_cons_of_mem _ member⟩
      rwa [List.append_assoc] at stands

theorem standsIn_of_mem_scan {t : Text} {token : Token} (h : token ∈ scan t) :
    token.StandsIn t ∧ (token.kind, token.lexeme) ∈ pieces true t := by
  have stands := @standsIn_of_mem_place [] _ _ h
  rwa [List.nil_append, flatten_pieces] at stands

theorem start_lt_stop_of_mem_scan {t : Text} {token : Token} (h : token ∈ scan t) :
    token.start < token.stop := by
  obtain ⟨c, rest, lexeme, -⟩ := exists_cons_of_mem_pieces (standsIn_of_mem_scan h).2
  have := c.utf8Size_pos
  rw [stop, lexeme, Text.byteLen_cons]
  omega

def Ordered (ts : List Token) : Prop :=
  ts.Pairwise (fun a b => a.stop ≤ b.start) ∧ ∀ a ∈ ts, a.start < a.stop

theorem Ordered.sublist {ts us : List Token} (h : Ordered us) (sub : ts.Sublist us) : Ordered ts :=
  ⟨h.1.sublist sub, fun a ha => h.2 a (sub.mem ha)⟩

theorem Ordered.start_le_of_head? {ts : List Token} (h : Ordered ts) {first token : Token}
    (head : ts.head? = some first) (member : token ∈ ts) : first.start ≤ token.start := by
  obtain ⟨ts, rfl⟩ := List.head?_eq_some_iff.1 head
  rcases List.mem_cons.1 member with rfl | member
  · exact Nat.le_refl _
  · have before := (List.pairwise_cons.1 h.1).1 token member
    have := h.2 first List.mem_cons_self
    omega

theorem ordered_significant (t : Text) : Ordered (significant t) := by
  have sub : (significant t).Sublist (scan t) := List.filter_sublist
  exact ⟨(pairwise_place 0 _).sublist sub, fun a ha => start_lt_stop_of_mem_scan (sub.mem ha)⟩

theorem mem_scan_of_mem_significant {t : Text} {token : Token} (h : token ∈ significant t) :
    token ∈ scan t :=
  (List.mem_filter.1 h).1

theorem standsIn_of_mem_significant {t : Text} {token : Token} (h : token ∈ significant t) :
    token.StandsIn t :=
  (standsIn_of_mem_scan (mem_scan_of_mem_significant h)).1

theorem mem_pieces_of_mem_significant {t : Text} {token : Token} (h : token ∈ significant t) :
    (token.kind, token.lexeme) ∈ pieces true t :=
  (standsIn_of_mem_scan (mem_scan_of_mem_significant h)).2

theorem exists_cons_of_mem_significant {t : Text} {token : Token} (h : token ∈ significant t) :
    ∃ c rest, token.lexeme = c :: rest ∧ isTokenBlank c = false := by
  obtain ⟨member, meant⟩ := List.mem_filter.1 h
  obtain ⟨c, rest, lexeme, not_blank⟩ :=
    exists_cons_of_mem_pieces (standsIn_of_mem_scan member).2
  refine ⟨c, rest, lexeme, not_blank fun blank => ?_⟩
  simp [isTrivia, blank] at meant

end Token

namespace FunctionDef

def BoundedBy (f : FunctionDef) (ts : List Token) : Prop :=
  ∃ first ∈ ts, ∃ param ∈ ts, ∃ last ∈ ts, f.start = first.start ∧ f.paramStop = param.stop ∧
    f.stop = last.stop ∧ f.start ≤ f.paramStop ∧ f.paramStop < f.stop

theorem BoundedBy.mono {f : FunctionDef} {ts us : List Token} (h : f.BoundedBy ts)
    (sub : ∀ a ∈ ts, a ∈ us) : f.BoundedBy us := by
  obtain ⟨first, hf, param, hp, last, hl, rest⟩ := h
  exact ⟨first, sub _ hf, param, sub _ hp, last, sub _ hl, rest⟩

theorem boundedBy_scan (statement ts : List Token)
    (ordered : Token.Ordered (statement.reverse ++ ts)) :
    (∀ f ∈ scan statement ts, f.BoundedBy (statement.reverse ++ ts)) ∧
      (scan statement ts).Pairwise fun f g => f.stop ≤ g.start := by
  fun_induction scan statement ts with
  | case1 => simp
  | case2 statement t ts ends ih =>
    have sub : ts.Sublist (statement.reverse ++ t :: ts) :=
      (List.sublist_cons_self t ts).trans (List.sublist_append_right _ _)
    obtain ⟨bounded, apart⟩ := ih (by simpa using ordered.sublist sub)
    exact ⟨fun f hf => (bounded f hf).mono fun a ha => sub.mem (by simpa using ha), apart⟩
  | case3 statement t ts _ _ n type name last first first_eq last_eq _ ih =>
    have sub : (ts.drop n).Sublist (statement.reverse ++ t :: ts) :=
      ((List.drop_sublist n ts).trans (List.sublist_cons_self t ts)).trans
        (List.sublist_append_right _ _)
    obtain ⟨bounded, apart⟩ := ih (by simpa using ordered.sublist sub)
    have first_head : (statement.reverse ++ t :: ts).head? = some first := by
      rw [List.head?_append, List.head?_reverse, first_eq, Option.some_or]
    have first_mem := List.mem_of_mem_head? first_head
    have last_mem : last ∈ statement.reverse := by simpa using List.mem_of_mem_head? last_eq
    have close_mem : (ts.take n).getLastD t ∈ t :: ts.take n := List.getLastD_mem_cons
    have regroup : statement.reverse ++ t :: ts =
        statement.reverse ++ ((t :: ts.take n) ++ ts.drop n) := by simp
    obtain ⟨-, -, across⟩ := List.pairwise_append.1 ordered.1
    obtain ⟨-, inner, -⟩ := List.pairwise_append.1 (regroup ▸ ordered.1)
    obtain ⟨-, -, later⟩ := List.pairwise_append.1 inner
    have close_tail : (ts.take n).getLastD t ∈ t :: ts :=
      ((List.take_sublist n ts).cons_cons t).mem close_mem
    have last_le : last.stop ≤ ((ts.take n).getLastD t).start := across last last_mem _ close_tail
    have close_all : (ts.take n).getLastD t ∈ statement.reverse ++ t :: ts :=
      List.mem_append_right _ close_tail
    have last_all : last ∈ statement.reverse ++ t :: ts := List.mem_append_left _ last_mem
    have first_le := ordered.start_le_of_head? first_head last_all
    have last_fills := ordered.2 last last_all
    have close_fills := ordered.2 _ close_all
    constructor
    · intro f hf
      rcases List.mem_cons.1 hf with rfl | hf
      · exact ⟨first, first_mem, last, last_all, _, close_all, rfl, rfl, rfl,
          by simp only; omega, by simp only; omega⟩
      · exact (bounded f hf).mono fun a ha => sub.mem (by simpa using ha)
    · rw [List.pairwise_cons]
      refine ⟨fun g hg => ?_, apart⟩
      obtain ⟨start, start_mem, -, -, -, -, start_eq, -⟩ := bounded g hg
      simp only [start_eq]
      exact later _ close_mem start (by simpa using start_mem)
  | case4 statement t ts _ _ n _ ih =>
    have regroup : ((ts.take n).reverse ++ t :: statement).reverse ++ ts.drop n =
        statement.reverse ++ t :: ts := by simp
    rw [regroup] at ih
    exact ih ordered
  | case5 statement t ts _ _ ih =>
    have regroup : (t :: statement).reverse ++ ts = statement.reverse ++ t :: ts := by simp
    rw [regroup] at ih
    exact ih ordered

theorem boundedBy_find (t : Text) :
    (∀ f ∈ find t, f.BoundedBy (Token.significant t)) ∧
      (find t).Pairwise fun f g => f.stop ≤ g.start := by
  obtain ⟨bounded, apart⟩ :=
    boundedBy_scan [] (Token.significant t) (by simpa using Token.ordered_significant t)
  constructor
  · intro f hf
    obtain ⟨g, hg, rfl⟩ := List.mem_map.1 hf
    exact bounded g hg
  · exact List.pairwise_map.2 apart

end FunctionDef
end ShaderPass
