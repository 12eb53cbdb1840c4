import ShaderPass.Proofs.FunctionDef.Sequence
import ShaderPass.Proofs.Token.Appending

/-! Function definitions of a text with something appended to it. What is found in the text is found
again, and then what is found in the tokens behind it, unless a block of the text that nothing closes
takes them in. -/
namespace ShaderPass

open Token ShaderPass.Bracket
open LiveCode (wording)

namespace Bracket

theorem level_nil (b : Bracket) : b.Level [] :=
  ⟨rfl, fun _ front => Int.le_of_eq (by rw [List.prefix_nil.1 front, depth_nil])⟩

theorem Level.closeAfter_eq_none {b : Bracket} {us : List Token} (h : b.Level us) {d : Nat}
    (positive : 1 ≤ d) : closeAfter b d us = none := by
  have := h.closeAfter_append positive []
  rwa [List.append_nil, closeAfter, Option.map_none] at this

theorem closeOffset?_append_of_none {b : Bracket} (hb : b ∈ all) {t : Token} {ts us : List Token}
    (opens : t.isPunct b.opening = true) (open_still : closeOffset? (t :: ts) = none) (level : b.Level us) :
    closeOffset? (t :: (ts ++ us)) = none := by
  rw [closeOffset?_cons hb opens] at open_still ⊢
  split at open_still
  · have inner : closeAfter b 1 ts = none := Option.map_eq_none_iff.1 open_still
    have deep := pos_of_closeAfter_eq_none (Nat.le_refl 1) inner
    have positive := deep ts (List.prefix_refl ts)
    rw [if_pos ‹_›, closeAfter_append_of_pos deep, level.closeAfter_eq_none (by omega)]
    rfl
  · rw [if_neg ‹_›]

theorem weight_eq_zero_iff {b : Bracket} {t : Token} :
    b.weight t = 0 ↔ t.isPunct b.opening = false ∧ t.isPunct b.closing = false := by
  rw [weight]
  cases t.isPunct b.opening <;> cases t.isPunct b.closing <;> decide

theorem Level.cons {b : Bracket} {t : Token} {us : List Token} (plain : b.weight t = 0) (h : b.Level us) :
    b.Level (t :: us) := by
  refine ⟨by rw [depth_cons, plain, h.total]; rfl, fun vs front => ?_⟩
  cases vs with
  | nil => exact Int.le_refl _
  | cons v vs =>
    obtain ⟨rfl, inner⟩ := List.cons_prefix_cons.1 front
    rw [depth_cons, plain, Int.zero_add]
    exact h.front vs inner

theorem Level.append_plain {b : Bracket} {ts us : List Token} (plain : ∀ t ∈ ts, b.weight t = 0)
    (h : b.Level us) : b.Level (ts ++ us) := by
  induction ts with
  | nil => exact h
  | cons t ts ih =>
    exact (ih fun u hu => plain u (List.mem_cons_of_mem _ hu)).cons (plain t List.mem_cons_self)

theorem Level.block {b : Bracket} {first last : Token} {us : List Token} (opens : b.weight first = 1)
    (closes : b.weight last = -1) (h : b.Level us) : b.Level (first :: (us ++ [last])) := by
  have total := h.total
  refine ⟨by simp [opens, closes, total], fun vs front => ?_⟩
  cases vs with
  | nil => exact Int.le_refl _
  | cons v vs =>
    obtain ⟨rfl, inner⟩ := List.cons_prefix_cons.1 front
    rcases List.prefix_concat_iff.1 inner with rfl | inner
    · simp [opens, closes, total]
    · have := h.front vs inner
      rw [depth_cons, opens]
      omega

end Bracket

namespace FunctionDef

def names (statement ts : List Token) : List String :=
  (scan statement ts).map FunctionDef.name

theorem map_name_find (t : Text) : (find t).map FunctionDef.name = names [] (significant t) := by
  rw [find, List.map_map]
  rfl

structure Adds (us : List Token) (added : List String) : Prop where
  level : brace.Level us
  names_eq : ∀ statement, names statement us = added

theorem blockSize_append {t : Token} {ts : List Token} (block : t.isPunct '\x7b' = true) {n : Nat}
    (closed : closeOffset? (t :: ts) = some n) (us : List Token) :
    n ≤ ts.length ∧ blockSize t (ts ++ us) = n := by
  obtain ⟨size, length, -⟩ := blockSize_append_of_closed block closed (ts.drop n ++ us)
  rw [← List.append_assoc, List.take_append_drop] at size
  rw [List.length_take] at length
  exact ⟨by omega, size⟩

theorem exists_names_append (statement ts : List Token) : ∃ searched : Bool, ∀ us added, Adds us added →
    names statement (ts ++ us) = names statement ts ++ if searched then added else [] := by
  have brace_mem : brace ∈ all := mem_all_iff.2 (Or.inr (Or.inr rfl))
  fun_induction scan statement ts with
  | case1 statement =>
    refine ⟨true, fun us added adds => ?_⟩
    rw [List.nil_append, adds.names_eq, names, scan]
    rfl
  | case2 statement t ts ends ih =>
    obtain ⟨searched, names_eq⟩ := ih
    refine ⟨searched, fun us added adds => ?_⟩
    rw [List.cons_append, names, scan_cons_of_ends _ ends, names, scan_cons_of_ends _ ends]
    exact names_eq us added adds
  | case3 statement t ts inside block n type name last first first_eq last_eq header ih =>
    rw [Bool.not_eq_true] at inside
    have cut (us : List Token) : names statement (t :: us) =
        name.name :: names [] (us.drop (blockSize t us)) := by
      rw [names, scan_cons_of_header us inside block header last_eq first_eq]
      rfl
    cases closed : closeOffset? (t :: ts) with
    | some m =>
      obtain ⟨searched, names_eq⟩ := ih
      refine ⟨searched, fun us added adds => ?_⟩
      have size' : blockSize t ts = n := rfl
      obtain rfl : n = m := by simp [n, closed]
      obtain ⟨le, size⟩ := blockSize_append block closed us
      rw [List.cons_append, cut, cut, size, size', List.drop_append_of_le_length le,
        names_eq us added adds, List.cons_append]
    | none =>
      -- The body is open at the end of the tokens, and level tokens do not close it.
      refine ⟨false, fun us added adds => ?_⟩
      have open_still := closeOffset?_append_of_none brace_mem block closed adds.level
      rw [List.cons_append, cut, cut, blockSize, open_still, blockSize, closed, Option.getD_none,
        List.drop_length, Option.getD_none, List.drop_length]
      exact (List.append_nil _).symm
  | case4 statement t ts inside block n no_header ih =>
    rw [Bool.not_eq_true] at inside
    have no_header := isSome_header?_of_parts no_header
    have cut (us : List Token) : names statement (t :: us) =
        names ((us.take (blockSize t us)).reverse ++ t :: statement) (us.drop (blockSize t us)) := by
      rw [names, scan_cons_of_block us inside block no_header]
      rfl
    cases closed : closeOffset? (t :: ts) with
    | some m =>
      obtain ⟨searched, names_eq⟩ := ih
      refine ⟨searched, fun us added adds => ?_⟩
      have size' : blockSize t ts = n := rfl
      obtain rfl : n = m := by simp [n, closed]
      obtain ⟨le, size⟩ := blockSize_append block closed us
      rw [List.cons_append, cut, cut, size, size', List.take_append_of_le_length le,
        List.drop_append_of_le_length le, names_eq us added adds]
    | none =>
      refine ⟨false, fun us added adds => ?_⟩
      have open_still := closeOffset?_append_of_none brace_mem block closed adds.level
      rw [List.cons_append, cut, cut, blockSize, open_still, blockSize, closed, Option.getD_none,
        List.drop_length, Option.getD_none, List.drop_length, names, scan, names, scan]
      rfl
  | case5 statement t ts inside no_block ih =>
    rw [Bool.not_eq_true] at inside no_block
    obtain ⟨searched, names_eq⟩ := ih
    refine ⟨searched, fun us added adds => ?_⟩
    rw [List.cons_append, names, scan_cons_of_other _ inside no_block, names,
      scan_cons_of_other _ inside no_block]
    exact names_eq us added adds

theorem adds_nil : Adds [] [] :=
  ⟨level_nil brace, fun statement => by rw [names, scan]; rfl⟩

theorem exists_names_plain {ts : List Token} (plain : ∀ t ∈ ts, brace.weight t = 0)
    (statement : List Token) : ∃ statement', ∀ us, names statement (ts ++ us) = names statement' us := by
  induction ts generalizing statement with
  | nil => exact ⟨statement, fun _ => rfl⟩
  | cons t ts ih =>
    have later := ih fun u hu => plain u (List.mem_cons_of_mem _ hu)
    have no_block := (weight_eq_zero_iff.1 (plain t List.mem_cons_self)).1
    cases ends : t.isDirective || t.isPunct ';' with
    | true =>
      obtain ⟨statement', names_eq⟩ := later []
      refine ⟨statement', fun us => ?_⟩
      rw [← names_eq, List.cons_append, names, scan_cons_of_ends _ ends]
      rfl
    | false =>
      obtain ⟨statement', names_eq⟩ := later (t :: statement)
      refine ⟨statement', fun us => ?_⟩
      rw [← names_eq, List.cons_append, names, scan_cons_of_other _ ends no_block]
      rfl

theorem Adds.append_plain {ts us : List Token} {added : List String}
    (plain : ∀ t ∈ ts, brace.weight t = 0) (h : Adds us added) : Adds (ts ++ us) added := by
  refine ⟨h.level.append_plain plain, fun statement => ?_⟩
  obtain ⟨statement', names_eq⟩ := exists_names_plain plain statement
  rw [names_eq, h.names_eq]

theorem adds_of_plain {ts : List Token} (plain : ∀ t ∈ ts, brace.weight t = 0) : Adds ts [] := by
  rw [← List.append_nil ts]
  exact adds_nil.append_plain plain

theorem exists_of_wording_cons {us : List Token} {kind : TokenKind} {lexeme : Text}
    {ps : List (TokenKind × Text)} (tokens : wording us = (kind, lexeme) :: ps) :
    ∃ n later, us = ⟨kind, lexeme, n⟩ :: later ∧ wording later = ps := by
  obtain ⟨⟨_, _, n⟩, later, rfl, here, rest⟩ := List.map_eq_cons_iff.1 tokens
  obtain ⟨rfl, rfl⟩ := Prod.mk.inj here
  exact ⟨n, later, rfl, rest⟩

theorem adds_of_wording {us : List Token} {type name : Text} {body : List (TokenKind × Text)}
    (tokens : wording us = (.identifier, type) :: (.identifier, name) :: (.punct, ['(']) ::
      (.punct, [')']) :: (.punct, ['\x7b']) :: (body ++ [(.punct, ['\x7d'])]))
    (plain : ∀ k : Token, (k.kind, k.lexeme) ∈ body → brace.weight k = 0) :
    Adds us [String.ofList name] := by
  obtain ⟨n₁, us₁, rfl, tokens₁⟩ := exists_of_wording_cons tokens
  obtain ⟨n₂, us₂, rfl, tokens₂⟩ := exists_of_wording_cons tokens₁
  obtain ⟨n₃, us₃, rfl, tokens₃⟩ := exists_of_wording_cons tokens₂
  obtain ⟨n₄, us₄, rfl, tokens₄⟩ := exists_of_wording_cons tokens₃
  obtain ⟨n₅, us₅, rfl, tokens₅⟩ := exists_of_wording_cons tokens₄
  obtain ⟨inner, last, rfl, rfl, close⟩ := List.map_eq_append_iff.1 tokens₅
  obtain ⟨n₆, last, rfl, nothing⟩ := exists_of_wording_cons close
  obtain rfl := List.map_eq_nil_iff.1 nothing
  have level : brace.Level inner :=
    (adds_of_plain fun k member => plain k (List.mem_map_of_mem member)).level
  have size : blockSize ⟨.punct, ['\x7b'], n₅⟩ (inner ++ [⟨.punct, ['\x7d'], n₆⟩]) = inner.length + 1 := by
    have brace_mem : brace ∈ all := mem_all_iff.2 (Or.inr (Or.inr rfl))
    have search (ts : List Token) : closeOffset? (⟨.punct, ['\x7b'], n₅⟩ :: ts) =
        (closeAfter brace 1 ts).map (· + 1) := (closeOffset?_cons brace_mem rfl ts).trans (if_pos rfl)
    rw [blockSize, search, level.closeAfter_append (Nat.le_refl 1)]
    exact congrArg (· + 1) (Nat.zero_add _)
  refine ⟨?_, fun statement => ?_⟩
  · exact (((Level.block rfl rfl level).cons rfl).cons rfl).cons rfl |>.cons rfl
  · rw [names, scan_cons_of_other _ rfl rfl, scan_cons_of_other _ rfl rfl, scan_cons_of_other _ rfl rfl,
      scan_cons_of_other _ rfl rfl, scan_cons_of_header _ rfl rfl rfl rfl List.getLast?_cons, size,
      List.drop_eq_nil_of_le (by simp), scan]
    rfl

theorem mem_of_header? {statement : List Token} {type name : Token}
    (header : header? statement = some (type, name)) : name ∈ statement ∧ name.isIdentifier = true := by
  obtain ⟨first, -, header⟩ := Option.bind_eq_some_iff.1 header
  split at header
  · obtain ⟨n, -, header⟩ := Option.bind_eq_some_iff.1 header
    split at header
    · rename_i cut
      split at header
      · rename_i identifiers
        obtain ⟨rfl, rfl⟩ := Prod.mk.inj (Option.some.inj header)
        exact ⟨List.mem_of_mem_drop (cut ▸ List.mem_cons_self), (Bool.and_eq_true_iff.1 identifiers).1⟩
      · cases header
    · cases header
  · cases header

theorem exists_name_of_mem_scan {statement ts : List Token} {f : FunctionDef}
    (member : f ∈ scan statement ts) :
    ∃ k ∈ statement ++ ts, k.isIdentifier = true ∧ f.name = k.name := by
  fun_induction scan statement ts with
  | case1 => cases member
  | case2 statement t ts ends ih =>
    obtain ⟨k, inside, named⟩ := ih member
    exact ⟨k, by simp_all, named⟩
  | case3 statement t ts inside block n type name last first first_eq last_eq header ih =>
    rcases List.mem_cons.1 member with rfl | member
    · obtain ⟨inside, identifier⟩ := mem_of_header? header
      exact ⟨name, List.mem_append_left _ inside, identifier, rfl⟩
    · obtain ⟨k, inside, named⟩ := ih member
      have later : k ∈ ts := List.mem_of_mem_drop inside
      exact ⟨k, by simp [later], named⟩
  | case4 statement t ts inside block n no_header ih =>
    obtain ⟨k, inside, named⟩ := ih member
    refine ⟨k, ?_, named⟩
    rcases List.mem_append.1 inside with inside | inside
    · rcases List.mem_append.1 inside with inside | inside
      · simp [List.mem_of_mem_take (List.mem_reverse.1 inside)]
      · rcases List.mem_cons.1 inside with rfl | inside <;> simp [*]
    · simp [List.mem_of_mem_drop inside]
  | case5 statement t ts inside no_block ih =>
    obtain ⟨k, inside, named⟩ := ih member
    exact ⟨k, by simp_all [or_left_comm], named⟩

/-- The names that a text defines with something behind it: the same ones first, and then those that the
tokens of what is left over define, or none. -/
theorem exists_names_text {s : Text} (visible : ∀ c ∈ s.getLast?, isTokenBlank c = false) :
    ∃ first, ∀ x, Apart x → ∀ P : List String → Prop, P [] →
      (∀ rest, Left x rest → ∀ n lineStart, ∃ added, P added ∧ Adds (sig n (pieces lineStart rest)) added) →
      ∃ added, P added ∧ names [] (significant (s ++ x)) = first ++ added := by
  obtain ⟨ts, tokens⟩ := exists_sig_append visible true 0
  obtain ⟨searched, names_eq⟩ := exists_names_append [] ts
  refine ⟨names [] ts, fun x apart P none adds => ?_⟩
  obtain ⟨front, n, lineStart, rest, cut, directives, left⟩ := tokens x apart
  obtain ⟨added, allowed, later⟩ := adds rest left n lineStart
  have plain : ∀ k ∈ front, brace.weight k = 0 := by
    intro k member
    have directive : k.kind = .directive := of_decide_eq_true (directives k member)
    simp [weight, isPunct, directive]
  have whole : names [] (significant (s ++ x)) = names [] ts ++ if searched then added else [] := by
    rw [show significant (s ++ x) = _ from cut]
    exact names_eq _ _ (later.append_plain plain)
  cases searched with
  | false => exact ⟨[], none, whole⟩
  | true => exact ⟨added, allowed, whole⟩

end FunctionDef
end ShaderPass
