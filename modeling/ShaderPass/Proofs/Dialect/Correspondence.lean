import ShaderPass.Proofs.Dialect.Transcoding

/-! Where what stands in a source stands in what it is transcoded to. The result is cut at a place of the
source: a token that no declaration is replaced around is found between what the text in front of it and
the text behind it become. -/
namespace ShaderPass

open Token Compile

namespace Text

section Cut

variable {t : Text} {m n : Nat} {edits : List Edit}

def editsBefore (n : Nat) (edits : List Edit) : List Edit :=
  edits.filter (·.start < n)

def editsFrom (n : Nat) (edits : List Edit) : List Edit :=
  edits.filter (n ≤ ·.start)

theorem editsBefore_eq_nil (behind : ∀ e ∈ edits, n ≤ e.start) : editsBefore n edits = [] :=
  List.filter_eq_nil_iff.2 fun e he => by simpa using behind e he

theorem editsFrom_eq_self (behind : ∀ e ∈ edits, n ≤ e.start) : editsFrom n edits = edits :=
  List.filter_eq_self.2 fun e he => decide_eq_true (behind e he)

theorem SlicesFrom.isBoundary (slices : SlicesFrom t m edits) : IsBoundary t m := by
  cases edits with
  | nil => exact slices
  | cons e edits => exact slices.1

theorem SlicesFrom.start_le_stop (slices : SlicesFrom t m edits) : ∀ e ∈ edits, e.start ≤ e.stop := by
  induction edits generalizing m with
  | nil => exact fun e he => absurd he List.not_mem_nil
  | cons e edits ih =>
    obtain ⟨-, -, -, ordered, rest⟩ := slices
    intro e' he'
    rcases List.mem_cons.1 he' with rfl | he'
    · exact ordered
    · exact ih rest e' he'

theorem SlicesFrom.le_start_of_cons {e : Edit} (slices : SlicesFrom t m (e :: edits)) (le : n ≤ e.start) :
    ∀ e' ∈ e :: edits, n ≤ e'.start := by
  intro e' he'
  rcases List.mem_cons.1 he' with rfl | he'
  · exact le
  · exact Nat.le_trans le ((List.pairwise_cons.1 slices.pairwise.1).1 e' he')

theorem takeBytes_slice {k : Nat} (hm : IsBoundary t m) (hk : IsBoundary t k) (hn : IsBoundary t n)
    (mk : m ≤ k) (kn : k ≤ n) :
    takeBytes (k - m) (slice m n t) = slice m k t ∧ dropBytes (k - m) (slice m n t) = slice k n t := by
  rw [← slice_append_slice hm hk hn mk kn, ← byteLen_slice hm hk mk]
  exact ⟨takeBytes_byteLen_append _ _, dropBytes_byteLen_append _ _⟩

theorem spliceFrom_slice_cons (hm : IsBoundary t m) (hn : IsBoundary t n) {e : Edit}
    (slices : SlicesFrom t m (e :: edits)) (le : e.stop ≤ n) (edits' : List Edit) :
    spliceFrom m (slice m n t) (e :: edits') =
      slice m e.start t ++ e.replacement ++ spliceFrom e.stop (slice e.stop n t) edits' := by
  obtain ⟨-, start_le, hstart, ordered, rest⟩ := slices
  rw [spliceFrom, (takeBytes_slice hm hstart hn start_le (Nat.le_trans ordered le)).1,
    (takeBytes_slice hm rest.isBoundary hn (Nat.le_trans start_le ordered) le).2]

theorem editsBefore_cons {e : Edit} (before : e.start < n) (edits : List Edit) :
    editsBefore n (e :: edits) = e :: editsBefore n edits :=
  List.filter_cons_of_pos (decide_eq_true before)

theorem editsFrom_cons {e : Edit} (before : e.start < n) (edits : List Edit) :
    editsFrom n (e :: edits) = editsFrom n edits :=
  List.filter_cons_of_neg (by simpa using before)

theorem spliceFrom_cut (slices : SlicesFrom t m edits) (hn : IsBoundary t n) (le : m ≤ n)
    (apart : ∀ e ∈ edits, e.start < n → e.stop ≤ n) :
    spliceFrom m (dropBytes m t) edits = spliceFrom m (slice m n t) (editsBefore n edits) ++
      spliceFrom n (dropBytes n t) (editsFrom n edits) := by
  induction edits generalizing m with
  | nil => exact (slice_append_dropBytes slices hn le).symm
  | cons e edits ih =>
    have in_order := slices.start_le_stop
    have whole := slices
    obtain ⟨hm, start_le, -, ordered, rest⟩ := slices
    by_cases before : e.start < n
    · have stop_le := apart e List.mem_cons_self before
      rw [spliceFrom_cons hm e edits (Nat.le_trans start_le ordered),
        ih rest stop_le fun e' he' => apart e' (List.mem_cons_of_mem _ he'), editsBefore_cons before,
        editsFrom_cons before, spliceFrom_slice_cons hm hn whole stop_le]
      simp only [List.append_assoc]
    · have behind := whole.le_start_of_cons (Nat.not_lt.1 before)
      rw [editsBefore_eq_nil behind, editsFrom_eq_self behind, spliceFrom_dropBytes hm hn le fun e' he' =>
        ⟨behind e' he', Nat.le_trans (behind e' he') (in_order e' he')⟩]
      rfl

theorem spliceFrom_editsFrom {w u : Text} (at_n : dropBytes n t = w ++ u) (hn : IsBoundary t n)
    (apart : ∀ e ∈ edits, e.start < n ∨ n + byteLen w ≤ e.start) (ordered : ∀ e ∈ edits, e.start ≤ e.stop) :
    spliceFrom n (dropBytes n t) (editsFrom n edits) =
      w ++ spliceFrom (n + byteLen w) (dropBytes (n + byteLen w) t) (editsFrom (n + byteLen w) edits) := by
  have same : editsFrom n edits = editsFrom (n + byteLen w) edits := by
    refine List.filter_congr fun e he => ?_
    rcases apart e he with before | behind
    · simp only [decide_eq_decide]
      omega
    · simp only [decide_eq_decide]
      omega
  have later : dropBytes (n + byteLen w) t = u := by
    rw [← dropBytes_dropBytes hn (Nat.le_add_right n _), at_n, Nat.add_sub_cancel_left,
      dropBytes_byteLen_append]
  rw [same, at_n, later]
  refine spliceFrom_append w u fun e he => ?_
  obtain ⟨member, behind⟩ := List.mem_filter.1 he
  have behind := of_decide_eq_true behind
  exact ⟨behind, Nat.le_trans behind (ordered e member)⟩

theorem spliceFrom_editsFrom_start (slices : SlicesFrom t m edits) {e : Edit} (member : e ∈ edits)
    (filled : ∀ e ∈ edits, e.start < e.stop) :
    spliceFrom e.start (dropBytes e.start t) (editsFrom e.start edits) =
      e.replacement ++ spliceFrom e.stop (dropBytes e.stop t) (editsFrom e.stop edits) := by
  induction edits generalizing m with
  | nil => cases member
  | cons first edits ih =>
    obtain ⟨-, -, boundary, ordered, rest⟩ := slices
    have behind := rest.pairwise.2
    rcases List.mem_cons.1 member with rfl | member
    · have lt := filled e List.mem_cons_self
      have here : editsFrom e.start (e :: edits) = e :: editsFrom e.stop (e :: edits) := by
        rw [editsFrom_cons lt, editsFrom_eq_self behind]
        refine (List.filter_cons_of_pos (by simp)).trans (congrArg _ (editsFrom_eq_self fun e' he' => ?_))
        exact Nat.le_trans ordered (behind e' he')
      rw [here, spliceFrom_cons boundary e _ ordered, slice, Nat.sub_self, takeBytes_zero,
        List.nil_append]
    · have lt := filled first List.mem_cons_self
      have start_le := behind e member
      have stop_le := filled e (List.mem_cons_of_mem _ member)
      rw [editsFrom_cons (by omega), editsFrom_cons (by omega)]
      exact ih rest member fun e' he' => filled e' (List.mem_cons_of_mem _ he')

end Cut

end Text

namespace Legacy

open Text Declaration FunctionDef

section Ends

variable {t : Text} {m n : Nat} {edits : List Edit}

theorem isFree_spliceFrom_editsBefore (slices : SlicesFrom t m edits) (here : FreeAt t n) (le : m ≤ n)
    (apart : ∀ e ∈ edits, e.start < n → e.stop ≤ n) (starts : ∀ e ∈ edits, FreeAt t e.start)
    (ended : ∀ e ∈ edits, isFree e.replacement.getLast? = true) :
    isFree (spliceFrom m (slice m n t) (editsBefore n edits)).getLast? = true := by
  have hn := here.isBoundary
  induction edits generalizing m with
  | nil => exact here.slice slices le
  | cons e edits ih =>
    have rest := slices.2.2.2.2
    have later := fun m slices le => @ih m slices le (fun e' he' => apart e' (List.mem_cons_of_mem _ he'))
      (fun e' he' => starts e' (List.mem_cons_of_mem _ he'))
      fun e' he' => ended e' (List.mem_cons_of_mem _ he')
    by_cases before : e.start < n
    · have stop_le := apart e List.mem_cons_self before
      rw [editsBefore_cons before, spliceFrom_slice_cons slices.1 hn slices stop_le]
      refine isFree_getLast?_append (isFree_getLast?_append ?_ (ended e List.mem_cons_self))
        (later _ rest stop_le)
      exact (starts e List.mem_cons_self).slice slices.1 slices.2.1
    · have behind := slices.le_start_of_cons (Nat.not_lt.1 before)
      rw [editsBefore_eq_nil behind]
      exact here.slice slices.1 le

theorem isFree_spliceFrom_editsFrom (hn : IsBoundary t n) (free : isFree (dropBytes n t).head? = true)
    (later : ∀ e ∈ edits, n ≤ e.start → n < e.start ∧ IsBoundary t e.start) :
    isFree (spliceFrom n (dropBytes n t) (editsFrom n edits)).head? = true := by
  cases from_n : editsFrom n edits with
  | nil => exact free
  | cons e es =>
    have first : e ∈ editsFrom n edits := from_n ▸ List.mem_cons_self
    obtain ⟨member, le⟩ := List.mem_filter.1 first
    obtain ⟨lt, boundary⟩ := later e member (of_decide_eq_true le)
    have cut := slice_append_dropBytes hn boundary (Nat.le_of_lt lt)
    have size := byteLen_slice hn boundary (Nat.le_of_lt lt)
    rw [← cut] at free
    rw [spliceFrom, ← slice]
    cases at_slice : slice n e.start t with
    | nil =>
      rw [at_slice, byteLen_nil] at size
      omega
    | cons c s =>
      rw [at_slice] at free
      exact free

end Ends

section Correspondence

variable {t : Text} {stage : Stage} {ds : List Declaration} {defines : List Define} {r s : Report}
  {u : Transcoded}

/-- What stands in front of a place of a text, with the declarations there replaced. -/
def splicedFront (t : Text) (ds : List Declaration) (n : Nat) : Text :=
  spliceFrom 0 (takeBytes n t) (editsBefore n (replacements t ds))

/-- What stands behind a place of a text, with the declarations there replaced. -/
def splicedRest (t : Text) (ds : List Declaration) (n : Nat) : Text :=
  spliceFrom n (dropBytes n t) (editsFrom n (replacements t ds))

/-- Whether something stands in a result for a range of the source: between what the text in front of
the range and the text behind it become. -/
def StandsFor (t : Text) (ds : List Declaration) (range : Nat × Nat) (result w : Text) : Prop :=
  ∃ x y, result = x ++ (w ++ y) ∧
    Reworded (fun v rest => Exchanges (outputsOf ds) v (rest ++ splicedRest t ds range.1))
      (splicedFront t ds range.1) x ∧
    Reworded (Exchanges (outputsOf ds)) (splicedRest t ds range.2) y

theorem exists_declarations (transcoded : (transcode t stage defines).runWith r = (.ok u, s)) :
    ∃ ds, outcome (extract t stage (find t)) = some ds := by
  unfold transcode at transcoded
  obtain ⟨ds, r', read, -⟩ := exists_of_runWith_bind transcoded
  rw [runWith_silently] at read
  refine ⟨ds, (composed_extractFrom t stage (find t) [] [] (significant t)).outcome_of_ok
    (r := { Report.quiet with trace := r.trace }) (Prod.ext (Prod.mk.inj read).1 rfl)⟩

section Run

variable {P : Statement → Prop} (run : Run t stage (find t) P [] [] (significant t) ds)
include run

theorem freeAt_of_mem_replacements {e : Edit} (member : e ∈ replacements t ds) :
    FreeAt t e.start ∧ isFree e.replacement.getLast? = true ∧ e.start < e.stop := by
  obtain ⟨d, hd, replaced⟩ := List.mem_filterMap.1 member
  obtain ⟨r, made, rfl⟩ := Option.map_eq_some_iff.1 replaced
  exact ⟨freeAt_of_run run hd, isFree_replacement? made, (run.sited hd).whole.start_lt⟩

theorem splice_eq_append {n : Nat} (here : FreeAt t n)
    (apart : ∀ e ∈ replacements t ds, e.start < n → e.stop ≤ n) :
    splice t (replacements t ds) = splicedFront t ds n ++ splicedRest t ds n ∧
      isFree (splicedFront t ds n).getLast? = true := by
  have slices := run.slicesFrom_replacements
  have front : takeBytes n t = slice 0 n t := by rw [slice, Nat.sub_zero, dropBytes_zero]
  rw [splice_eq_spliceFrom slices.pairwise.1, splicedFront, splicedRest, front]
  refine ⟨spliceFrom_cut slices here.isBoundary (Nat.zero_le n) apart, ?_⟩
  exact isFree_spliceFrom_editsBefore slices here (Nat.zero_le n) apart
    (fun e he => (freeAt_of_mem_replacements run he).1)
    fun e he => (freeAt_of_mem_replacements run he).2.1

theorem splicedRest_of_isIdentifier {k : Token} (member : k ∈ significant t)
    (identifier : k.isIdentifier = true)
    (apart : ∀ e ∈ replacements t ds, k.stop ≤ e.start ∨ e.stop ≤ k.start) :
    IsName k.lexeme ∧ FreeAt t k.start ∧
      splicedRest t ds k.start = k.lexeme ++ splicedRest t ds k.stop ∧
      isFree (splicedRest t ds k.stop).head? = true := by
  obtain ⟨isName, a, b, cut, len, front_free, free⟩ := isName_of_isIdentifier member identifier
  have stands := standsIn_of_mem_significant member
  have rest : dropBytes k.start t = k.lexeme ++ b := by rw [cut, ← len, dropBytes_byteLen_append]
  have behind : dropBytes k.stop t = b := by
    rw [cut, Token.stop, ← len, ← byteLen_append, ← List.append_assoc, dropBytes_byteLen_append]
  refine ⟨isName, ⟨a, _, cut, len, front_free⟩, ?_, ?_⟩
  · refine spliceFrom_editsFrom rest stands.isBoundary_start (fun e he => ?_)
      fun e he => Nat.le_of_lt (freeAt_of_mem_replacements run he).2.2
    have lt := (freeAt_of_mem_replacements run he).2.2
    exact (apart e he).symm.imp_left fun le => Nat.lt_of_lt_of_le lt le
  · refine isFree_spliceFrom_editsFrom stands.isBoundary_stop (behind ▸ free) fun e he le => ?_
    obtain ⟨a', b', cut', len', free'⟩ := (freeAt_of_mem_replacements run he).1
    refine ⟨Nat.lt_of_le_of_ne le fun same => ?_, a', b', cut', len'⟩
    -- No declaration starts right behind an identifier.
    have size : byteLen a' = byteLen (a ++ k.lexeme) := by
      rw [len', ← same, byteLen_append, len]
      rfl
    obtain ⟨rfl, -⟩ := append_inj_of_byteLen
      (cut'.symm.trans (cut.trans (List.append_assoc a k.lexeme b).symm)) size
    obtain ⟨c, more, shape⟩ := List.exists_cons_of_ne_nil isName.isWord.1
    have last := List.getLast_mem isName.isWord.1
    rw [List.getLast?_append, List.getLast?_eq_some_getLast isName.isWord.1, Option.some_or] at free'
    simp [isFree, isName.isWord.2 _ last] at free'

variable (extracted : outcome (extract t stage (find t)) = some ds)
  (transcoded : (transcode t stage defines).runWith r = (.ok u, s))
include extracted transcoded

theorem exists_standsFor_of_isIdentifier {k : Token} (member : k ∈ significant t)
    (identifier : k.isIdentifier = true)
    (apart : ∀ e ∈ replacements t ds, k.stop ≤ e.start ∨ e.stop ≤ k.start) :
    ∃ w, StandsFor t ds (k.start, k.stop) u.text w ∧
      Exchanges (outputsOf ds) k.lexeme (splicedRest t ds k.stop) w := by
  obtain ⟨isName, here, rest, free⟩ := splicedRest_of_isIdentifier run member identifier apart
  have filled : k.start < k.stop := (ordered_significant t).2 k member
  obtain ⟨cut, front_free⟩ := splice_eq_append run here fun e he lt =>
    (apart e he).resolve_left fun le => by omega
  have exchanged := reworded_transcode run extracted transcoded
  rw [cut] at exchanged
  obtain ⟨x, v, text, front, later⟩ := exchanged.of_append (Or.inl front_free)
  rw [rest] at later
  obtain ⟨w, y, rfl, admits, later⟩ := later.of_word isName.isWord free
  exact ⟨w, ⟨x, y, text, front, later⟩, admits⟩

end Run

/-- Identifiers outside the replaced declarations, field selections among them, are found in the result
one by one. Those with the name of a fragment output are renamed; of the others only texture functions in
front of a parenthesis may change. -/
theorem identifier_kept_or_renamed (transcoded : (transcode t stage defines).runWith r = (.ok u, s)) :
    ∃ ds, outcome (extract t stage (find t)) = some ds ∧ ∀ k ∈ significant t, k.isIdentifier = true →
      (∀ e ∈ replacements t ds, k.stop ≤ e.start ∨ e.stop ≤ k.start) →
        ∃ w, StandsFor t ds (k.start, k.stop) u.text w ∧
          Exchanges (outputsOf ds) k.lexeme (splicedRest t ds k.stop) w := by
  obtain ⟨ds, extracted⟩ := exists_declarations transcoded
  refine ⟨ds, extracted, fun k member identifier apart => ?_⟩
  exact exists_standsFor_of_isIdentifier (run_of_outcome extracted) extracted transcoded member identifier
    apart

def swizzle : Text :=
  "layout(location = 0) out vec4 rgba;\nvoid main() \x7b rgba = vec4(1.0).rgba.xyzw; \x7d".toList

theorem exists_transcode_swizzle : ∃ ds u s, outcome (extract swizzle .fragment (find swizzle)) = some ds ∧
    outputsOf ds = [("rgba", 0)] ∧ replacements swizzle ds = [⟨0, 35, []⟩] ∧
    (transcode swizzle .fragment []).runWith {} = (.ok u, s) ∧
    u.text = "\nvoid main() \x7b gl_FragColor = vec4(1.0).gl_FragColor.xyzw; \x7d".toList := by
  refine exists_transcode_of_no_call _ _ _ _ _ (by decide +kernel) ?_ (by decide +kernel) [] {}
  rw [splice_eq_spliceFrom (by simp), renameOutputs, replaceWord_eq_spliceFrom]
  decide +kernel

/-- The second swizzle stays and the first one, which has the output's name, is renamed. -/
theorem identifier_kept_or_renamed_swizzle : ∃ ds u s,
    (transcode swizzle .fragment []).runWith {} = (.ok u, s) ∧
    StandsFor swizzle ds (72, 76) u.text "xyzw".toList ∧
    StandsFor swizzle ds (67, 71) u.text "gl_FragColor".toList := by
  obtain ⟨ds, u, s, extracted, outputs, edits, transcoded, -⟩ := exists_transcode_swizzle
  obtain ⟨ds', extracted', each⟩ := identifier_kept_or_renamed transcoded
  obtain rfl := Option.some.inj (extracted.symm.trans extracted')
  have apart (k : Token) (later : 35 ≤ k.start) :
      ∀ e ∈ replacements swizzle ds, k.stop ≤ e.start ∨ e.stop ≤ k.start := by
    rw [edits]
    simpa using Or.inr later
  refine ⟨ds, u, s, transcoded, ?_, ?_⟩
  · obtain ⟨w, stands, exchanged⟩ := each ⟨.identifier, "xyzw".toList, 72⟩ (by decide +kernel) rfl
      (apart _ (by decide))
    have other : ¬ IsOutput (outputsOf ds) "xyzw".toList := by
      rw [outputs]
      decide
    obtain rfl := (exchanged.other other).resolve_right fun call => absurd call.1 (by decide)
    exact stands
  · obtain ⟨w, stands, exchanged⟩ := each ⟨.identifier, "rgba".toList, 67⟩ (by decide +kernel) rfl
      (apart _ (by decide))
    rw [outputs] at exchanged
    obtain ⟨o, first, rfl⟩ := exchanged.output (by decide) (by decide)
    exact stands

/-- A field selection that has the name of a fragment output does not stay. -/
theorem not_field_kept : ∃ ds u s, outcome (extract swizzle .fragment (find swizzle)) = some ds ∧
    (transcode swizzle .fragment []).runWith {} = (.ok u, s) ∧
    (∃ front dot k behind, significant swizzle = front ++ dot :: k :: behind ∧ dot.isPunct '.' = true ∧
      k.isIdentifier = true ∧ k.lexeme = "rgba".toList ∧
      ∀ e ∈ replacements swizzle ds, k.stop ≤ e.start ∨ e.stop ≤ k.start) ∧
    containsWord u.text "rgba".toList = false := by
  obtain ⟨ds, u, s, extracted, -, edits, transcoded, text⟩ := exists_transcode_swizzle
  refine ⟨ds, u, s, extracted, transcoded, ?_, ?_⟩
  · refine ⟨(significant swizzle).take 21, ⟨.punct, ['.'], 66⟩, ⟨.identifier, "rgba".toList, 67⟩,
      (significant swizzle).drop 23, by decide +kernel, rfl, rfl, rfl, ?_⟩
    rw [edits]
    decide
  · rw [text]
    decide +kernel

end Correspondence

end Legacy

end ShaderPass
