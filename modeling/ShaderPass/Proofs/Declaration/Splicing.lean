import ShaderPass.Dialect.Legacy
import ShaderPass.Proofs.Declaration.RoundTrip
import ShaderPass.Proofs.Declaration.Separation

/-! Splicing at declarations: the ranges that extraction reports are apart and in the text, so the edits
that transcoding and decoration make for them cut the text at boundaries, one behind the other. -/
namespace ShaderPass

open Token ShaderPass.Bracket Compile

namespace Text

structure RangeIn (t : Text) (outer range : Nat × Nat) : Prop where
  start_le : outer.1 ≤ range.1
  start_lt : range.1 < range.2
  stop_le : range.2 ≤ outer.2
  boundary_start : IsBoundary t range.1
  boundary_stop : IsBoundary t range.2

theorem isBoundary_byteLen (t : Text) : IsBoundary t (byteLen t) :=
  ⟨t, [], (List.append_nil t).symm, rfl⟩

/-- Whether the slices of a text between edits, from an offset on, go from one boundary to a later
one. -/
def SlicesFrom (t : Text) (offset : Nat) : List Edit → Prop
  | [] => IsBoundary t offset
  | e :: edits => IsBoundary t offset ∧ offset ≤ e.start ∧ IsBoundary t e.start ∧ e.start ≤ e.stop ∧
    SlicesFrom t e.stop edits

/-- Whether edits can be applied to a text, in the order that splicing puts them in. -/
def CanSplice (t : Text) (edits : List Edit) : Prop :=
  SlicesFrom t 0 (edits.mergeSort fun a b => a.start ≤ b.start)

theorem SlicesFrom.pairwise {t : Text} {n : Nat} {edits : List Edit} (h : SlicesFrom t n edits) :
    (edits.Pairwise fun a b => a.start ≤ b.start) ∧ ∀ e ∈ edits, n ≤ e.start := by
  induction edits generalizing n with
  | nil => exact ⟨.nil, by simp⟩
  | cons e edits ih =>
    obtain ⟨-, le, -, le', rest⟩ := h
    obtain ⟨apart, later⟩ := ih rest
    refine ⟨List.pairwise_cons.2 ⟨fun e' he' => Nat.le_trans le' (later e' he'), apart⟩, fun e' he' => ?_⟩
    rcases List.mem_cons.1 he' with rfl | he'
    · exact le
    · exact Nat.le_trans le (Nat.le_trans le' (later e' he'))

theorem SlicesFrom.canSplice {t : Text} {edits : List Edit} (h : SlicesFrom t 0 edits) :
    CanSplice t edits := by
  rw [CanSplice, List.mergeSort_of_pairwise (h.pairwise.1.imp fun le => decide_eq_true le)]
  exact h

end Text

namespace Declaration

open Statement FunctionDef Text

structure Sited (t : Text) (d : Declaration) : Prop where
  whole : RangeIn t (0, byteLen t) (d.start, d.stop)
  storage : RangeIn t (d.start, d.stop) d.storageRange
  layout : ∀ range, d.layoutRange = some range →
    RangeIn t (d.start, d.stop) range ∧ range.2 < d.stop

section Read

variable {source : Text}

theorem storage_of_note? {q p : Qualifiers} {t : Token} (noted : q.note? t = some p) :
    p.storage = q.storage ∨ ∃ storage, p.storage = some (storage, t.start, t.stop) := by
  unfold Qualifiers.note? at noted
  split at noted
  · obtain rfl := Option.some.inj noted
    exact Or.inr ⟨_, rfl⟩
  · left
    split at noted
    · obtain rfl := Option.some.inj noted
      rfl
    · split at noted
      · obtain rfl := Option.some.inj noted
        rfl
      · split at noted
        · obtain rfl := Option.some.inj noted
          rfl
        · split at noted
          · obtain rfl := Option.some.inj noted
            rfl
          · cases noted

/-- What holds of what is left holds of every statement that is read up to there, if it is kept in front
of a word and of a layout list. -/
theorem read_induction {p : Qualifiers} {r : Statement} {motive : Qualifiers → Statement → Prop}
    (done : motive p r)
    (word : ∀ q q' s t, s.head? = some t → q.note? t = some q' → motive q' (s.drop 1) → motive q s)
    (list : ∀ q ts later m inner range, IsList source ts inner range →
      motive { q with layout := Layout.parse inner, layoutRange := some range } ⟨later, m⟩ →
        motive q ⟨ts ++ later, ts.length + m⟩)
    {q : Qualifiers} {s : Statement} (h : Qualifiers.read source q s = some (p, r)) : motive q s := by
  induction len : s.size using Nat.strongRecOn generalizing s q with
  | ind size ih =>
    cases head : s.head? with
    | none =>
      rw [Qualifiers.read_of_nil source q head] at h
      obtain ⟨rfl, rfl⟩ := Prod.mk.inj (Option.some.inj h)
      exact done
    | some t =>
      have positive := size_pos head
      cases starts : Qualifiers.startsList s with
      | false =>
        cases noted : q.note? t with
        | none =>
          rw [Qualifiers.read_of_other source head starts noted] at h
          obtain ⟨rfl, rfl⟩ := Prod.mk.inj (Option.some.inj h)
          exact done
        | some q' =>
          rw [Qualifiers.read_of_word source head starts noted] at h
          exact word q q' s t head noted
            (ih (s.drop 1).size (by simp only [Statement.drop]; omega) h rfl)
      | true =>
        by_cases inside : ∃ n, closeOffset? (s.tokens.drop 1) = some n ∧ n + 1 < s.size
        · obtain ⟨n, found, inside⟩ := inside
          obtain ⟨ts, later, m, inner, range, rfl, -, isList⟩ := exists_isList starts found inside source
          have some_token := isList.length_pos
          rw [isList.read] at h
          simp only at len
          exact list q ts later m inner range isList (ih m (by omega) h rfl)
        · rw [Qualifiers.read_of_open_list q starts] at h
          · cases h
          · intro n found
            exact Nat.not_lt.1 fun lt => inside ⟨n, found, lt⟩

theorem storage_of_read {q p : Qualifiers} {s r : Statement}
    (h : Qualifiers.read source q s = some (p, r)) :
    p.storage = q.storage ∨ ∃ x ∈ s.window, ∃ storage, p.storage = some (storage, x.start, x.stop) := by
  refine read_induction (motive := fun q s => p.storage = q.storage ∨
    ∃ x ∈ s.window, ∃ storage, p.storage = some (storage, x.start, x.stop)) (Or.inl rfl) ?_ ?_ h
  · intro q q' s t head noted ih
    rcases ih with same | ⟨x, hx, at_x⟩
    · rw [same]
      refine (storage_of_note? noted).imp_right fun at_t => ⟨t, ?_, at_t⟩
      rw [head?_eq] at head
      exact List.mem_of_head? head
    · rw [window_drop] at hx
      exact Or.inr ⟨x, List.mem_of_mem_drop hx, at_x⟩
  · intro q ts later m inner range isList ih
    rcases ih with same | ⟨x, hx, at_x⟩
    · exact Or.inl same
    · refine Or.inr ⟨x, ?_, at_x⟩
      rw [window, List.take_length_add_append]
      exact List.mem_append_right _ hx

theorem exists_drop_of_read {q p : Qualifiers} {s r : Statement}
    (h : Qualifiers.read source q s = some (p, r)) : ∃ n, r = s.drop n := by
  refine read_induction (motive := fun _ s => ∃ n, r = s.drop n) ⟨0, rfl⟩ ?_ ?_ h
  · rintro - - s t - - ⟨n, rfl⟩
    refine ⟨n + 1, ?_⟩
    simp only [Statement.drop, List.drop_drop, Nat.sub_sub, Nat.add_comm]
  · rintro - ts later m - - - ⟨n, rfl⟩
    refine ⟨ts.length + n, ?_⟩
    simp only [Statement.drop, List.drop_append, Nat.add_sub_add_left]
    simp

theorem suffix_of_read {q p : Qualifiers} {s r : Statement}
    (h : Qualifiers.read source q s = some (p, r)) : r.tokens <:+ s.tokens := by
  obtain ⟨n, rfl⟩ := exists_drop_of_read h
  exact List.drop_suffix n s.tokens

end Read

section Sites

variable {t : Text} {stage : Stage} {s : Statement} {first : Token} {d : Declaration}

theorem exists_storage_of_parse? (head : s.tokens.head? = some first)
    (parsed : outcome (parse? t stage s) = some (some d)) :
    ∃ q rest storage, Qualifiers.read t {} s = some (q, rest) ∧ rest.ident? ≠ none ∧
      q.storage = some (storage, d.storageRange) ∧ q.layoutRange = d.layoutRange := by
  obtain ⟨q, rest, storage, range, found, read, kind, body, rfl⟩ := exists_body_of_parse? head parsed
  exact ⟨q, rest, storage, read, ident?_ne_none_of_body? body, kind, rfl⟩

theorem exists_list_in_window (ordered : Ordered s.tokens) {q : Qualifiers} {rest : Statement}
    (read : Qualifiers.read t {} s = some (q, rest)) (typed : rest.ident? ≠ none) {range : Nat × Nat}
    (at_range : q.layoutRange = some range) :
    ∃ x ∈ s.window, ∃ close ∈ s.window, ∃ k ∈ s.window, range = (x.start, close.stop) ∧
      x.start < close.stop ∧ close.stop ≤ k.start := by
  rcases exists_list_of_read read with kept |
    ⟨front, ts, later, m, inner, range', q', rfl, isList, -, at_list, read', -⟩
  · rw [kept.2] at at_range
    cases at_range
  · rw [at_list, Option.some.injEq] at at_range
    subst at_range
    obtain ⟨x, y, body, close, rfl, -, -, -, -, rfl⟩ := isList
    have list_ordered : Ordered (x :: y :: (body ++ [close])) :=
      ordered.sublist ((List.sublist_append_left _ _).trans (List.sublist_append_right front _))
    have window_mem : ∀ v ∈ x :: y :: (body ++ [close]), v ∈ Statement.window
        ⟨front ++ (x :: y :: (body ++ [close]) ++ later),
          front.length + ((x :: y :: (body ++ [close])).length + m)⟩ := by
      intro v hv
      rw [window, List.take_length_add_append, List.take_length_add_append]
      exact List.mem_append_right _ (List.mem_append_left _ hv)
    have start_le := list_ordered.start_le_of_head? rfl (show close ∈ _ by simp)
    have filled := list_ordered.2 close (by simp)
    obtain ⟨k, next, -⟩ := letter_of_read read' typed
    obtain ⟨us, n, same⟩ := Qualifiers.exists_of_head? next
    obtain ⟨rfl, rfl⟩ := Statement.mk.inj same
    refine ⟨x, window_mem x (by simp), close, window_mem close (by simp), k, ?_, rfl, by omega, ?_⟩
    · rw [window, List.take_length_add_append, List.take_length_add_append, List.take_succ_cons]
      simp
    · have apart := (List.pairwise_append.1 ordered.1).2.1
      exact (List.pairwise_append.1 apart).2.2 close (by simp) k List.mem_cons_self

theorem sited_of_parse? {pre : List Token} (cut : significant t = pre ++ s.tokens)
    (head : s.tokens.head? = some first) (parsed : outcome (parse? t stage s) = some (some d)) :
    Sited t d := by
  have ordered := ordered_significant t
  rw [cut] at ordered
  have own := ordered.sublist (List.sublist_append_right pre _)
  have standing : ∀ v ∈ s.tokens, v.StandsIn t := fun v hv =>
    standsIn_of_mem_significant (cut ▸ List.mem_append_right _ hv)
  obtain ⟨start, stop⟩ := start_of_parse? head parsed
  have inside {x y : Token} (hx : x ∈ s.window) (hy : y ∈ s.window) (lt : x.start < y.stop) :
      RangeIn t (d.start, d.stop) (x.start, y.stop) := by
    refine ⟨?_, lt, ?_, (standing x (List.mem_of_mem_take hx)).isBoundary_start,
      (standing y (List.mem_of_mem_take hy)).isBoundary_stop⟩
    · rw [start]
      exact own.start_le_of_head? head (List.mem_of_mem_take hx)
    · rw [stop]
      exact stop_le_of_mem_window own standing hy
  obtain ⟨q, rest, storage, read, typed, at_storage, at_layout⟩ := exists_storage_of_parse? head parsed
  have storage_in : RangeIn t (d.start, d.stop) d.storageRange := by
    rcases storage_of_read read with none | ⟨x, hx, kind, at_x⟩
    · rw [none] at at_storage
      cases at_storage
    · rw [at_storage, Option.some.injEq] at at_x
      obtain ⟨-, same⟩ := Prod.mk.inj at_x
      rw [same]
      exact inside hx hx (own.2 x (List.mem_of_mem_take hx))
  have stop_boundary : IsBoundary t d.stop := by
    rw [stop]
    cases at_end : s.tokens[s.size]? with
    | none => exact isBoundary_byteLen t
    | some u => exact (standing u (List.mem_of_getElem? at_end)).isBoundary_stop
  refine ⟨⟨Nat.zero_le _, ?_, ?_, ?_, ?_⟩, storage_in, fun range at_range => ?_⟩
  · have := storage_in.start_le
    have := storage_in.start_lt
    have := storage_in.stop_le
    dsimp only at *
    omega
  · exact stop_boundary.le_byteLen
  · exact start ▸ (standing first (List.mem_of_head? head)).isBoundary_start
  · exact stop_boundary
  · obtain ⟨x, hx, close, hc, k, hk, rfl, lt, ahead⟩ :=
      exists_list_in_window own read typed (at_layout.trans at_range)
    refine ⟨inside hx hc lt, ?_⟩
    have filled := own.2 k (List.mem_of_mem_take hk)
    have behind := stop_le_of_mem_window own standing hk
    rw [stop]
    show close.stop < _
    omega

theorem Run.sited {P : Statement → Prop} {ds : List Declaration}
    (run : Run t stage (find t) P [] [] (significant t) ds) (member : d ∈ ds) : Sited t d := by
  obtain ⟨front, first, us, d₀, stack, tags, cut, -, -, -, parsed, rfl⟩ :=
    run.exists_statement (ordered_significant t) (endsIn_find t) (List.nil_append _).symm
      (fun _ _ _ _ _ last => by cases last) member
  obtain ⟨whole, storage, layout⟩ := sited_of_parse? cut rfl parsed
  exact ⟨whole, storage, layout⟩

end Sites

section Edits

variable {t : Text}

def EditIn (t : Text) (d : Declaration) (e : Option Edit) : Prop :=
  ∀ e' ∈ e, d.start ≤ e'.start ∧ IsBoundary t e'.start ∧ e'.start ≤ e'.stop ∧ IsBoundary t e'.stop ∧
    e'.stop ≤ d.stop

theorem slicesFrom_of_editIn {ds : List Declaration} {es : List (Option Edit)} {n : Nat}
    (edits : List.Forall₂ (EditIn t) ds es) (apart : ds.Pairwise fun d e => d.stop ≤ e.start)
    (here : IsBoundary t n) (later : ∀ d ∈ ds, n ≤ d.start) : SlicesFrom t n (es.filterMap id) := by
  induction edits generalizing n with
  | nil => exact here
  | @cons d e ds es first _ ih =>
    obtain ⟨behind, apart⟩ := List.pairwise_cons.1 apart
    cases e with
    | none => exact ih apart here fun d hd => later d (List.mem_cons_of_mem _ hd)
    | some e =>
      obtain ⟨start, boundary, le, boundary', stop⟩ := first e rfl
      exact ⟨here, Nat.le_trans (later d List.mem_cons_self) start, boundary, le,
        ih apart boundary' fun d' hd' => Nat.le_trans stop (behind d' hd')⟩

theorem Sited.editIn_whole {d : Declaration} (h : Sited t d) (replacement : Option String) :
    EditIn t d (replacement.map fun r => ⟨d.start, d.stop, r.toList⟩) := by
  intro e he
  obtain ⟨r, -, rfl⟩ := Option.map_eq_some_iff.1 he
  exact ⟨Nat.le_refl _, h.whole.boundary_start, Nat.le_of_lt h.whole.start_lt, h.whole.boundary_stop,
    Nat.le_refl _⟩

theorem Sited.editIn_layout {d : Declaration} (h : Sited t d) (layout : Option Layout) :
    EditIn t d (layout.map (Decoration.edit t d)) := by
  intro e he
  obtain ⟨l, -, rfl⟩ := Option.map_eq_some_iff.1 he
  unfold Decoration.edit
  cases at_range : d.layoutRange with
  | none =>
    exact ⟨Nat.le_refl _, h.whole.boundary_start, Nat.le_refl _, h.whole.boundary_start,
      Nat.le_of_lt h.whole.start_lt⟩
  | some range =>
    obtain ⟨⟨start_le, start_lt, stop_le, boundary, boundary'⟩, stop_lt⟩ := h.layout range at_range
    dsimp only at *
    split
    · rename_i blank
      refine ⟨start_le, boundary, by omega, ?_, by omega⟩
      obtain ⟨a, b, rfl, len⟩ := boundary'
      rw [← len, dropBytes_byteLen_append, Bool.and_eq_true, decide_eq_true_eq] at blank
      obtain ⟨b, rfl⟩ := List.head?_eq_some_iff.1 blank.2
      exact ⟨a ++ [' '], b, by simp, by rw [byteLen_append, len]; rfl⟩
    · exact ⟨start_le, boundary, Nat.le_of_lt start_lt, boundary', stop_le⟩

end Edits

section Runs

variable {t : Text} {stage : Stage} {ds : List Declaration}

/-- What a run over a list returned is what its steps returned, each under a report with a property that
all steps keep. -/
theorem forall₂_of_invariant {α β : Type} {f : α → Compile β} {P : Report → Prop}
    (keeps : ∀ a r, P r → P ((f a).runWith r).2) {as : List α} {bs : List β} {r s : Report} (start : P r)
    (run : (as.mapM f).runWith r = (.ok bs, s)) :
    List.Forall₂ (fun a b => ∃ r' s', P r' ∧ (f a).runWith r' = (.ok b, s')) as bs := by
  induction as generalizing bs r with
  | nil =>
    cases run
    exact .nil
  | cons a as ih =>
    rw [List.mapM_cons] at run
    obtain ⟨b, r₁, first, run⟩ := exists_of_runWith_bind run
    obtain ⟨bs', r₂, later, run⟩ := exists_of_runWith_bind run
    cases run
    have kept := keeps a r start
    rw [first] at kept
    exact .cons ⟨r, r₁, start, first⟩ (ih kept later)

theorem forall₂_of_runWith_mapM {α β : Type} {f : α → Compile β} {as : List α} {bs : List β}
    {r s : Report} (run : (as.mapM f).runWith r = (.ok bs, s)) :
    List.Forall₂ (fun a b => ∃ r' s', (f a).runWith r' = (.ok b, s')) as bs :=
  (forall₂_of_invariant (P := fun _ => True) (fun _ _ _ => trivial) trivial run).imp
    fun _ _ ⟨r', s', _, each⟩ => ⟨r', s', each⟩

def outputsOf (ds : List Declaration) : List (String × Nat) :=
  ds.filterMap fun d =>
    if d.category = .fragColor then d.descriptor.location.map (d.descriptor.name, ·) else none

def relayoutsOf (t : Text) (ds : List Declaration) (layouts : List (Option Layout)) : List Edit :=
  (List.zipWith (fun d layout => layout.map (Decoration.edit t d)) ds layouts).filterMap id

def exchanges (tokens : List (Token × Text)) : List Edit :=
  tokens.map fun token => ⟨token.1.start, token.1.stop, token.2⟩

theorem eq_of_runWith_silently {r s : Report} {ds' : List Declaration}
    (extracted : outcome (extract t stage (find t)) = some ds)
    (run : (silently (extract t stage (find t))).runWith r = (.ok ds', s)) : ds' = ds := by
  have steady : Steady (extract t stage (find t)) := steady_extractFrom _ _ _ _ _ _
  obtain ⟨s', same⟩ := exists_runWith_silently steady extracted r
  rw [same] at run
  cases run
  rfl

theorem exists_zipWith_of_forall₂ {α β γ : Type} {f : α → γ → β} {as : List α} {bs : List β}
    (h : List.Forall₂ (fun a b => ∃ c, b = f a c) as bs) :
    ∃ cs, cs.length = as.length ∧ bs = List.zipWith f as cs := by
  induction h with
  | nil => exact ⟨[], rfl, rfl⟩
  | cons first _ ih =>
    obtain ⟨c, rfl⟩ := first
    obtain ⟨cs, length, rfl⟩ := ih
    exact ⟨c :: cs, congrArg (· + 1) length, rfl⟩

theorem exists_relayoutsOf {request : Declaration → Compile (Option Layout)} {r s : Report}
    {edits : List Edit} (made : (Decoration.layoutEdits t request ds).runWith r = (.ok edits, s)) :
    ∃ layouts, layouts.length = ds.length ∧ edits = relayoutsOf t ds layouts := by
  unfold Decoration.layoutEdits at made
  obtain ⟨edits', r₁, made, ended⟩ := exists_of_runWith_bind made
  cases ended
  obtain ⟨layouts, length, rfl⟩ := exists_zipWith_of_forall₂
    (f := fun d layout => Option.map (Decoration.edit t d) layout)
    ((forall₂_of_runWith_mapM made).imp fun d e ⟨r', s', each⟩ => by
      obtain ⟨layout, r'', -, each⟩ := exists_of_runWith_bind each
      cases layout with
      | none =>
        cases each
        exact ⟨none, rfl⟩
      | some layout =>
        dsimp only at each
        split at each
        · cases each
          exact ⟨none, rfl⟩
        · cases each
          exact ⟨some layout, rfl⟩)
  exact ⟨layouts, length, rfl⟩

theorem exists_layoutEdits {request : Declaration → Compile (Option Layout)} {r s : Report} {u : Text}
    (extracted : outcome (extract t stage (find t)) = some ds)
    (run : (Decoration.updateLayouts t stage request).runWith r = (.ok u, s)) :
    ∃ edits r', (Decoration.layoutEdits t request ds).runWith r' = (.ok edits, s) ∧
      u = splice t edits := by
  unfold Decoration.updateLayouts at run
  obtain ⟨ds', r₁, read, run⟩ := exists_of_runWith_bind run
  obtain rfl := eq_of_runWith_silently extracted read
  obtain ⟨edits, r₂, made, run⟩ := exists_of_runWith_bind run
  cases run
  exact ⟨edits, r₁, made, rfl⟩

def calledFunctions (ts : List Token) : List Token :=
  (Legacy.textureCalls ts).map (·.function)

theorem calledFunctions_sublist (ts : List Token) : (calledFunctions ts).Sublist ts := by
  unfold calledFunctions
  fun_induction Legacy.textureCalls ts with
  | case1 => exact .slnil
  | case2 t opening sampler _ _ ih => exact ih.cons_cons t
  | case3 t opening sampler _ _ ih => exact ih.cons t
  | case4 t ts _ ih => exact ih.cons t

def renamings (t : Text) (stage : Stage) (defines : List Define) : List (Token × Text) :=
  (Legacy.textureCalls (significant t)).filterMap fun call =>
    (Legacy.callDimension? t (significant t) (find t) defines call).map fun dimension =>
      (call.function, Legacy.textureName stage call.function dimension)

theorem renamings_sublist (t : Text) (stage : Stage) (defines : List Define) :
    ((renamings t stage defines).map Prod.fst).Sublist (calledFunctions (significant t)) := by
  unfold renamings calledFunctions
  generalize Legacy.textureCalls (significant t) = calls
  induction calls with
  | nil => exact .slnil
  | cons call calls ih =>
    rw [List.filterMap_cons, List.map_cons]
    split
    · exact ih.cons _
    · rename_i renamed known
      obtain ⟨dimension, -, rfl⟩ := Option.map_eq_some_iff.1 known
      exact ih.cons_cons _

theorem textureEdits_eq {defines : List Define} {r s : Report} {edits : List (Edit × Bool)}
    (run : (Legacy.textureEdits t stage defines).runWith r = (.ok edits, s)) :
    edits = (renamings t stage defines).map (fun p =>
      ((⟨p.1.start, p.1.stop, p.2⟩ : Edit), Legacy.needsLod stage (p.1.lexeme.drop "texture".length))) ∧
    (r.throwOnError = true → ∀ call ∈ Legacy.textureCalls (significant t),
      (Legacy.callDimension? t (significant t) (find t) defines call).isSome = true) := by
  unfold Legacy.textureEdits at run
  obtain ⟨renamed, r₁, made, run⟩ := exists_of_runWith_bind run
  cases run
  have each := forall₂_of_invariant (P := fun r' => r'.throwOnError = r.throwOnError)
    (fun call r' same => by
      refine Eq.trans ?_ same
      split
      · rfl
      · refine (Composed.obeys (?_ : Composed false false [] _) r').settings
        exact (Composed.error _ _ _).bind fun _ => .pure _) rfl made
  have step : List.Forall₂ (fun call o => (r.throwOnError = true →
      (Legacy.callDimension? t (significant t) (find t) defines call).isSome = true) ∧
      (Legacy.callDimension? t (significant t) (find t) defines call).map (fun dimension =>
        ((⟨call.function.start, call.function.stop, Legacy.textureName stage call.function dimension⟩ : Edit),
          Legacy.needsLod stage (call.function.lexeme.drop "texture".length))) = o)
      (Legacy.textureCalls (significant t)) renamed := by
    refine each.imp fun call o made => ?_
    obtain ⟨r', s', same, run⟩ := made
    cases known : Legacy.callDimension? t (significant t) (find t) defines call with
    | some dimension =>
      rw [known] at run
      cases run
      exact ⟨fun _ => rfl, rfl⟩
    | none =>
      rw [known] at run
      obtain ⟨_, r'', reported, run⟩ := exists_of_runWith_bind run
      cases run
      refine ⟨fun strict => ?_, rfl⟩
      rw [runWith_error_of_throws (same.trans strict)] at reported
      cases reported
  obtain ⟨known, same⟩ := (List.forall₂_and_left _ _).1 step
  have made := List.forall₂_map_left_iff.2 same
  rw [List.forall₂_eq_eq_eq] at made
  subst made
  refine ⟨?_, fun strict call member => known call member strict⟩
  rw [List.filterMap_map, renamings, List.map_filterMap]
  simp [Function.comp_def]

theorem exists_textureEdits {defines : List Define} {r s : Report} {u : Text} {lod : Bool}
    (run : (Legacy.remapTextures t stage defines).runWith r = (.ok (u, lod), s)) :
    ∃ edits, (Legacy.textureEdits t stage defines).runWith r = (.ok edits, s) ∧
      u = splice t (edits.map Prod.fst) ∧ lod = edits.any Prod.snd := by
  unfold Legacy.remapTextures at run
  obtain ⟨edits, r₁, made, run⟩ := exists_of_runWith_bind run
  cases run
  exact ⟨edits, made, rfl, rfl⟩

theorem remapTextures_eq {defines : List Define} {r s : Report} {u : Text} {lod : Bool}
    (run : (Legacy.remapTextures t stage defines).runWith r = (.ok (u, lod), s)) :
    u = splice t (exchanges (renamings t stage defines)) ∧
      lod = (renamings t stage defines).any
        (fun p => Legacy.needsLod stage (p.1.lexeme.drop "texture".length)) ∧
      (r.throwOnError = true → ∀ call ∈ Legacy.textureCalls (significant t),
        (Legacy.callDimension? t (significant t) (find t) defines call).isSome = true) := by
  obtain ⟨edits, made, rfl, rfl⟩ := exists_textureEdits run
  obtain ⟨rfl, known⟩ := textureEdits_eq made
  refine ⟨?_, ?_, known⟩
  · rw [List.map_map]
    rfl
  · rw [List.any_map]
    rfl

theorem outputs_of_runWith_mapM {r s : Report} {outputs : List (Option (String × Nat))}
    (run : (ds.mapM Legacy.outputOf?).runWith r = (.ok outputs, s)) :
    outputs.filterMap id = outputsOf ds := by
  have each := forall₂_of_runWith_mapM run
  clear run
  induction each with
  | nil => rfl
  | @cons d o _ _ first _ ih =>
    obtain ⟨r', s', run⟩ := first
    have here : o = if d.category = .fragColor then
        d.descriptor.location.map (d.descriptor.name, ·) else none := by
      unfold Legacy.outputOf? at run
      split at run
      · rename_i output
        rw [if_pos output]
        cases location : d.descriptor.location with
        | some l =>
          rw [location] at run
          cases run
          rfl
        | none =>
          rw [location] at run
          obtain ⟨_, r'', -, run⟩ := exists_of_runWith_bind run
          cases run
          rfl
      · rename_i other
        cases run
        rw [if_neg other]
    rw [outputsOf, List.filterMap_cons, List.filterMap_cons, ← here, ih]
    rfl

theorem exists_remapTextures {defines : List Define} {r s : Report} {u : Legacy.Transcoded}
    (extracted : outcome (extract t stage (find t)) = some ds)
    (run : (Legacy.transcode t stage defines).runWith r = (.ok u, s)) :
    ∃ lod r' s', (Legacy.remapTextures (Legacy.renameOutputs (splice t (Legacy.replacements t ds)) (outputsOf ds))
      stage defines).runWith r' = (.ok (u.text, lod), s') := by
  unfold Legacy.transcode at run
  obtain ⟨ds', r₁, read, run⟩ := exists_of_runWith_bind run
  obtain rfl := eq_of_runWith_silently extracted read
  obtain ⟨outputs, r₂, named, run⟩ := exists_of_runWith_bind run
  obtain ⟨⟨text, lod⟩, r₃, remapped, run⟩ := exists_of_runWith_bind run
  cases run
  rw [outputs_of_runWith_mapM named] at remapped
  exact ⟨lod, r₂, _, remapped⟩

/-- Transcoding splices the declarations it replaces, and renames the outputs and then the texture
functions in what it has then. -/
theorem exists_exchanges {defines : List Define} {r s : Report} {u : Legacy.Transcoded}
    (extracted : outcome (extract t stage (find t)) = some ds)
    (run : (Legacy.transcode t stage defines).runWith r = (.ok u, s)) :
    ∃ tokens, (tokens.map Prod.fst).Sublist (calledFunctions (significant
        (Legacy.renameOutputs (splice t (Legacy.replacements t ds)) (outputsOf ds)))) ∧
      u.text = splice (Legacy.renameOutputs (splice t (Legacy.replacements t ds)) (outputsOf ds))
        (exchanges tokens) := by
  obtain ⟨lod, r', s', remapped⟩ := exists_remapTextures extracted run
  exact ⟨_, renamings_sublist _ stage defines, (remapTextures_eq remapped).1⟩

theorem slicesFrom_exchanges {tokens : List (Token × Text)} {n : Nat}
    (ordered : Ordered (tokens.map Prod.fst))
    (standing : ∀ token ∈ tokens, token.1.StandsIn t) (here : IsBoundary t n)
    (later : ∀ token ∈ tokens, n ≤ token.1.start) : SlicesFrom t n (exchanges tokens) := by
  induction tokens generalizing n with
  | nil => exact here
  | cons token tokens ih =>
    have stands := standing token List.mem_cons_self
    have filled := ordered.2 token.1 (by simp)
    refine ⟨here, later token List.mem_cons_self, stands.isBoundary_start, Nat.le_of_lt filled, ?_⟩
    refine ih (ordered.sublist (List.sublist_cons_self _ _))
      (fun other ho => standing other (List.mem_cons_of_mem _ ho)) stands.isBoundary_stop fun other ho => ?_
    exact (List.pairwise_cons.1 ordered.1).1 other.1 (List.mem_map_of_mem ho)

theorem canSplice_exchanges {tokens : List (Token × Text)}
    (part : (tokens.map Prod.fst).Sublist (significant t)) : CanSplice t (exchanges tokens) := by
  refine (slicesFrom_exchanges ((ordered_significant t).sublist part) (fun token ht => ?_)
    (isBoundary_zero t) fun _ _ => Nat.zero_le _).canSplice
  exact standsIn_of_mem_significant (part.mem (List.mem_map_of_mem ht))

theorem forall₂_map_right {α β : Type} {R : α → β → Prop} {f : α → β} {as : List α}
    (h : ∀ a ∈ as, R a (f a)) : List.Forall₂ R as (as.map f) :=
  List.forall₂_map_right_iff.2 (List.forall₂_same.2 h)

theorem forall₂_zipWith {α β γ : Type} {R : α → β → Prop} {f : α → γ → β} {as : List α} {cs : List γ}
    (length : cs.length = as.length) (h : ∀ a ∈ as, ∀ c, R a (f a c)) :
    List.Forall₂ R as (List.zipWith f as cs) := by
  induction as generalizing cs with
  | nil => exact .nil
  | cons a as ih =>
    obtain ⟨c, cs, rfl⟩ := List.exists_cons_of_length_eq_add_one length
    exact .cons (h a List.mem_cons_self c)
      (ih (Nat.succ.inj length) fun b hb => h b (List.mem_cons_of_mem _ hb))

section Run

variable {P : Statement → Prop} (run : Run t stage (find t) P [] [] (significant t) ds)
include run

theorem Run.slicesFrom {es : List (Option Edit)} (edits : List.Forall₂ (EditIn t) ds es) :
    SlicesFrom t 0 (es.filterMap id) :=
  slicesFrom_of_editIn edits run.apart.1 (isBoundary_zero t) fun _ _ => Nat.zero_le _

theorem Run.slicesFrom_replacements : SlicesFrom t 0 (Legacy.replacements t ds) := by
  have edits := run.slicesFrom (forall₂_map_right fun d hd =>
    (run.sited hd).editIn_whole (Legacy.replacement? t d))
  rwa [List.filterMap_map] at edits

theorem Run.canSplice_relayoutsOf {layouts : List (Option Layout)} (length : layouts.length = ds.length) :
    CanSplice t (relayoutsOf t ds layouts) :=
  (run.slicesFrom (forall₂_zipWith length fun _ hd layout =>
    (run.sited hd).editIn_layout layout)).canSplice

end Run

/-- A text made from another one by the edits of an update, which can be spliced. -/
def Relays (t : Text) (ds : List Declaration) (update : Declaration → Compile (Option Layout))
    (u : Text) : Prop :=
  ∃ edits layouts r s, (Decoration.layoutEdits t update ds).runWith r = (.ok edits, s) ∧
    layouts.length = ds.length ∧ edits = relayoutsOf t ds layouts ∧ CanSplice t edits ∧
    u = splice t edits

/-- A text made from another one by the edits for its texture calls, which can be spliced. -/
def Recalls (v : Text) (stage : Stage) (defines : List Define) (u : Text) : Prop :=
  ∃ edits tokens r s, (Legacy.textureEdits v stage defines).runWith r = (.ok edits, s) ∧
    edits.map Prod.fst = exchanges tokens ∧ CanSplice v (edits.map Prod.fst) ∧
    u = splice v (edits.map Prod.fst)

theorem recalls_of_remapTextures {v : Text} {defines : List Define} {r s : Report} {u : Text} {lod : Bool}
    (run : (Legacy.remapTextures v stage defines).runWith r = (.ok (u, lod), s)) :
    Recalls v stage defines u := by
  obtain ⟨edits, made, rfl, -⟩ := exists_textureEdits run
  have renamed : edits.map Prod.fst = exchanges (renamings v stage defines) := by
    rw [(textureEdits_eq made).1, List.map_map]
    rfl
  refine ⟨edits, renamings v stage defines, r, s, made, renamed, renamed ▸ ?_, rfl⟩
  exact canSplice_exchanges ((renamings_sublist v stage defines).trans (calledFunctions_sublist _))

theorem relays_of_updateLayouts {P : Statement → Prop} (run : Run t stage (find t) P [] [] (significant t) ds)
    (extracted : outcome (extract t stage (find t)) = some ds)
    {update : Declaration → Compile (Option Layout)} {r s : Report} {u : Text}
    (updated : (Decoration.updateLayouts t stage update).runWith r = (.ok u, s)) :
    Relays t ds update u := by
  obtain ⟨edits, r', made, rfl⟩ := exists_layoutEdits extracted updated
  obtain ⟨layouts, length, rfl⟩ := exists_relayoutsOf made
  exact ⟨_, layouts, r', s, made, length, rfl, run.canSplice_relayoutsOf length, rfl⟩

/-- Declarations whose ranges are safe to splice: they come one after the other, apart from all
functions, with their qualifiers inside, and the edits that transcoding and decoration make can be
spliced. -/
structure SplicesSafely (t : Text) (stage : Stage) (ds : List Declaration) : Prop where
  ascending : ds.Pairwise fun d e => d.stop ≤ e.start
  sited : ∀ d ∈ ds, Sited t d
  apart : ∀ d ∈ ds, ∀ f ∈ find t, d.stop ≤ f.start ∨ f.stop ≤ d.start
  replaced : CanSplice t (Legacy.replacements t ds)
  transcoded : ∀ defines r u s, (Legacy.transcode t stage defines).runWith r = (.ok u, s) →
    ∃ outputs, Recalls (Legacy.renameOutputs (splice t (Legacy.replacements t ds)) outputs) stage defines
      u.text
  relaid : ∀ layouts : List (Option Layout), layouts.length = ds.length →
    CanSplice t (relayoutsOf t ds layouts)
  decorated : ∀ info version r u s,
    (Decoration.memoryLayouts t stage info version).runWith r = (.ok u, s) →
      Relays t ds (Decoration.memoryUpdate info version) u
  bound : ∀ info version r u s, (Decoration.slots t stage info version).runWith r = (.ok u, s) →
    version < 300 ∧ u = t ∨ Relays t ds (Decoration.slotUpdate info version) u

/-- Extraction reports ranges that are safe to splice. -/
theorem extract_splicesSafely {r s : Report}
    (extracted : (extract t stage (find t)).runWith r = (.ok ds, s)) : SplicesSafely t stage ds := by
  have value := (composed_extractFrom t stage (find t) [] [] (significant t)).outcome_of_ok extracted
  have run := run_of_outcome value
  refine ⟨run.apart.1, fun d hd => run.sited hd, fun d hd => run.disjoint hd,
    run.slicesFrom_replacements.canSplice, fun defines r u s transcoded => ?_, fun _ => run.canSplice_relayoutsOf,
    fun info version r u s written => relays_of_updateLayouts run value written, fun info version r u s written => ?_⟩
  · obtain ⟨lod, r', s', remapped⟩ := exists_remapTextures value transcoded
    exact ⟨_, recalls_of_remapTextures remapped⟩
  · unfold Decoration.slots at written
    split at written
    · rename_i old
      cases written
      exact Or.inl ⟨old, rfl⟩
    · exact Or.inr (relays_of_updateLayouts run value written)

theorem extract_splicesSafely_around_function :
    let t := "layout(location = 0) in vec2 uv;\nvoid main() \x7b\x7d\nuniform sampler2D image".toList
    ∃ ds s, (extract t .fragment (find t)).runWith {} = (.ok ds, s) ∧
      ds.map (·.descriptor.name) = ["uv", "image"] ∧ SplicesSafely t .fragment ds := by
  intro t
  have names : ((extract t .fragment (find t)).runWith {}).1.toOption.map
      (List.map (·.descriptor.name)) = some ["uv", "image"] := by decide +kernel
  obtain ⟨ds, some_ds, names⟩ := Option.map_eq_some_iff.1 names
  rcases run : (extract t .fragment (find t)).runWith {} with ⟨result, s⟩
  rw [run] at some_ds
  cases result with
  | error failure => cases some_ds
  | ok ds' =>
    obtain rfl := Option.some.inj some_ds
    exact ⟨ds', s, rfl, names, extract_splicesSafely run⟩

end Runs

end Declaration
end ShaderPass
