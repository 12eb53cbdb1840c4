import Mathlib.Data.List.Forall2
import ShaderPass.LiveCode
import ShaderPass.Proofs.Token.Position

/-! Dead code elimination: the functions that stay are those that the roots reach, everything else is
cut out of the text, and what stays keeps its wording and its dependencies. -/
namespace ShaderPass.LiveCode

theorem mem_reach_of_mem_pending {next : Nat → List Nat} {unseen pending : List Nat} {i : Nat}
    (root : i ∈ pending) (inside : i ∈ unseen) : i ∈ reach next unseen pending := by
  fun_induction reach next unseen pending with
  | case1 unseen pending found =>
    have := List.find?_eq_none.1 found i root
    simp [inside] at this
  | case2 unseen pending node found ih =>
    by_cases same : i = node
    · rw [same]
      exact List.mem_cons_self
    · exact List.mem_cons_of_mem _
        (ih (List.mem_append_right _ root) ((List.mem_erase_of_ne same).2 inside))

theorem mem_reach_of_mem_next {next : Nat → List Nat} {unseen pending : List Nat} {i j : Nat}
    (reached : i ∈ reach next unseen pending) (edge : j ∈ next i) (inside : j ∈ unseen) :
    j ∈ reach next unseen pending := by
  fun_induction reach next unseen pending with
  | case1 => simp at reached
  | case2 unseen pending node found ih =>
    by_cases same : j = node
    · rw [same]
      exact List.mem_cons_self
    · have inside' := (List.mem_erase_of_ne same).2 inside
      apply List.mem_cons_of_mem
      rcases List.mem_cons.1 reached with rfl | reached
      · exact mem_reach_of_mem_pending (List.mem_append_left _ edge) inside'
      · exact ih reached inside'

theorem reach_induction {next : Nat → List Nat} {unseen pending : List Nat} {P : Nat → Prop}
    (root : ∀ i ∈ pending, P i) (step : ∀ i, P i → ∀ j ∈ next i, P j) {i : Nat}
    (reached : i ∈ reach next unseen pending) : P i := by
  fun_induction reach next unseen pending with
  | case1 => simp at reached
  | case2 unseen pending node found ih =>
    have node_root := root node (List.mem_of_find?_eq_some found)
    rcases List.mem_cons.1 reached with rfl | reached
    · exact node_root
    · refine ih (fun j hj => ?_) reached
      rcases List.mem_append.1 hj with h | h
      · exact step node node_root j h
      · exact root j h

/-- The functions that stay: the entry, or the first function if there is no entry, every `main`, and
whatever one of them depends on or shares its name with. -/
inductive Reached (functions : List FunctionDef) (entry : String) : Nat → Prop where
  | entry {i f} : functions[i]? = some f → f.name = entry → Reached functions entry i
  | first : (∀ f ∈ functions, f.name ≠ entry) → functions ≠ [] → Reached functions entry 0
  | main {i f} : functions[i]? = some f → f.name = "main" → Reached functions entry i
  | dep {i j f} : Reached functions entry i → functions[i]? = some f → j ∈ f.deps →
      Reached functions entry j
  | overload {i j f g} : Reached functions entry i → functions[i]? = some f →
      functions[j]? = some g → g.name = f.name → Reached functions entry j

theorem Reached.lt_length {functions : List FunctionDef} {entry : String} {i : Nat}
    (deps : ∀ f ∈ functions, ∀ j ∈ f.deps, j < functions.length)
    (h : Reached functions entry i) : i < functions.length := by
  cases h with
  | entry found _ => exact (List.getElem?_eq_some_iff.1 found).1
  | first _ some_function => exact List.length_pos_of_ne_nil some_function
  | main found _ => exact (List.getElem?_eq_some_iff.1 found).1
  | dep _ found member => exact deps _ (List.mem_of_getElem? found) i member
  | overload _ _ found _ => exact (List.getElem?_eq_some_iff.1 found).1

theorem mem_named_iff {functions : List FunctionDef} {name : String} {i : Nat} :
    i ∈ named functions name ↔ ∃ f, functions[i]? = some f ∧ f.name = name := by
  simp only [named, List.mem_filterMap, Prod.exists, List.mem_zipIdx_iff_getElem?,
    Option.ite_none_right_eq_some, Option.some.injEq]
  constructor
  · rintro ⟨f, j, found, same, rfl⟩
    exact ⟨f, found, same⟩
  · rintro ⟨f, found, same⟩
    exact ⟨f, i, found, same, rfl⟩

theorem reached_of_mem_roots {functions : List FunctionDef} {entry : String} {i : Nat}
    (root : i ∈ roots functions entry) : Reached functions entry i := by
  rw [roots, List.mem_append] at root
  rcases root with root | root
  · split at root
    · rename_i no_entry
      have no_entry : ∀ f ∈ functions, f.name ≠ entry := by
        intro f hf same
        obtain ⟨j, found⟩ := List.mem_iff_getElem?.1 hf
        rw [List.isEmpty_iff] at no_entry
        have := mem_named_iff.2 ⟨f, found, same⟩
        rw [no_entry] at this
        exact absurd this List.not_mem_nil
      cases functions with
      | nil => simp at root
      | cons f fs =>
        have : i = 0 := by simpa [List.range_succ_eq_map] using root
        rw [this]
        exact .first no_entry (by simp)
    · obtain ⟨f, found, same⟩ := mem_named_iff.1 root
      exact .entry found same
  · obtain ⟨f, found, same⟩ := mem_named_iff.1 root
    exact .main found same

theorem mem_live_iff {functions : List FunctionDef} (entry : String)
    (deps : ∀ f ∈ functions, ∀ j ∈ f.deps, j < functions.length) {i : Nat} :
    i ∈ live functions entry ↔ Reached functions entry i := by
  have inside {j : Nat} (h : j < functions.length) : j ∈ List.range functions.length :=
    List.mem_range.2 h
  have in_range {j : Nat} {f : FunctionDef} (h : functions[j]? = some f) :
      j ∈ List.range functions.length := inside (List.getElem?_eq_some_iff.1 h).1
  constructor
  · intro alive
    refine reach_induction (fun j hj => reached_of_mem_roots hj) (fun j hj k hk => ?_) alive
    unfold supports at hk
    split at hk
    · rename_i f found
      rcases List.mem_append.1 hk with hk | hk
      · exact .dep hj found hk
      · obtain ⟨g, found', same⟩ := mem_named_iff.1 hk
        exact .overload hj found found' same
    · exact absurd hk List.not_mem_nil
  · intro reached
    unfold live
    induction reached with
    | @entry i f found same =>
      have named_entry := mem_named_iff.2 ⟨f, found, same⟩
      refine mem_reach_of_mem_pending ?_ (in_range found)
      rw [roots, if_neg (by rw [List.isEmpty_iff]; exact List.ne_nil_of_mem named_entry)]
      exact List.mem_append_left _ named_entry
    | first no_entry some_function =>
      have positive : 0 < functions.length := List.length_pos_of_ne_nil some_function
      refine mem_reach_of_mem_pending ?_ (inside positive)
      have empty : named functions entry = [] := by
        rw [List.eq_nil_iff_forall_not_mem]
        intro j hj
        obtain ⟨f, found, same⟩ := mem_named_iff.1 hj
        exact no_entry f (List.mem_of_getElem? found) same
      rw [roots, empty, List.isEmpty_nil, if_pos rfl]
      apply List.mem_append_left
      obtain ⟨n, hn⟩ : ∃ n, functions.length = n + 1 := ⟨functions.length - 1, by omega⟩
      simp [hn, List.range_succ_eq_map]
    | @main i f found same =>
      refine mem_reach_of_mem_pending ?_ (in_range found)
      exact List.mem_append_right _ (mem_named_iff.2 ⟨f, found, same⟩)
    | @dep i j f _ found member ih =>
      refine mem_reach_of_mem_next ih ?_ (inside (deps f (List.mem_of_getElem? found) j member))
      rw [supports, found]
      exact List.mem_append_left _ member
    | @overload i j f g _ found found' same ih =>
      refine mem_reach_of_mem_next ih ?_ (in_range found')
      rw [supports, found]
      exact List.mem_append_right _ (mem_named_iff.2 ⟨g, found', same⟩)

theorem exists_removalStop {t : Text} {stop : Nat} (h : Text.IsBoundary t stop) :
    ∃ a tail b, t = a ++ (tail ++ b) ∧ Text.byteLen a = stop ∧
      removalStop t stop = stop + Text.byteLen tail ∧ ∀ c ∈ tail, isTokenBlank c = true := by
  obtain ⟨a, rest, rfl, rfl⟩ := h
  let p := fun c : Char => c = ' ' || c = '\t' || c = '\r'
  have split : rest.takeWhile p ++ rest.drop (rest.takeWhile p).length = rest :=
    List.prefix_iff_eq_append.1 (List.takeWhile_prefix p)
  have blanks : ∀ c ∈ rest.takeWhile p, isTokenBlank c = true := by
    intro c hc
    have := List.all_eq_true.1 List.all_takeWhile c hc
    simp only [p, Bool.or_eq_true, decide_eq_true_eq] at this
    rcases this with (rfl | rfl) | rfl <;> rfl
  have value : removalStop (a ++ rest) (Text.byteLen a) =
      if (rest.drop (rest.takeWhile p).length).head? = some '\n' then
        Text.byteLen a + Text.byteLen (rest.takeWhile p) + 1
      else Text.byteLen a + Text.byteLen (rest.takeWhile p) := by
    unfold removalStop
    rw [Text.dropBytes_byteLen_append]
  by_cases feed : (rest.drop (rest.takeWhile p).length).head? = some '\n'
  · obtain ⟨b, hb⟩ := List.head?_eq_some_iff.1 feed
    rw [if_pos feed] at value
    refine ⟨a, rest.takeWhile p ++ ['\n'], b, ?_, rfl, ?_, ?_⟩
    · rw [List.append_assoc, List.singleton_append, ← hb, split]
    · rw [value, Text.byteLen_append, ← Nat.add_assoc]
      rfl
    · intro c hc
      rcases List.mem_append.1 hc with hc | hc
      · exact blanks c hc
      · rw [List.mem_singleton.1 hc]
        rfl
  · rw [if_neg feed] at value
    exact ⟨a, rest.takeWhile p, _, by rw [split], rfl, value, blanks⟩

theorem isBoundary_removalStop {t : Text} {stop : Nat} (h : Text.IsBoundary t stop) :
    Text.IsBoundary t (removalStop t stop) := by
  obtain ⟨a, tail, b, rfl, rfl, value, -⟩ := exists_removalStop h
  exact ⟨a ++ tail, b, by rw [List.append_assoc], by rw [Text.byteLen_append, value]⟩

theorem le_removalStop {t : Text} {stop : Nat} (h : Text.IsBoundary t stop) :
    stop ≤ removalStop t stop := by
  obtain ⟨_, _, _, _, _, value, -⟩ := exists_removalStop h
  omega

theorem removalStop_le_start {t : Text} {stop : Nat} (h : Text.IsBoundary t stop) {token : Token}
    (member : token ∈ Token.significant t) (le : stop ≤ token.start) :
    removalStop t stop ≤ token.start := by
  obtain ⟨a, tail, b, split, rfl, value, blanks⟩ := exists_removalStop h
  obtain ⟨a', b', split', start⟩ :=
    (Token.standsIn_of_mem_scan (Token.mem_scan_of_mem_significant member)).1
  obtain ⟨c, rest, lexeme, not_blank⟩ := Token.exists_cons_of_mem_significant member
  rw [value]
  refine Nat.le_of_not_lt fun inside => ?_
  -- The token's first character would be one of the blanks.
  obtain ⟨m, rfl, eq⟩ := Text.append_eq_append_of_byteLen_le (split.symm.trans split') (by omega)
  rw [Text.byteLen_append] at start
  obtain ⟨m', rfl, eq'⟩ := Text.append_eq_append_of_byteLen_le eq.symm (by omega)
  cases m' with
  | nil =>
    rw [List.append_nil] at inside
    omega
  | cons d m' =>
    rw [lexeme] at eq'
    obtain ⟨rfl, -⟩ := List.cons.inj eq'
    have := blanks c (by simp)
    rw [not_blank] at this
    cases this

structure Ranged (t : Text) (f : FunctionDef) : Prop where
  start : Text.IsBoundary t f.start
  stop : Text.IsBoundary t f.stop
  paramStop : Text.IsBoundary t f.paramStop
  start_le : f.start ≤ f.paramStop
  paramStop_le : f.paramStop ≤ f.stop

theorem ranged_of_mem_find {t : Text} {f : FunctionDef} (h : f ∈ FunctionDef.find t) :
    Ranged t f := by
  obtain ⟨first, hf, param, hp, last, hl, start, param_stop, stop, le, lt⟩ :=
    (FunctionDef.boundedBy_find t).1 f h
  have stands {token : Token} (member : token ∈ Token.significant t) : token.StandsIn t :=
    (Token.standsIn_of_mem_scan (Token.mem_scan_of_mem_significant member)).1
  exact ⟨start ▸ (stands hf).isBoundary_start, stop ▸ (stands hl).isBoundary_stop,
    param_stop ▸ (stands hp).isBoundary_stop, le, Nat.le_of_lt lt⟩

theorem pairwise_removalStop (t : Text) :
    (FunctionDef.find t).Pairwise fun f g => removalStop t f.stop ≤ g.start := by
  obtain ⟨bounded, apart⟩ := FunctionDef.boundedBy_find t
  refine apart.imp_of_mem fun {f g} hf hg le => ?_
  obtain ⟨first, member, -, -, -, -, start, -⟩ := bounded g hg
  rw [start] at le ⊢
  exact removalStop_le_start (ranged_of_mem_find hf).stop member le

section Retain

variable {t : Text} {alive : List Nat}

def removals (t : Text) (alive : List Nat) (functions : List (FunctionDef × Nat)) : List Edit :=
  (functions.filter fun (_, i) => i ∉ alive).map fun (f, _) => ⟨f.start, removalStop t f.stop, []⟩

theorem removals_cons_of_mem {f : FunctionDef} {i : Nat} (live : i ∈ alive)
    (rest : List (FunctionDef × Nat)) :
    removals t alive ((f, i) :: rest) = removals t alive rest := by
  simp [removals, live]

theorem removals_cons_of_notMem {f : FunctionDef} {i : Nat} (dead : i ∉ alive)
    (rest : List (FunctionDef × Nat)) :
    removals t alive ((f, i) :: rest) =
      ⟨f.start, removalStop t f.stop, []⟩ :: removals t alive rest := by
  simp [removals, dead]

def Follow (t : Text) (offset : Nat) (functions : List (FunctionDef × Nat)) : Prop :=
  (∀ f ∈ functions, Ranged t f.1 ∧ offset ≤ f.1.start) ∧
    functions.Pairwise fun f g => removalStop t f.1.stop ≤ g.1.start

theorem Follow.tail {offset : Nat} {f : FunctionDef × Nat} {rest : List (FunctionDef × Nat)}
    (h : Follow t offset (f :: rest)) : Follow t (removalStop t f.1.stop) rest := by
  obtain ⟨before, apart⟩ := List.pairwise_cons.1 h.2
  exact ⟨fun g hg => ⟨(h.1 g (List.mem_cons_of_mem _ hg)).1, before g hg⟩, apart⟩

theorem Follow.mono {m n : Nat} {functions : List (FunctionDef × Nat)} (h : Follow t n functions)
    (le : m ≤ n) : Follow t m functions :=
  ⟨fun f hf => ⟨(h.1 f hf).1, Nat.le_trans le (h.1 f hf).2⟩, h.2⟩

theorem Follow.removals_later {offset : Nat} {functions : List (FunctionDef × Nat)}
    (h : Follow t offset functions) (alive : List Nat) :
    ∀ e ∈ removals t alive functions, offset ≤ e.start ∧ offset ≤ e.stop := by
  intro e he
  obtain ⟨⟨f, i⟩, hf, rfl⟩ := List.mem_map.1 he
  obtain ⟨ranged, le⟩ := h.1 _ (List.mem_filter.1 hf).1
  have := le_removalStop ranged.stop
  have := ranged.start_le
  have := ranged.paramStop_le
  exact ⟨le, by simp only at *; omega⟩

def Stays (output : Text) (shift : Nat) (t : Text) (f g : FunctionDef) : Prop :=
  g.name = f.name ∧ g.returnType = f.returnType ∧
    ∃ x y, output = x ++ (Text.slice f.start f.stop t ++ y) ∧ Text.byteLen x + shift = g.start ∧
      g.start + (f.stop - f.start) = g.stop ∧ g.start + (f.paramStop - f.start) = g.paramStop

theorem Stays.prepend {output : Text} {shift shift' : Nat} {f g : FunctionDef} {s : Text}
    (h : Stays output shift t f g) (len : Text.byteLen s + shift' = shift) :
    Stays (s ++ output) shift' t f g := by
  obtain ⟨name, type, x, y, rfl, start, rest⟩ := h
  refine ⟨name, type, s ++ x, y, by simp, ?_, rest⟩
  rw [Text.byteLen_append]
  omega

/-- What stays of the functions from `offset` on, `removed` bytes having been cut out in front. -/
theorem stays_retain (alive : List Nat) {offset removed : Nat} (here : Text.IsBoundary t offset)
    (le : removed ≤ offset) (functions : List (FunctionDef × Nat))
    (follow : Follow t offset functions) :
    List.Forall₂ (fun f g => Stays (Text.spliceFrom offset (Text.dropBytes offset t)
        (removals t alive functions)) (offset - removed) t f.1 g ∧
        g.deps = (f.1.deps.filter (· ∈ alive)).map (newIndex alive))
      (functions.filter fun f => f.2 ∈ alive) (retain t alive removed functions) := by
  induction functions generalizing offset removed with
  | nil => exact List.Forall₂.nil
  | cons entry rest ih =>
    obtain ⟨f, i⟩ := entry
    obtain ⟨ranged, start_le⟩ : Ranged t f ∧ offset ≤ f.start := follow.1 _ List.mem_cons_self
    have later : Follow t (removalStop t f.stop) rest := follow.tail
    have stop_le := le_removalStop ranged.stop
    have := ranged.start_le
    have := ranged.paramStop_le
    have len := Text.byteLen_slice here ranged.start start_le
    by_cases live : i ∈ alive
    · have cut := Text.spliceFrom_dropBytes here ranged.stop (by omega)
        ((later.mono stop_le).removals_later alive)
      have cut_start := Text.slice_append_slice here ranged.start ranged.stop start_le (by omega)
      have len' := Text.byteLen_slice here ranged.stop (by omega)
      rw [List.filter_cons_of_pos (by simpa using live), retain, if_pos live,
        removals_cons_of_mem live, cut]
      refine List.Forall₂.cons ⟨⟨rfl, rfl, Text.slice offset f.start t,
        Text.spliceFrom f.stop (Text.dropBytes f.stop t) (removals t alive rest), ?_, ?_, ?_, ?_⟩,
        rfl⟩ ?_
      · rw [← List.append_assoc, cut_start]
      · simp only
        omega
      · simp only
        omega
      · simp only
        omega
      · exact (ih ranged.stop (by omega) (later.mono stop_le)).imp
          fun _ _ h => ⟨h.1.prepend (by omega), h.2⟩
    · rw [List.filter_cons_of_neg (by simpa using live), retain, if_neg live,
        removals_cons_of_notMem live, Text.spliceFrom_cons here _ _ (by simp only; omega)]
      simp only [List.append_nil]
      exact (ih (isBoundary_removalStop ranged.stop) (by omega) later).imp
        fun _ _ h => ⟨h.1.prepend (by omega), h.2⟩

/-- Ranges that take out the dead ones among some functions, and nothing else behind `offset`. -/
structure Deletes (t : Text) (alive : List Nat) (ranges : List (Nat × Nat)) (offset : Nat)
    (functions : List (FunctionDef × Nat)) : Prop where
  dead : ∀ f ∈ functions, f.2 ∉ alive → (f.1.start, removalStop t f.1.stop) ∈ ranges
  other : ∀ r ∈ ranges, r.2 ≤ offset ∨
    ∃ f ∈ functions, f.2 ∉ alive ∧ r = (f.1.start, removalStop t f.1.stop)

section Deletes

variable {ranges : List (Nat × Nat)} {offset i : Nat} {f : FunctionDef}
  {functions rest : List (FunctionDef × Nat)}

theorem Deletes.tail (h : Deletes t alive ranges offset ((f, i) :: rest)) {n : Nat} (le : offset ≤ n)
    (first : i ∉ alive → removalStop t f.stop ≤ n) : Deletes t alive ranges n rest := by
  refine ⟨fun g member => h.dead g (List.mem_cons_of_mem _ member), fun r member => ?_⟩
  rcases h.other r member with before | ⟨g, among, gone, rfl⟩
  · exact Or.inl (Nat.le_trans before le)
  · rcases List.mem_cons.1 among with rfl | among
    · exact Or.inl (first gone)
    · exact Or.inr ⟨g, among, gone, rfl⟩

theorem Deletes.without_eq_self (h : Deletes t alive ranges offset functions) {s : Text}
    (before : ∀ g ∈ functions, g.2 ∉ alive → offset + Text.byteLen s ≤ g.1.start) :
    Text.without ranges offset s = s := by
  refine Text.without_eq_self fun r member => ?_
  rcases h.other r member with ended | ⟨g, among, gone, rfl⟩
  · exact Or.inl ended
  · exact Or.inr (before g among gone)

end Deletes

theorem spliceFrom_removals {ranges : List (Nat × Nat)} {offset : Nat}
    (here : Text.IsBoundary t offset) {functions : List (FunctionDef × Nat)}
    (follow : Follow t offset functions) (deletes : Deletes t alive ranges offset functions) :
    Text.spliceFrom offset (Text.dropBytes offset t) (removals t alive functions) =
      Text.without ranges offset (Text.dropBytes offset t) := by
  induction functions generalizing offset with
  | nil => exact (deletes.without_eq_self fun _ member _ => absurd member List.not_mem_nil).symm
  | cons entry rest ih =>
    obtain ⟨f, i⟩ := entry
    obtain ⟨ranged, start_le⟩ : Ranged t f ∧ offset ≤ f.start := follow.1 _ List.mem_cons_self
    have later : Follow t (removalStop t f.stop) rest := follow.tail
    have stop_le := le_removalStop ranged.stop
    have := ranged.start_le
    have := ranged.paramStop_le
    have here' := isBoundary_removalStop ranged.stop
    have le : offset ≤ removalStop t f.stop := by omega
    have after (g : FunctionDef × Nat) (member : g ∈ rest) : removalStop t f.stop ≤ g.1.start :=
      (later.1 g member).2
    by_cases live : i ∈ alive
    · have len := Text.byteLen_slice here here' le
      have whole : Text.without ranges offset (Text.slice offset (removalStop t f.stop) t) =
          Text.slice offset (removalStop t f.stop) t :=
        (deletes.tail (Nat.le_refl _) (absurd live)).without_eq_self fun g member _ => by
          rw [len, Nat.add_sub_cancel' le]
          exact after g member
      rw [removals_cons_of_mem live, Text.spliceFrom_dropBytes here here' le
        (later.removals_later alive), ← Text.slice_append_dropBytes here here' le,
        Text.without_append, len, Nat.add_sub_cancel' le, whole,
        ih here' later (deletes.tail le (absurd live))]
    · have len := Text.byteLen_slice here ranged.start start_le
      have len' := Text.byteLen_slice ranged.start here' (by omega)
      have whole : Text.without ranges offset (Text.slice offset f.start t) =
          Text.slice offset f.start t :=
        deletes.without_eq_self fun g member _ => by
          rw [len, Nat.add_sub_cancel' start_le]
          rcases List.mem_cons.1 member with rfl | member
          · exact Nat.le_refl _
          · exact Nat.le_trans (by omega) (after g member)
      have gone : Text.without ranges f.start (Text.slice f.start (removalStop t f.stop) t) = [] :=
        Text.without_eq_nil (deletes.dead _ List.mem_cons_self live) (Nat.le_refl _)
          (by simp only; omega)
      rw [removals_cons_of_notMem live, Text.spliceFrom_cons here _ _ (by simp only; omega)]
      simp only [List.append_nil]
      rw [ih here' later (deletes.tail le fun _ => Nat.le_refl _),
        ← Text.slice_append_dropBytes here ranged.start start_le,
        ← Text.slice_append_dropBytes ranged.start here' (by omega), Text.without_append,
        Text.without_append, len, len', Nat.add_sub_cancel' start_le,
        Nat.add_sub_cancel' (by omega), whole, gone, List.nil_append]

end Retain

theorem lt_length_of_mem_deps {t : Text} {f : FunctionDef} (h : f ∈ FunctionDef.find t) {j : Nat}
    (dep : j ∈ f.deps) : j < (FunctionDef.find t).length := by
  obtain ⟨g, -, rfl⟩ := List.mem_map.1 h
  obtain ⟨⟨other, i⟩, member, named⟩ := List.mem_filterMap.1 dep
  obtain ⟨-, same⟩ := Option.ite_none_right_eq_some.1 named
  obtain rfl := Option.some.inj same
  rw [FunctionDef.find, List.length_map]
  exact (List.getElem?_eq_some_iff.1 (List.mem_zipIdx_iff_getElem?.1 member)).1

theorem getElem?_newIndex {alive : List Nat} {n i : Nat} (inside : i < n) (live : i ∈ alive) :
    ((List.range n).filter (· ∈ alive))[newIndex alive i]? = some i := by
  induction n with
  | zero => omega
  | succ n ih =>
    rw [List.range_succ, List.filter_append]
    rcases Nat.lt_succ_iff_lt_or_eq.1 inside with inside | rfl
    · have found := ih inside
      rw [List.getElem?_append_left (List.getElem?_eq_some_iff.1 found).1, found]
    · rw [newIndex, List.getElem?_append_right (Nat.le_refl _), Nat.sub_self,
        List.filter_cons_of_pos (by simpa using live)]
      rfl

theorem map_getElem?_newIndex {alive deps : List Nat} {n : Nat}
    (inside : ∀ j ∈ deps, j < n ∧ j ∈ alive) :
    ((deps.filter (· ∈ alive)).map (newIndex alive)).map
      (((List.range n).filter (· ∈ alive))[·]?) = deps.map some := by
  have all_live : deps.filter (· ∈ alive) = deps :=
    List.filter_eq_self.2 fun j hj => decide_eq_true (inside j hj).2
  rw [all_live, List.map_map]
  exact List.map_congr_left fun j hj => getElem?_newIndex (inside j hj).1 (inside j hj).2

structure Carried (t output : Text) (kept : List Nat) (f g : FunctionDef) : Prop where
  name : g.name = f.name
  returnType : g.returnType = f.returnType
  wording : Text.slice g.start g.stop output = Text.slice f.start f.stop t
  header : Text.slice g.start g.paramStop output = Text.slice f.start f.paramStop t
  deps : g.deps.map (kept[·]?) = f.deps.map some

theorem Stays.carried {t output : Text} {kept : List Nat} {f g : FunctionDef}
    (h : Stays output 0 t f g) (ranged : Ranged t f)
    (deps : g.deps.map (kept[·]?) = f.deps.map some) : Carried t output kept f g := by
  obtain ⟨name, type, x, y, rfl, start, stop, param_stop⟩ := h
  have := ranged.start_le
  have := ranged.paramStop_le
  have len := Text.byteLen_slice ranged.start ranged.stop (by omega)
  have len' := Text.byteLen_slice ranged.start ranged.paramStop ranged.start_le
  refine ⟨name, type, ?_, ?_, deps⟩
  · rw [← start, ← stop, ← len, ← start]
    exact Text.slice_append _ _ _
  · rw [← start, ← param_stop, ← len', ← start, ← Text.slice_append_slice ranged.start
      ranged.paramStop ranged.stop ranged.start_le ranged.paramStop_le, List.append_assoc]
    exact Text.slice_append _ _ _

/-- The ranges of the functions that are not among `kept`, each with the blanks behind it. -/
def deadRanges (t : Text) (kept : List Nat) : List (Nat × Nat) :=
  ((FunctionDef.find t).zipIdx.filter fun f => f.2 ∉ kept).map
    fun f => (f.1.start, removalStop t f.1.stop)

theorem follow_find (t : Text) : Follow t 0 (FunctionDef.find t).zipIdx := by
  constructor
  · rintro ⟨f, i⟩ member
    exact ⟨ranged_of_mem_find (List.fst_mem_of_mem_zipIdx member), Nat.zero_le _⟩
  · have apart := pairwise_removalStop t
    rw [← List.zipIdx_map_fst 0 (FunctionDef.find t), List.pairwise_map] at apart
    exact apart

theorem pairwise_deadRanges (t : Text) (kept : List Nat) :
    (deadRanges t kept).Pairwise fun a b => a.2 ≤ b.1 :=
  List.pairwise_map.2 ((follow_find t).2.filter _)

theorem pairwise_start_removals (t : Text) (alive : List Nat) :
    (removals t alive (FunctionDef.find t).zipIdx).Pairwise fun a b => a.start ≤ b.start := by
  have follow := follow_find t
  refine List.pairwise_map.2 (List.Pairwise.filter _ (follow.2.imp_of_mem fun {f g} hf _ le => ?_))
  have ranged := (follow.1 f hf).1
  have := le_removalStop ranged.stop
  have := ranged.start_le
  have := ranged.paramStop_le
  simp only
  omega

/-- Elimination keeps the functions that the roots reach, in their order, with their wording and
their dependencies, and deletes the disjoint ranges of the others. -/
theorem eliminate_exact (t : Text) (entry : String) :
    ∃ kept : List Nat, kept.Pairwise (· < ·) ∧
      (∀ i, i ∈ kept ↔ Reached (FunctionDef.find t) entry i) ∧
      List.Forall₂ (fun i g => ∃ f, (FunctionDef.find t)[i]? = some f ∧
        Carried t (eliminate t entry).text kept f g) kept (eliminate t entry).functions ∧
      (deadRanges t kept).Pairwise (fun a b => a.2 ≤ b.1) ∧
      (eliminate t entry).text = Text.without (deadRanges t kept) 0 t := by
  have deps : ∀ f ∈ FunctionDef.find t, ∀ j ∈ f.deps, j < (FunctionDef.find t).length :=
    fun f hf j hj => lt_length_of_mem_deps hf hj
  let alive := live (FunctionDef.find t) entry
  have mem_alive {i : Nat} : i ∈ alive ↔ Reached (FunctionDef.find t) entry i :=
    mem_live_iff entry deps
  let kept := (List.range (FunctionDef.find t).length).filter (· ∈ alive)
  have mem_kept {i : Nat} : i ∈ kept ↔ i ∈ alive := by
    rw [List.mem_filter, List.mem_range, decide_eq_true_eq]
    exact ⟨And.right, fun h => ⟨(mem_alive.1 h).lt_length deps, h⟩⟩
  have text : (eliminate t entry).text =
      Text.spliceFrom 0 (Text.dropBytes 0 t) (removals t alive (FunctionDef.find t).zipIdx) :=
    Text.splice_eq_spliceFrom (pairwise_start_removals t alive)
  have order : kept = ((FunctionDef.find t).zipIdx.filter fun f => f.2 ∈ alive).map Prod.snd := by
    have := List.filter_map (f := Prod.snd) (p := (· ∈ alive)) (l := (FunctionDef.find t).zipIdx)
    rwa [List.zipIdx_map_snd, ← List.range_eq_range'] at this
  refine ⟨kept, List.pairwise_lt_range.filter _, fun i => mem_kept.trans mem_alive, ?_,
    pairwise_deadRanges t kept, ?_⟩
  · have stays := stays_retain alive (Text.isBoundary_zero t) (Nat.le_refl 0)
      (FunctionDef.find t).zipIdx (follow_find t)
    rw [← text] at stays
    nth_rewrite 2 [order]
    refine List.forall₂_map_left_iff.2
      (((List.forall₂_and_left _ _).2 ⟨fun _ member => member, stays⟩).imp ?_)
    rintro ⟨f, i⟩ g ⟨member, stays, new_deps⟩
    obtain ⟨member, live⟩ := List.mem_filter.1 member
    have found := List.mem_zipIdx_iff_getElem?.1 member
    have known := List.mem_of_getElem? found
    refine ⟨f, found, stays.carried (ranged_of_mem_find known) ?_⟩
    rw [new_deps]
    refine map_getElem?_newIndex fun j hj => ⟨deps f known j hj, ?_⟩
    exact mem_alive.2 (.dep (mem_alive.1 (of_decide_eq_true live)) found hj)
  · have deletes : Deletes t alive (deadRanges t kept) 0 (FunctionDef.find t).zipIdx := by
      constructor
      · intro f member dead
        refine List.mem_map.2 ⟨f, List.mem_filter.2 ⟨member, ?_⟩, rfl⟩
        exact decide_eq_true fun h => dead (mem_kept.1 h)
      · intro range member
        obtain ⟨f, inside, rfl⟩ := List.mem_map.1 member
        obtain ⟨inside, dead⟩ := List.mem_filter.1 inside
        exact Or.inr ⟨f, inside, fun h => of_decide_eq_true dead (mem_kept.2 h), rfl⟩
    rw [text, spliceFrom_removals (Text.isBoundary_zero t) (follow_find t) deletes, Text.dropBytes_zero]

end ShaderPass.LiveCode
