import Mathlib.Data.List.Basic
import Mathlib.Data.List.Induction
import Mathlib.Logic.Relation
import ShaderPass.Proofs.Define.Scanning

/-! Dependencies between defines. A define depends on the defines of the conditions around its first
use, and these were listed before it, so the order of the list is an order of the dependencies. -/
namespace ShaderPass.Define

/-- Defines in an order of their dependencies: none is listed twice, and each depends, without
repetition, on defines that were `known` or come before it. -/
def Ordered (known : List String) : List Define → Prop
  | [] => True
  | d :: ds => d.name ∉ known ∧ d.enclosing.Nodup ∧ d.enclosing ⊆ known ∧
      Ordered (known ++ [d.name]) ds

theorem Ordered.upsert {known : List String} {defines : List Define} (h : Ordered known defines)
    {name : String} {change : Define → Define} {fresh : Define}
    (kept : ∀ d, (change d).name = d.name ∧ (change d).enclosing = d.enclosing)
    (new : name ∉ known) (named : fresh.name = name) (distinct : fresh.enclosing.Nodup)
    (depends : name ∉ names defines → fresh.enclosing ⊆ known ++ names defines) :
    Ordered known (Table.upsert (fun d => d.name = name) change fresh defines) := by
  induction defines generalizing known with
  | nil =>
    refine ⟨named ▸ new, distinct, ?_, trivial⟩
    simpa using depends (by simp)
  | cons d ds ih =>
    obtain ⟨unlisted, nodup, earlier, later⟩ := h
    rw [Table.upsert]
    split
    · refine ⟨?_, ?_, ?_, ?_⟩
      · rwa [(kept d).1]
      · rwa [(kept d).2]
      · rwa [(kept d).2]
      · rwa [(kept d).1]
    · rename_i other
      rw [decide_eq_true_eq] at other
      refine ⟨unlisted, nodup, earlier, ih later ?_ ?_⟩
      · simp [new, Ne.symm other]
      · intro absent
        rw [List.append_assoc]
        apply depends
        simp [absent, Ne.symm other]

theorem Ordered.noteUse {defines : List Define} (h : Ordered [] defines) {enclosing : List String}
    (distinct : enclosing.Nodup) (listed : enclosing ⊆ names defines) (condition : Text)
    (name : String) : Ordered [] (noteUse enclosing condition defines name) := by
  refine h.upsert ?_ List.not_mem_nil rfl (distinct.filter _) fun _ => ?_
  · intro d
    split <;> exact ⟨rfl, rfl⟩
  · exact List.Subset.trans (List.filter_subset_self _) listed

theorem Ordered.foldl_noteUse {defines : List Define} (h : Ordered [] defines)
    {enclosing : List String} (distinct : enclosing.Nodup) (listed : enclosing ⊆ names defines)
    (condition : Text) (tests : List String) :
    Ordered [] (tests.foldl (Define.noteUse enclosing condition) defines) := by
  induction tests generalizing defines with
  | nil => exact h
  | cons name tests ih =>
    apply ih (h.noteUse distinct listed condition name)
    intro other member
    rw [names_noteUse, Table.mem_addKey]
    exact Or.inl (listed member)

theorem identifiers_nodup (stack : Condition.Stack) : stack.identifiers.Nodup := by
  unfold Condition.Stack.identifiers
  induction stack.reverse.flatten using List.reverseRecOn with
  | nil => exact List.nodup_nil
  | append_singleton names name ih =>
    rw [← Table.addKey_eraseDups]
    exact Table.nodup_addKey ih name

theorem Ordered.noteLine {defines : List Define} (h : Ordered [] defines) {stack : Condition.Stack}
    (listed : stack.flatten ⊆ names defines) (line : Text) :
    Ordered [] (noteLine stack defines line) := by
  have within (outer : Condition.Stack) (part : outer ⊆ stack) :
      outer.identifiers ⊆ names defines := by
    intro name member
    obtain ⟨frame, among, named⟩ := List.mem_flatten.1 (Condition.Stack.mem_identifiers.1 member)
    exact listed (List.mem_flatten.2 ⟨frame, part among, named⟩)
  unfold Define.noteLine
  cases Directive.parse? line with
  | none => exact h
  | some directive =>
    dsimp only
    split
    · apply h.foldl_noteUse (identifiers_nodup _)
      apply within
      split
      · exact List.drop_subset _ _
      · exact List.Subset.refl _
    · exact h

@[simp] theorem setProperty_enclosing (d : Define) (property : String × Option Text) :
    (setProperty d property).enclosing = d.enclosing := by
  unfold setProperty
  split <;> rfl

theorem foldl_setProperty_enclosing (properties : List (String × Option Text)) (d : Define) :
    (properties.foldl setProperty d).enclosing = d.enclosing := by
  induction properties generalizing d with
  | nil => rfl
  | cons property properties ih => rw [List.foldl_cons, ih, setProperty_enclosing]

theorem Ordered.applyMeta {defines : List Define} (h : Ordered [] defines) (args : Text) :
    Ordered [] (applyMeta defines args) := by
  unfold Define.applyMeta
  dsimp only
  split
  · exact h
  · have kept (d : Define) := And.intro
      (foldl_setProperty_name (properties (Text.spanIdent args).2) d)
      (foldl_setProperty_enclosing (properties (Text.spanIdent args).2) d)
    refine h.upsert kept List.not_mem_nil (kept _).1 ?_ fun _ => ?_
    · rw [(kept _).2]
      exact List.nodup_nil
    · rw [(kept _).2]
      exact List.nil_subset _

structure Scanned (state : List Define × Condition.Stack) : Prop where
  ordered : Ordered [] state.1
  listed : state.2.flatten ⊆ names state.1

theorem Scanned.scanLine {state : List Define × Condition.Stack} (h : Scanned state) (line : Text) :
    Scanned (scanLine state line) := by
  obtain ⟨defines, stack⟩ := state
  constructor
  · have noted := h.ordered.noteLine h.listed line
    unfold Define.scanLine
    dsimp only
    split
    · exact noted.applyMeta _
    · exact noted
  · intro name member
    apply mem_names_scanLine
    rcases Condition.Stack.mem_flatten_update member with open_before | tests
    · exact Or.inl (h.listed open_before)
    · exact Or.inr tests

theorem Scanned.foldl {state : List Define × Condition.Stack} (h : Scanned state)
    (lines : List Text) : Scanned (lines.foldl Define.scanLine state) := by
  induction lines generalizing state with
  | nil => exact h
  | cons line lines ih => exact ih (h.scanLine line)

theorem ordered_scan (t : Text) : Ordered [] (scan t) := by
  have start : Scanned ([], []) := ⟨trivial, List.nil_subset _⟩
  exact (start.foldl _).ordered

theorem names_merge (target defines : List Define) :
    names (merge target defines) = (names defines).foldl Table.addKey (names target) := by
  induction defines generalizing target with
  | nil => rfl
  | cons d ds ih =>
    have kept (e : Define) : (mergeInto e d).name = e.name := rfl
    have first := Table.map_upsert Define.name d.name kept rfl target
    rw [merge, List.foldl_cons]
    refine (ih _).trans ?_
    rw [names, first]
    rfl

/-- A merged define keeps its dependencies, and a new one finds those it came with: they were listed
before it, so they were merged before it. -/
theorem Ordered.merge {target defines : List Define} (h : Ordered [] target) {known : List String}
    (others : Ordered known defines) (merged : known ⊆ names target) :
    Ordered [] (merge target defines) := by
  induction defines generalizing target known with
  | nil => exact h
  | cons d ds ih =>
    obtain ⟨-, distinct, earlier, later⟩ := others
    have step : Ordered [] (Define.merge target [d]) :=
      h.upsert (fun _ => ⟨rfl, rfl⟩) List.not_mem_nil rfl distinct
        fun _ => List.Subset.trans earlier merged
    apply ih step later
    rw [names_merge]
    intro name member
    rw [Table.mem_foldl_addKey]
    rcases List.mem_append.1 member with before | this
    · exact Or.inl (merged before)
    · exact Or.inr this

theorem ordered_foldl_merge (texts : List Text) {target : List Define} (h : Ordered [] target) :
    Ordered [] (texts.foldl (fun defines t => Define.merge defines (scan t)) target) := by
  induction texts generalizing target with
  | nil => exact h
  | cons t texts ih => exact ih (h.merge (ordered_scan t) (List.nil_subset _))

theorem Ordered.notMem {known : List String} {defines : List Define} (h : Ordered known defines)
    {d : Define} (member : d ∈ defines) : d.name ∉ known := by
  induction defines generalizing known with
  | nil => cases member
  | cons e es ih =>
    obtain ⟨new, -, -, later⟩ := h
    rcases List.mem_cons.1 member with rfl | member
    · exact new
    · exact fun already => ih later member (List.mem_append_left _ already)

theorem Ordered.nodup {known : List String} {defines : List Define} (h : Ordered known defines) :
    (names defines).Nodup := by
  induction defines generalizing known with
  | nil => exact List.nodup_nil
  | cons d ds ih =>
    obtain ⟨-, -, -, later⟩ := h
    rw [names, List.map_cons, List.nodup_cons]
    refine ⟨fun again => ?_, ih later⟩
    obtain ⟨e, member, same⟩ := List.mem_map.1 again
    apply later.notMem member
    simp [same]

theorem Ordered.earlier {known : List String} {defines : List Define} (h : Ordered known defines)
    {i : Nat} {d : Define} (at_i : defines[i]? = some d) :
    d.enclosing.Nodup ∧ ∀ name ∈ d.enclosing,
      name ∈ known ∨ ∃ j < i, ∃ e, defines[j]? = some e ∧ e.name = name := by
  induction defines generalizing known i with
  | nil => simp at at_i
  | cons first ds ih =>
    obtain ⟨-, distinct, before, later⟩ := h
    cases i with
    | zero =>
      obtain rfl : first = d := by simpa using at_i
      exact ⟨distinct, fun name member => Or.inl (before member)⟩
    | succ i =>
      rw [List.getElem?_cons_succ] at at_i
      obtain ⟨nodup, found⟩ := ih later at_i
      refine ⟨nodup, fun name member => ?_⟩
      rcases found name member with listed | ⟨j, lt, e, at_j, named⟩
      · rcases List.mem_append.1 listed with before | this
        · exact Or.inl before
        · refine Or.inr ⟨0, Nat.zero_lt_succ i, first, rfl, ?_⟩
          exact (List.mem_singleton.1 this).symm
      · exact Or.inr ⟨j + 1, Nat.succ_lt_succ lt, e, at_j, named⟩

def DependsOn (defines : List Define) (name other : String) : Prop :=
  ∃ d ∈ defines, d.name = name ∧ other ∈ d.enclosing

theorem Ordered.idxOf_lt {defines : List Define} (h : Ordered [] defines) {name other : String}
    (depends : DependsOn defines name other) :
    (names defines).idxOf other < (names defines).idxOf name := by
  have place {i : Nat} {d : Define} (at_i : defines[i]? = some d) :
      (names defines).idxOf d.name = i := by
    obtain ⟨lt, rfl⟩ := List.getElem?_eq_some_iff.1 at_i
    have lt' : i < (names defines).length := by simpa using lt
    have := h.nodup.idxOf_getElem i lt'
    simpa using this
  obtain ⟨d, member, rfl, enclosing⟩ := depends
  obtain ⟨i, at_i⟩ := List.getElem?_of_mem member
  rcases (h.earlier at_i).2 other enclosing with none | ⟨j, lt, e, at_j, rfl⟩
  · cases none
  · rwa [place at_i, place at_j]

/-- The defines of any texts, merged in turn: names are distinct, every dependency is an earlier entry
and is named once, and so no define depends on itself, directly or through others. -/
theorem merged_dependencies (texts : List Text) :
    let defines := texts.foldl (fun defines t => merge defines (scan t)) []
    (names defines).Nodup ∧
    (∀ (i : Nat) (d : Define), defines[i]? = some d → d.enclosing.Nodup ∧
      ∀ name ∈ d.enclosing, ∃ j < i, ∃ e : Define, defines[j]? = some e ∧ e.name = name) ∧
    ∀ name, ¬Relation.TransGen (DependsOn defines) name name := by
  intro defines
  have ordered : Ordered [] defines := ordered_foldl_merge texts trivial
  refine ⟨ordered.nodup, fun i d at_i => ?_, fun name cycle => ?_⟩
  · obtain ⟨distinct, found⟩ := ordered.earlier at_i
    refine ⟨distinct, fun name member => ?_⟩
    rcases found name member with none | before
    · cases none
    · exact before
  · have descends {a b : String} (path : Relation.TransGen (DependsOn defines) a b) :
        (names defines).idxOf b < (names defines).idxOf a := by
      induction path with
      | single step => exact ordered.idxOf_lt step
      | tail _ step ih => exact Nat.lt_trans (ordered.idxOf_lt step) ih
    exact Nat.lt_irrefl _ (descends cycle)

end ShaderPass.Define
