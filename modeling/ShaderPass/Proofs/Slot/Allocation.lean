import Mathlib.Data.List.Perm.Subperm
import ShaderPass.Slot

/-! Slot allocation, list by list: when it fails, which slot every descriptor gets, and that a second
allocation finds nothing to do. -/
namespace ShaderPass.Slot

/-- The attachment a subpass input is bound to: its attachment index, or else its binding. -/
def attachment? (d : Descriptor) : Option Nat :=
  d.inputAttachment <|> d.binding

/-- The descriptors that take part in the allocation: sampler textures that share a name with a
subpass input do not. -/
def allotted (info : Interface) (c : Category) : List Descriptor :=
  match c with
  | .samplerTexture => (info.list .samplerTexture).filter fun d =>
      d.name ∉ (info.list .subpassInput).map Descriptor.name
  | c => info.list c

/-- Some descriptor has an explicit binding that is not its position. -/
def Misbound (ds : List Descriptor) : Prop :=
  ∃ (i : Nat) (d : Descriptor) (b : Nat), ds[i]? = some d ∧ d.binding = some b ∧ b ≠ i

def Detached (ds : List Descriptor) : Prop :=
  ∃ d ∈ ds, attachment? d = none

def Contended (ds : List Descriptor) : Prop :=
  ∃ (i j : Nat) (d e : Descriptor) (n : Nat), i < j ∧ ds[i]? = some d ∧ ds[j]? = some e ∧
    attachment? d = some n ∧ attachment? e = some n

/-- The locations `locations` suit `ds`: explicit ones are kept, and every descriptor without one gets
the least number that is neither explicit anywhere in the list nor given before. -/
def Locates (ds : List Descriptor) (locations : List Nat) : Prop :=
  locations.length = ds.length ∧
    ∀ (i : Nat) (d : Descriptor) (n : Nat), ds[i]? = some d → locations[i]? = some n →
      (∀ l, d.location = some l → n = l) ∧
      (d.location = none →
        (n ∉ ds.filterMap Descriptor.location ∧ n ∉ locations.take i) ∧
        ∀ m < n, m ∈ ds.filterMap Descriptor.location ∨ m ∈ locations.take i)

theorem list_dropStandIns (info : Interface) (c : Category) :
    (dropStandIns info).list c = allotted info c := by
  cases c <;> simp [dropStandIns, allotted]

/-- Binding in order fails exactly at an explicit binding that is not the next number, and otherwise
numbers the descriptors. -/
theorem bindFrom_eq (c : Category) (next : Nat) (ds : List Descriptor) :
    ((bindFrom c next ds).2 = none ↔
      ∀ i d b, ds[i]? = some d → d.binding = some b → b = next + i) ∧
    ((bindFrom c next ds).2 = none →
      (bindFrom c next ds).1 = ds.mapIdx fun i d => { d with binding := some (next + i) }) := by
  induction ds generalizing next with
  | nil => simp [bindFrom]
  | cons d ds ih =>
    obtain ⟨ih_iff, ih_eq⟩ := ih (next + 1)
    have tail_iff : (bindFrom c (next + 1) ds).2 = none ↔
        ∀ i e b, (d :: ds)[i + 1]? = some e → e.binding = some b → b = next + (i + 1) := by
      rw [ih_iff]
      simp only [List.getElem?_cons_succ, Nat.add_assoc, Nat.add_comm 1]
    have tail_eq (h : (bindFrom c (next + 1) ds).2 = none) : (bindFrom c (next + 1) ds).1 =
        ds.mapIdx fun i e => { e with binding := some (next + (i + 1)) } := by
      rw [ih_eq h]
      simp only [Nat.add_assoc, Nat.add_comm 1]
    have split_head : (∀ i e b, (d :: ds)[i]? = some e → e.binding = some b → b = next + i) ↔
        (∀ b, d.binding = some b → b = next) ∧
          ∀ i e b, (d :: ds)[i + 1]? = some e → e.binding = some b → b = next + (i + 1) := by
      constructor
      · intro h
        exact ⟨fun b => h 0 d b rfl, fun i e b => h (i + 1) e b⟩
      · rintro ⟨h₀, h₁⟩ i e b found bound
        cases i with
        | zero =>
          cases found
          exact h₀ b bound
        | succ i => exact h₁ i e b found bound
    rw [split_head, ← tail_iff, List.mapIdx_cons]
    cases explicit : d.binding with
    | none =>
      simp only [bindFrom, explicit]
      exact ⟨by simp, fun h => by rw [tail_eq h]; rfl⟩
    | some b =>
      by_cases right : b = next
      · subst right
        have same : { d with binding := some b } = d := by rw [← explicit]
        simp only [bindFrom, explicit, if_true]
        refine ⟨by simp, fun h => ?_⟩
        rw [tail_eq h, Nat.add_zero, same]
      · simp only [bindFrom, explicit, if_neg right]
        split <;> simp [right]

theorem bindFrom_zero_isNone_iff (c : Category) (ds : List Descriptor) :
    (bindFrom c 0 ds).2 = none ↔ ¬ Misbound ds := by
  rw [(bindFrom_eq c 0 ds).1]
  simp only [Misbound, Nat.zero_add]
  grind

theorem bindCategories_eq (cs : List Category) (distinct : cs.Nodup) (info : Interface) :
    ((bindCategories info cs).2 = none ↔ ∀ c ∈ cs, ¬ Misbound (info.list c)) ∧
    ((bindCategories info cs).2 = none → ∀ c, (bindCategories info cs).1.list c =
      if c ∈ cs then (info.list c).mapIdx fun i d => { d with binding := some i }
      else info.list c) := by
  induction cs generalizing info with
  | nil => simp [bindCategories]
  | cons c cs ih =>
    obtain ⟨absent, distinct⟩ := List.nodup_cons.1 distinct
    have head := bindFrom_zero_isNone_iff c (info.list c)
    have others (ds : List Descriptor) (c' : Category) (h : c' ∈ cs) :
        (info.set c ds).list c' = info.list c' :=
      info.list_set_of_ne ds fun e => absent (e ▸ h)
    cases result : bindFrom c 0 (info.list c) with
    | mk bound fault =>
      cases fault with
      | some fault =>
        rw [result] at head
        simp only [bindCategories, result]
        refine ⟨⟨fun h => by simp at h, fun h => ?_⟩, fun h => by simp at h⟩
        exact absurd (head.2 (h c List.mem_cons_self)) (by simp)
      | none =>
        have bound_eq : bound =
            (info.list c).mapIdx fun i d => { d with binding := some i } := by
          have := (bindFrom_eq c 0 (info.list c)).2 (by rw [result])
          simpa [result] using this
        rw [result] at head
        obtain ⟨ih_iff, ih_eq⟩ := ih distinct (info.set c bound)
        simp only [bindCategories, result]
        constructor
        · rw [ih_iff, List.forall_mem_cons]
          constructor
          · intro h
            exact ⟨head.1 rfl, fun c' hc' => others bound c' hc' ▸ h c' hc'⟩
          · intro h c' hc'
            rw [others bound c' hc']
            exact h.2 c' hc'
        · intro h c'
          rw [ih_eq h c']
          by_cases same : c' = c
          · subst same
            simp [absent, bound_eq]
          · simp [same]

theorem contended_cons_iff {d : Descriptor} {n : Nat} (slot : attachment? d = some n)
    (ds : List Descriptor) :
    Contended (d :: ds) ↔ (∃ e ∈ ds, attachment? e = some n) ∨ Contended ds := by
  constructor
  · rintro ⟨i, j, a, b, m, lt, hi, hj, ha, hb⟩
    obtain ⟨j, rfl⟩ : ∃ k, j = k + 1 := ⟨j - 1, by omega⟩
    cases i with
    | zero =>
      cases hi
      rw [slot] at ha
      cases ha
      exact Or.inl ⟨b, List.mem_of_getElem? hj, hb⟩
    | succ i => exact Or.inr ⟨i, j, a, b, m, by omega, hi, hj, ha, hb⟩
  · rintro (⟨e, member, he⟩ | ⟨i, j, a, b, m, lt, hi, hj, ha, hb⟩)
    · obtain ⟨j, hj⟩ := List.mem_iff_getElem?.1 member
      exact ⟨0, j + 1, d, e, n, by omega, rfl, hj, slot, he⟩
    · exact ⟨i + 1, j + 1, a, b, m, by omega, hi, hj, ha, hb⟩

theorem attach_eq (used : List Nat) (ds : List Descriptor) :
    ((attach used ds).2 = none ↔ ¬ Detached ds ∧ ¬ Contended ds ∧
      ∀ d ∈ ds, ∀ n, attachment? d = some n → n ∉ used) ∧
    ((attach used ds).2 = none →
      (attach used ds).1 = ds.map fun d => { d with binding := attachment? d }) := by
  induction ds generalizing used with
  | nil => simp [attach, Detached, Contended]
  | cons d ds ih =>
    cases slot : attachment? d with
    | none =>
      have slot' : (d.inputAttachment <|> d.binding) = none := slot
      simp only [attach, slot']
      exact ⟨⟨fun h => by simp at h, fun h => absurd ⟨d, List.mem_cons_self, slot⟩ h.1⟩,
        fun h => by simp at h⟩
    | some n =>
      have slot' : (d.inputAttachment <|> d.binding) = some n := slot
      by_cases taken : n ∈ used
      · simp only [attach, slot', if_pos taken]
        exact ⟨⟨fun h => by simp at h,
          fun h => absurd taken (h.2.2 d List.mem_cons_self n slot)⟩, fun h => by simp at h⟩
      · obtain ⟨ih_iff, ih_eq⟩ := ih (n :: used)
        simp only [attach, slot', if_neg taken]
        constructor
        · rw [ih_iff, contended_cons_iff slot]
          simp only [Detached, List.mem_cons]
          grind
        · intro h
          rw [ih_eq h, List.map_cons, slot]

theorem exists_notMem_range (used : List Nat) : ∃ n < used.length + 1, n ∉ used := by
  by_contra all_used
  have inside : List.range (used.length + 1) ⊆ used := by
    intro n hn
    by_contra absent
    exact all_used ⟨n, List.mem_range.1 hn, absent⟩
  have := (List.nodup_range.subperm inside).length_le
  rw [List.length_range] at this
  omega

theorem leastFree_notMem (used : List Nat) :
    leastFree used ∉ used ∧ ∀ m < leastFree used, m ∈ used := by
  obtain ⟨n, lt, free⟩ := exists_notMem_range used
  cases found : (List.range (used.length + 1)).find? (· ∉ used) with
  | none => exact absurd (List.find?_eq_none.1 found n (List.mem_range.2 lt)) (by simpa using free)
  | some least =>
    have same : leastFree used = least := by rw [leastFree, found, Option.getD_some]
    rw [same]
    obtain ⟨h, i, hi, rfl, before⟩ := List.find?_eq_some_iff_getElem.1 found
    rw [List.getElem_range] at h ⊢
    refine ⟨by simpa using h, fun m lt => ?_⟩
    simpa using before m lt

theorem locateFrom_eq (used : List Nat) (ds : List Descriptor)
    (explicit : ∀ d ∈ ds, ∀ n ∈ d.location, n ∈ used) :
    ∃ locations : List Nat, locations.length = ds.length ∧
      locateFrom used ds =
        ds.zipWith (fun d n => { d with location := some n }) locations ∧
      ∀ (i : Nat) (d : Descriptor) (n : Nat), ds[i]? = some d → locations[i]? = some n →
        (∀ l, d.location = some l → n = l) ∧
        (d.location = none →
          (n ∉ used ∧ n ∉ locations.take i) ∧ ∀ m < n, m ∈ used ∨ m ∈ locations.take i) := by
  induction ds generalizing used with
  | nil => exact ⟨[], rfl, rfl, by simp⟩
  | cons d ds ih =>
    cases location : d.location with
    | some l =>
      have l_used : l ∈ used := explicit d List.mem_cons_self l location
      obtain ⟨locations, length, eq, spec⟩ :=
        ih used fun e he => explicit e (List.mem_cons_of_mem _ he)
      have same : { d with location := some l } = d := by rw [← location]
      refine ⟨l :: locations, by simp [length], ?_, ?_⟩
      · simp only [locateFrom, location, eq, List.zipWith_cons_cons, same]
      · intro i e n he hn
        cases i with
        | zero =>
          cases he
          cases hn
          exact ⟨fun l' h => Option.some.inj (location ▸ h), fun h => by simp [location] at h⟩
        | succ i =>
          obtain ⟨kept, given⟩ := spec i e n he hn
          refine ⟨kept, fun missing => ?_⟩
          obtain ⟨⟨fresh, unseen⟩, least⟩ := given missing
          rw [List.take_succ_cons, List.mem_cons, not_or]
          exact ⟨⟨fresh, fun e => fresh (e ▸ l_used), unseen⟩,
            fun m lt => (least m lt).imp_right (List.mem_cons_of_mem _)⟩
    | none =>
      obtain ⟨free, least_free⟩ := leastFree_notMem used
      obtain ⟨locations, length, eq, spec⟩ := ih (leastFree used :: used)
        fun e he n hn => List.mem_cons_of_mem _ (explicit e (List.mem_cons_of_mem _ he) n hn)
      refine ⟨leastFree used :: locations, by simp [length], ?_, ?_⟩
      · simp only [locateFrom, location, eq, List.zipWith_cons_cons]
      · intro i e n he hn
        cases i with
        | zero =>
          cases he
          cases hn
          exact ⟨fun l h => by simp [location] at h,
            fun _ => ⟨⟨free, by simp⟩, fun m lt => Or.inl (least_free m lt)⟩⟩
        | succ i =>
          obtain ⟨kept, given⟩ := spec i e n he hn
          refine ⟨kept, fun missing => ?_⟩
          obtain ⟨⟨fresh, unseen⟩, least⟩ := given missing
          rw [List.mem_cons, not_or] at fresh
          rw [List.take_succ_cons, List.mem_cons, not_or]
          refine ⟨⟨fresh.2, fresh.1, unseen⟩, fun m lt => ?_⟩
          rcases least m lt with h | h
          · rcases List.mem_cons.1 h with rfl | h
            · exact Or.inr List.mem_cons_self
            · exact Or.inl h
          · exact Or.inr (List.mem_cons_of_mem _ h)

theorem locate_eq (ds : List Descriptor) : ∃ locations, Locates ds locations ∧
    locate ds = ds.zipWith (fun d n => { d with location := some n }) locations := by
  obtain ⟨locations, length, eq, spec⟩ := locateFrom_eq (ds.filterMap Descriptor.location) ds
    fun d hd n hn => List.mem_filterMap.2 ⟨d, hd, hn⟩
  exact ⟨locations, ⟨length, spec⟩, eq⟩

/-- What a successful allocation makes of some lists. No field changes but the slot that the category
asks for. -/
structure IsAllocation (lists : Category → List Descriptor) (result : Interface) : Prop where
  bound : ∀ c ∈ boundCategories,
    result.list c = (lists c).mapIdx fun i d => { d with binding := some i }
  attached : result.list .subpassInput =
    (lists .subpassInput).map fun d => { d with binding := attachment? d }
  located : ∀ c ∈ locatedCategories, ∃ locations, Locates (lists c) locations ∧
    result.list c = (lists c).zipWith (fun d n => { d with location := some n }) locations

theorem list_locateAll (info : Interface) (c : Category) :
    (locatedCategories.foldl (fun info c => info.set c (locate (info.list c))) info).list c =
      if c ∈ locatedCategories then locate (info.list c) else info.list c := by
  cases c <;> simp [locatedCategories, List.foldl]

theorem allocate_eq (info : Interface) :
    ((allocate info).2 = none ↔ (∀ c ∈ boundCategories, ¬ Misbound (allotted info c)) ∧
      ¬ Detached (allotted info .subpassInput) ∧ ¬ Contended (allotted info .subpassInput)) ∧
    ((allocate info).2 = none → IsAllocation (allotted info) (allocate info).1) := by
  obtain ⟨bind_iff, bind_eq⟩ :=
    bindCategories_eq boundCategories (by decide) (dropStandIns info)
  simp only [list_dropStandIns] at bind_iff bind_eq
  cases result : bindCategories (dropStandIns info) boundCategories with
  | mk bound fault =>
    rw [result] at bind_iff bind_eq
    cases fault with
    | some fault =>
      simp only [allocate, result]
      exact ⟨⟨fun h => by simp at h, fun h => absurd (bind_iff.2 h.1) (by simp)⟩,
        fun h => by simp at h⟩
    | none =>
      have bound_list := bind_eq rfl
      have inputs : bound.list .subpassInput = allotted info .subpassInput := by
        rw [bound_list, if_neg (by decide)]
      obtain ⟨attach_iff, attached⟩ := attach_eq [] (bound.list .subpassInput)
      rw [inputs] at attach_iff attached
      simp only [List.not_mem_nil, not_false_eq_true, implies_true, and_true] at attach_iff
      cases attaching : attach [] (bound.list .subpassInput) with
      | mk ds fault =>
        rw [inputs] at attaching
        rw [attaching] at attach_iff attached
        cases fault with
        | some fault =>
          simp only [allocate, result, inputs, attaching]
          exact ⟨⟨fun h => by simp at h, fun h => absurd (attach_iff.2 h.2) (by simp)⟩,
            fun h => by simp at h⟩
        | none =>
          simp only [allocate, result, inputs, attaching]
          refine ⟨⟨fun _ => ⟨bind_iff.1 rfl, attach_iff.1 rfl⟩, fun _ => trivial⟩, fun _ => ?_⟩
          constructor
          · intro c hc
            have not_input : c ≠ .subpassInput := by rintro rfl; revert hc; decide
            have not_located : c ∉ locatedCategories := by
              revert c; decide
            rw [list_locateAll, if_neg not_located, Interface.list_set_of_ne _ _ not_input,
              bound_list, if_pos hc]
          · rw [list_locateAll, if_neg (by decide), Interface.list_set_self]
            exact attached rfl
          · intro c hc
            have not_input : c ≠ .subpassInput := by rintro rfl; revert hc; decide
            have not_bound : c ∉ boundCategories := by
              revert c; decide
            obtain ⟨locations, locates, eq⟩ := locate_eq (allotted info c)
            refine ⟨locations, locates, ?_⟩
            rw [list_locateAll, if_pos hc, Interface.list_set_of_ne _ _ not_input, bound_list,
              if_neg not_bound, eq]

section Again

variable {info result : Interface}

/-- Allocation keeps names, so the sampler textures left do not share one with a subpass input. -/
theorem IsAllocation.allotted_eq (h : IsAllocation (allotted info) result) (c : Category) :
    allotted result c = result.list c := by
  have names : (result.list .subpassInput).map Descriptor.name =
      (info.list .subpassInput).map Descriptor.name := by
    rw [h.attached, List.map_map]
    rfl
  cases c with
  | samplerTexture =>
    rw [allotted, List.filter_eq_self, names]
    intro d member
    rw [h.bound .samplerTexture (by decide), List.mem_mapIdx] at member
    obtain ⟨i, lt, rfl⟩ := member
    exact (List.mem_filter.1 (List.getElem_mem lt)).2
  | _ => rfl

theorem attachment?_attached (d : Descriptor) :
    attachment? { d with binding := attachment? d } = attachment? d := by
  unfold attachment?
  cases d.inputAttachment <;> rfl

theorem IsAllocation.not_misbound (h : IsAllocation (allotted info) result) {c : Category}
    (hc : c ∈ boundCategories) : ¬ Misbound (result.list c) := by
  rintro ⟨i, d, b, found, binding, differs⟩
  rw [h.bound c hc, List.getElem?_mapIdx, Option.map_eq_some_iff] at found
  obtain ⟨e, -, rfl⟩ := found
  exact differs (Option.some.inj binding).symm

theorem IsAllocation.not_detached (h : IsAllocation (allotted info) result)
    (attached : ¬ Detached (allotted info .subpassInput)) :
    ¬ Detached (result.list .subpassInput) := by
  rintro ⟨d, member, missing⟩
  rw [h.attached, List.mem_map] at member
  obtain ⟨e, he, rfl⟩ := member
  rw [attachment?_attached] at missing
  exact attached ⟨e, he, missing⟩

theorem IsAllocation.not_contended (h : IsAllocation (allotted info) result)
    (apart : ¬ Contended (allotted info .subpassInput)) :
    ¬ Contended (result.list .subpassInput) := by
  rintro ⟨i, j, d, e, n, lt, hi, hj, hd, he⟩
  rw [h.attached, List.getElem?_map, Option.map_eq_some_iff] at hi hj
  obtain ⟨a, ha, rfl⟩ := hi
  obtain ⟨b, hb, rfl⟩ := hj
  rw [attachment?_attached] at hd he
  exact apart ⟨i, j, a, b, n, lt, ha, hb, hd, he⟩

theorem zipWith_locates {ds : List Descriptor} {first second : List Nat}
    (length : first.length = ds.length)
    (again : Locates (ds.zipWith (fun d n => { d with location := some n }) first) second) :
    (ds.zipWith (fun d n => { d with location := some n }) first).zipWith
        (fun d n => { d with location := some n }) second =
      ds.zipWith (fun (d : Descriptor) n => { d with location := some n }) first := by
  obtain ⟨same_length, spec⟩ := again
  apply List.ext_getElem
  · simp only [List.length_zipWith] at same_length ⊢
    omega
  · intro i h _
    simp only [List.length_zipWith] at h same_length
    have found := spec i { ds[i] with location := some first[i] } second[i]
      (by simp only [List.getElem?_zipWith]
          rw [List.getElem?_eq_getElem (by omega), List.getElem?_eq_getElem (by omega)])
      (List.getElem?_eq_getElem (by omega))
    simp only [List.getElem_zipWith, found.1 first[i] rfl]

theorem IsAllocation.allocate_eq_self (h : IsAllocation (allotted info) result)
    (attached : ¬ Detached (allotted info .subpassInput))
    (apart : ¬ Contended (allotted info .subpassInput)) : allocate result = (result, none) := by
  have fault : (allocate result).2 = none := by
    rw [(allocate_eq result).1]
    simp only [h.allotted_eq]
    exact ⟨fun c hc => h.not_misbound hc, h.not_detached attached, h.not_contended apart⟩
  have again := (allocate_eq result).2 fault
  have lists (c : Category) : (allocate result).1.list c = result.list c := by
    have all : c ∈ boundCategories ∨ c = .subpassInput ∨ c ∈ locatedCategories := by
      cases c <;> decide
    rcases all with hc | rfl | hc
    · rw [again.bound c hc, h.allotted_eq, h.bound c hc]
      simp [List.mapIdx_mapIdx, Function.comp_def]
    · rw [again.attached, h.allotted_eq, h.attached, List.map_map]
      apply List.map_congr_left
      intro d _
      simp [attachment?_attached]
    · obtain ⟨first, first_locates, first_eq⟩ := h.located c hc
      obtain ⟨second, second_locates, second_eq⟩ := again.located c hc
      rw [h.allotted_eq, first_eq] at second_locates second_eq
      rw [second_eq, first_eq, zipWith_locates first_locates.1 second_locates]
  have same : (allocate result).1 = result := by
    cases eq : (allocate result).1 with
    | mk list =>
      rw [eq] at lists
      exact congrArg Interface.mk (funext lists)
  exact Prod.ext same fault

end Again

theorem check_runWith (fault : Option Fault) (r : Report) :
    (∃ failure, ((check fault).runWith r).1 = .error failure) ↔ fault ≠ none := by
  cases fault with
  | none => exact ⟨fun ⟨_, h⟩ => (by cases h), fun h => absurd rfl h⟩
  | some fault => exact ⟨fun _ => (by simp), fun _ => ⟨_, rfl⟩⟩

/-- Allocation fails exactly on an explicit binding out of its place, a subpass input without an
attachment, or an attachment used twice. Otherwise every descriptor gets the slot of its category,
nothing else changes, and a second allocation succeeds and changes nothing. -/
theorem allocate_exact (info : Interface) (r : Report) :
    ((∃ failure, ((check (allocate info).2).runWith r).1 = .error failure) ↔
      (∃ c ∈ boundCategories, Misbound (allotted info c)) ∨
        Detached (allotted info .subpassInput) ∨ Contended (allotted info .subpassInput)) ∧
    ((allocate info).2 = none →
      IsAllocation (allotted info) (allocate info).1 ∧
        allocate (allocate info).1 = ((allocate info).1, none)) := by
  obtain ⟨iff, slots⟩ := allocate_eq info
  constructor
  · rw [check_runWith, ne_eq, iff]
    grind
  · intro h
    obtain ⟨-, attached, apart⟩ := iff.1 h
    exact ⟨slots h, (slots h).allocate_eq_self attached apart⟩

/-- Explicit and implicit slots in all three policies, with a sampled stand-in of a subpass input. -/
theorem allocate_exact_mixed :
    let d (name : String) (binding location attachment : Option Nat) : Descriptor :=
      { Descriptor.declared name "vec4" .fragment with
        binding := binding, location := location, inputAttachment := attachment }
    let info : Interface := ⟨fun
      | .samplerTexture => [d "a" none none none, d "s" none none none, d "b" (some 1) none none]
      | .subpassInput => [d "s" none none (some 3)]
      | .varying => [d "u" none none none, d "v" none (some 0) none, d "w" none none none]
      | _ => []⟩
    (allocate info).2 = none ∧ IsAllocation (allotted info) (allocate info).1 ∧
      ((allocate info).1.list .varying).map Descriptor.location = [some 1, some 0, some 2] := by
  intro d info
  have none_wrong : (allocate info).2 = none := by rfl
  exact ⟨none_wrong, ((allocate_exact info {}).2 none_wrong).1, by decide⟩

end ShaderPass.Slot
