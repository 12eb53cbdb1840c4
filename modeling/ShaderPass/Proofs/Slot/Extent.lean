import Mathlib.Order.Interval.Finset.Nat
import ShaderPass.Proofs.Slot.Allocation
import ShaderPass.Proofs.TypeClass.Shape

/-! The extent of stage variables: which locations a variable takes, and when two variables whose
locations were allocated take a common one. -/
namespace ShaderPass.Slot

/-- How many locations a variable of a numeric type takes: one for every column of every element. -/
def width? (d : Descriptor) : Option Nat :=
  match TypeClass.ofName d.type with
  | .numeric type => some (type.columns * max d.count 1)
  | _ => none

def span (d : Descriptor) : Finset Nat :=
  match d.location, width? d with
  | some location, some width => Finset.Ico location (location + width)
  | _, _ => ∅

def Unlocated (info : Interface) : Prop :=
  ∀ c ∈ locatedCategories, ∀ d ∈ info.list c, d.location = none

theorem columns_pos {type : Text} {numeric : NumericType}
    (h : TypeClass.ofText type = .numeric numeric) : 0 < numeric.columns := by
  rcases TypeClass.shape_of_ofText h with ⟨n, -, -, rfl⟩ | ⟨columns, rows, least, -, rfl⟩
  · exact Nat.one_pos
  · exact Nat.lt_of_lt_of_le Nat.two_pos least

theorem width?_pos {d : Descriptor} {width : Nat} (h : width? d = some width) : 0 < width := by
  unfold width? at h
  split at h
  · rename_i numeric found
    cases h
    exact Nat.mul_pos (columns_pos found) (Nat.lt_of_lt_of_le Nat.one_pos (Nat.le_max_right _ _))
  · cases h

theorem Locates.eq_range {ds : List Descriptor} {locations : List Nat} (h : Locates ds locations)
    (implicit : ∀ d ∈ ds, d.location = none) : locations = List.range ds.length := by
  obtain ⟨length, spec⟩ := h
  have none_explicit : ds.filterMap Descriptor.location = [] := List.filterMap_eq_nil_iff.2 implicit
  have front (i : Nat) (le : i ≤ locations.length) : locations.take i = List.range i := by
    induction i with
    | zero => rfl
    | succ i ih =>
      have here : locations[i]? = some locations[i] := List.getElem?_eq_getElem le
      have own : ds[i]? = some ds[i] := List.getElem?_eq_getElem (by omega)
      obtain ⟨⟨-, unseen⟩, least⟩ :=
        (spec i _ _ own here).2 (implicit _ (List.getElem_mem (by omega)))
      rw [none_explicit, ih (by omega)] at least
      rw [ih (by omega), List.mem_range] at unseen
      have position : locations[i] = i := by
        refine Nat.le_antisymm (Nat.le_of_not_lt fun lt => ?_) (Nat.le_of_not_lt unseen)
        rcases least i lt with explicit | seen
        · cases explicit
        · exact absurd (List.mem_range.1 seen) (Nat.lt_irrefl i)
      rw [List.take_add_one, ih (by omega), here, position, List.range_succ]
      rfl
  have whole := front locations.length (Nat.le_refl _)
  rwa [List.take_length, length] at whole

theorem getElem?_allocate {info : Interface} (implicit : Unlocated info)
    (accepted : (allocate info).2 = none) {c : Category} (located : c ∈ locatedCategories)
    {i : Nat} {d : Descriptor} (found : ((allocate info).1.list c)[i]? = some d) :
    d.location = some i := by
  obtain ⟨locations, locates, eq⟩ := ((allocate_eq info).2 accepted).located c located
  have same : allotted info c = info.list c := by
    cases c with
    | samplerTexture => exact absurd located (by decide)
    | _ => rfl
  rw [same] at locates eq
  obtain rfl := locates.eq_range (implicit c located)
  rw [eq, List.getElem?_zipWith] at found
  split at found
  · rename_i e n _ at_i
    obtain rfl := Option.some.inj found
    obtain ⟨_, rfl⟩ := List.getElem?_eq_some_iff.1 at_i
    exact congrArg some (List.getElem_range _)
  · cases found

theorem disjoint_Ico_iff {i j m n : Nat} (lt : i < j) (some_location : 0 < n) :
    Disjoint (Finset.Ico i (i + m)) (Finset.Ico j (j + n)) ↔ i + m ≤ j := by
  rw [Finset.disjoint_left]
  simp only [Finset.mem_Ico]
  constructor
  · intro apart
    by_contra overlap
    exact apart ⟨Nat.le_of_lt lt, Nat.lt_of_not_le overlap⟩ ⟨Nat.le_refl j, by omega⟩
  · intro apart k first second
    omega

/-- Without explicit locations, every variable is located at its position, whatever its width. So two
variables take a common location exactly when the earlier one is wider than its distance from the
later one. -/
theorem allocate_disjoint_iff {info : Interface} (implicit : Unlocated info)
    (accepted : (allocate info).2 = none) {c : Category} (located : c ∈ locatedCategories) :
    (∀ (i : Nat) (d : Descriptor),
      ((allocate info).1.list c)[i]? = some d → d.location = some i) ∧
    ∀ (i j : Nat) (d e : Descriptor) (m n : Nat), i < j →
      ((allocate info).1.list c)[i]? = some d → ((allocate info).1.list c)[j]? = some e →
      width? d = some m → width? e = some n → (Disjoint (span d) (span e) ↔ m ≤ j - i) := by
  refine ⟨fun i d found => getElem?_allocate implicit accepted located found, ?_⟩
  intro i j d e m n order first second width later_width
  have at_i := getElem?_allocate implicit accepted located first
  have at_j := getElem?_allocate implicit accepted located second
  rw [span, span, at_i, at_j, width, later_width]
  dsimp only
  rw [disjoint_Ico_iff order (width?_pos later_width)]
  omega

def fourAttributes : Interface :=
  ⟨fun
    | .vertexInput => [Descriptor.declared "m" "mat3" .vertex,
        { Descriptor.declared "v" "vec4" .vertex with count := 2 },
        Descriptor.declared "w" "vec4" .vertex, Descriptor.declared "x" "float" .vertex]
    | _ => []⟩

theorem unlocated_fourAttributes : Unlocated fourAttributes := by
  unfold Unlocated
  decide

theorem allocate_disjoint_iff_matrix :
    let placed (name type : String) (location : Nat) : Descriptor :=
      { Descriptor.declared name type .vertex with location := some location }
    let attributes := (allocate fourAttributes).1.list .vertexInput
    Unlocated fourAttributes ∧ (allocate fourAttributes).2 = none ∧
      attributes[0]? = some (placed "m" "mat3" 0) ∧ attributes[2]? = some (placed "w" "vec4" 2) ∧
      attributes[3]? = some (placed "x" "float" 3) ∧
      ¬ Disjoint (span (placed "m" "mat3" 0)) (span (placed "w" "vec4" 2)) ∧
      Disjoint (span (placed "m" "mat3" 0)) (span (placed "x" "float" 3)) := by
  intro placed attributes
  have accepted : (allocate fourAttributes).2 = none := by decide
  have matrix : width? (placed "m" "mat3" 0) = some 3 := by decide
  have first : attributes[0]? = some (placed "m" "mat3" 0) := by decide
  have third : attributes[2]? = some (placed "w" "vec4" 2) := by decide
  have fourth : attributes[3]? = some (placed "x" "float" 3) := by decide
  have located : Category.vertexInput ∈ locatedCategories := by decide
  obtain ⟨-, disjoint_iff⟩ := allocate_disjoint_iff unlocated_fourAttributes accepted located
  have near := disjoint_iff 0 2 _ _ 3 1 (by decide) first third matrix (by decide)
  have far := disjoint_iff 0 3 _ _ 3 1 (by decide) first fourth matrix (by decide)
  exact ⟨unlocated_fourAttributes, accepted, first, third, fourth,
    fun disjoint => absurd (near.1 disjoint) (by decide), far.2 (by decide)⟩

/-- A matrix with a vector behind it: locations that are allocated overlap. -/
theorem not_allocate_disjoint : ¬ ∀ info : Interface, Unlocated info → (allocate info).2 = none →
    ∀ c ∈ locatedCategories, ∀ (i j : Nat) (d e : Descriptor), i ≠ j →
      ((allocate info).1.list c)[i]? = some d → ((allocate info).1.list c)[j]? = some e →
      Disjoint (span d) (span e) := by
  intro disjoint
  have apart := disjoint fourAttributes unlocated_fourAttributes (by decide) .vertexInput (by decide)
    0 1 _ _ (by decide) rfl rfl
  revert apart
  decide

end ShaderPass.Slot
