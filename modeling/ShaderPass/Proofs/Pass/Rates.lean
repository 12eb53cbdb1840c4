import Mathlib.Data.List.Forall2
import Mathlib.Logic.Function.Basic
import ShaderPass.Pass.Reflection

/-! The resources of an interface by update rate: every resource has a rate and stands in the bucket of
that rate, and builtin resources are listed once, by whether they are updated per pass. -/
namespace ShaderPass

/-- The items of a list dealt out one after the other, each to a bucket it belongs to. -/
inductive Dealt {α κ : Type} [DecidableEq κ] (belongs : α → κ → Prop) :
    List α → (κ → List α) → Prop where
  | nil : Dealt belongs [] fun _ => []
  | cons {a as k buckets} : belongs a k → Dealt belongs as buckets →
      Dealt belongs (a :: as) (Function.update buckets k (a :: buckets k))

theorem dealt_filter {α κ : Type} [DecidableEq κ] {belongs : α → κ → Prop} {as : List α} (key : α → κ)
    (own : ∀ a ∈ as, belongs a (key a)) : Dealt belongs as fun k => as.filter (key · = k) := by
  induction as with
  | nil => exact .nil
  | cons a as ih =>
    have later := ih fun b hb => own b (List.mem_cons_of_mem _ hb)
    have step : (fun k => (a :: as).filter (key · = k)) =
        Function.update (fun k => as.filter (key · = k)) (key a) (a :: as.filter (key · = key a)) := by
      funext k
      by_cases same : k = key a
      · subst same
        simp
      · rw [Function.update_of_ne same, List.filter_cons_of_neg (by simpa using Ne.symm same)]
    rw [step]
    exact .cons (own a List.mem_cons_self) later

namespace Reflection

theorem toLower_eq_c_iff (a : Char) : a.toLower = 'c' ↔ a = 'c' ∨ a = 'C' := by
  unfold Char.toLower
  constructor
  · intro lower
    split at lower
    · have shifted : a.val + ('a'.val - 'A'.val) = 'C'.val + ('a'.val - 'A'.val) :=
        congrArg Char.val lower
      exact Or.inr (Char.ext ((UInt32.add_left_inj _).1 shifted))
    · exact Or.inl lower
  · rintro (rfl | rfl) <;> rfl

/-- A name of the engine: `cc` in any case and at least one more identifier character. -/
def IsBuiltinName (name : String) : Prop :=
  ∃ a b rest, name.toList = a :: b :: rest ∧ (a = 'c' ∨ a = 'C') ∧ (b = 'c' ∨ b = 'C') ∧ rest ≠ [] ∧
    ∀ x ∈ rest, isIdentChar x = true

theorem isBuiltin_iff (name : String) : isBuiltin name = true ↔ IsBuiltinName name := by
  unfold isBuiltin
  split
  · rename_i a b c rest text
    simp only [Bool.and_eq_true, decide_eq_true_eq, toLower_eq_c_iff, List.all_eq_true]
    constructor
    · rintro ⟨⟨first, second⟩, chars⟩
      exact ⟨a, b, c :: rest, text, first, second, List.cons_ne_nil _ _, chars⟩
    · rintro ⟨a', b', rest', text', first, second, -, chars⟩
      rw [text] at text'
      obtain ⟨rfl, rfl, rfl⟩ : a = a' ∧ b = b' ∧ c :: rest = rest' := by simpa using text'
      exact ⟨⟨first, second⟩, chars⟩
  · rename_i short
    refine ⟨nofun, ?_⟩
    rintro ⟨a, b, rest, text, -, -, some_char, -⟩
    obtain ⟨c, rest, rfl⟩ := List.exists_cons_of_ne_nil some_char
    exact absurd text (short a b c rest)

instance : DecidablePred IsBuiltinName :=
  fun name => decidable_of_iff _ (isBuiltin_iff name)

structure Rated (d d' : Descriptor) : Prop where
  given : d'.rate.isSome = true
  explicit : d.rate.isSome = true → d' = d
  same : { d' with rate := d.rate } = d

theorem rated_assigned (d : Descriptor) : Rated d { d with rate := some (d.rate.getD (defaultRate d)) } := by
  refine ⟨rfl, fun declared => ?_, rfl⟩
  obtain ⟨rate, found⟩ := Option.isSome_iff_exists.1 declared
  rw [found, Option.getD_some, ← found]

structure RatesAssigned (info rated : Interface) : Prop where
  resources : ∀ c, c.usesLocation = false → List.Forall₂ Rated (info.list c) (rated.list c)
  stageVariables : ∀ c, c.usesLocation = true → rated.list c = info.list c

theorem ratesAssigned_assignRates (info : Interface) : RatesAssigned info (assignRates info) := by
  refine ⟨fun c resource => ?_, fun c located => if_pos located⟩
  have lists : (assignRates info).list c =
      (info.list c).map fun d => { d with rate := some (d.rate.getD (defaultRate d)) } :=
    if_neg (by simp [resource])
  rw [lists, List.forall₂_map_right_iff, List.forall₂_same]
  exact fun d _ => rated_assigned d

/-- Every resource stands in the bucket of its rate, from the most to the least often updated, and the
buckets hold nothing else. -/
def DealtByRate (rated : Interface) (buckets : List Interface) : Prop :=
  ∃ bucket : Rate → Interface,
    buckets = [bucket .perInstance, bucket .perBatch, bucket .perPhase, bucket .perPass] ∧
    (∀ c, c.usesLocation = false →
      Dealt (fun d rate => d.rate = some rate) (rated.list c) fun rate => (bucket rate).list c) ∧
    ∀ c, c.usesLocation = true → ∀ rate, (bucket rate).list c = []

theorem dealtByRate_byRate {info rated : Interface} (assigned : RatesAssigned info rated) :
    DealtByRate rated (byRate rated) := by
  refine ⟨withRate rated, rfl, fun c resource => ?_, fun c located rate => if_pos located⟩
  have own : ∀ d ∈ rated.list c, d.rate = some (d.rate.getD .perBatch) := by
    intro d member
    obtain ⟨i, lt, rfl⟩ := List.getElem_of_mem member
    have lengths := (assigned.resources c resource).length_eq
    obtain ⟨rate, found⟩ := Option.isSome_iff_exists.1
      ((assigned.resources c resource).get (i := i) (by omega) lt).given
    rw [List.get_eq_getElem] at found
    rw [found, Option.getD_some]
  have dealt := @dealt_filter Descriptor Rate _ (fun d rate => d.rate = some rate) _
    (fun d => d.rate.getD .perBatch) own
  have lists : (fun rate => (withRate rated rate).list c) =
      fun rate => (rated.list c).filter fun d => d.rate.getD .perBatch = rate :=
    funext fun rate => if_neg (by simp [resource])
  rw [lists]
  exact dealt

def listing (names : Category → List String) : Json :=
  .obj [("blocks", .list .str (names .block)), ("samplerTextures", .list .str (names .samplerTexture)),
    ("buffers", .list .str (names .buffer)), ("images", .list .str (names .image))]

/-- The builtin blocks, sampler textures, buffers and images are listed by name: the global ones are those
that are updated per pass, and the local ones are the others. -/
def ListsBuiltins (rated : Interface) (listed : Json) : Prop :=
  ∃ builtins : Category → Bool → List Descriptor,
    (∀ c, Dealt (fun d isGlobal => isGlobal = true ↔ d.rate = some .perPass)
      ((rated.list c).filter fun d => IsBuiltinName d.name) (builtins c)) ∧
    ∃ statistics, listed = .obj
      [("globals", listing fun c => (builtins c true).map Descriptor.name),
        ("locals", listing fun c => (builtins c false).map Descriptor.name),
        ("statistics", statistics)]

theorem builtinNames_eq (info : Interface) (perPass : Bool) (c : Category) : builtinNames info perPass c =
    (((info.list c).filter fun d => IsBuiltinName d.name).filter
      fun d => decide (d.rate = some .perPass) = perPass).map Descriptor.name := by
  rw [builtinNames, List.filter_filter]
  refine congrArg (List.map Descriptor.name) (List.filter_congr fun d _ => ?_)
  have name_iff : decide (IsBuiltinName d.name) = isBuiltin d.name := by
    rw [Bool.eq_iff_iff, decide_eq_true_iff, isBuiltin_iff]
  rw [Bool.and_comm, name_iff]
  cases perPass <;> simp

theorem listsBuiltins_builtinsJson (info : Interface) : ListsBuiltins info (builtinsJson info) := by
  refine ⟨fun c isGlobal => ((info.list c).filter fun d => IsBuiltinName d.name).filter
    fun d => decide (d.rate = some .perPass) = isGlobal, fun c => ?_, ?_⟩
  · exact dealt_filter (fun d : Descriptor => decide (d.rate = some .perPass)) fun d _ => decide_eq_true_iff
  · simp only [← builtinNames_eq]
    exact ⟨_, rfl⟩

/-- Every resource gets a rate and stands in the bucket of that rate only, and the builtin resources are
listed once each. -/
theorem byRate_partitions (info : Interface) : RatesAssigned info (assignRates info) ∧
    DealtByRate (assignRates info) (byRate (assignRates info)) ∧
    ListsBuiltins (assignRates info) (builtinsJson (assignRates info)) :=
  ⟨ratesAssigned_assignRates info, dealtByRate_byRate (ratesAssigned_assignRates info),
    listsBuiltins_builtinsJson _⟩

/-- A local block of the engine, one with a declared rate, and one of neither kind. -/
example :
    let block (name : String) : Descriptor := .declared name name .vertex
    let info : Interface := ⟨fun c => if c = .block then
      [{ block "CCLocal" with tags := [("builtin", "local")] },
        { block "cc_time" with rate := some .perPhase }, block "Material"] else []⟩
    (byRate (assignRates info)).map (fun bucket => (bucket.list .block).map Descriptor.name) =
      [["CCLocal"], ["Material"], ["cc_time"], []] := by decide

end Reflection
end ShaderPass
