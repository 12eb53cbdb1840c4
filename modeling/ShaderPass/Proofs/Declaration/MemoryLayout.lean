import ShaderPass.Proofs.Declaration.RoundTrip

/-! Memory layouts of blocks and buffers: which of the four keys a layout list ends up with, and when it is
one only. -/
namespace ShaderPass

open Declaration Token ShaderPass.Bracket FunctionDef Compile

namespace Layout

open Text

section Keys

variable {layout : Layout} {key other : String} {value : Option String}

theorem has_cons (entry : String × Option String) (layout : Layout) (key : String) :
    has (entry :: layout) key = (decide (entry.1 = key) || layout.has key) := by
  simp [has]

theorem has_erase (layout : Layout) (key other : String) :
    (layout.erase key).has other = (decide (other ≠ key) && layout.has other) := by
  rw [Bool.eq_iff_iff]
  simp only [has, erase, List.any_eq_true, List.mem_filter, Bool.and_eq_true, decide_eq_true_eq]
  constructor
  · rintro ⟨entry, ⟨member, apart⟩, rfl⟩
    exact ⟨apart, entry, member, rfl⟩
  · rintro ⟨apart, entry, member, rfl⟩
    exact ⟨entry, ⟨member, apart⟩, rfl⟩

theorem has_set_of_ne (apart : other ≠ key) : (layout.set key value).has other = layout.has other := by
  unfold set Table.insert
  induction layout with
  | nil => simp [has, Table.upsert, apart.symm]
  | cons entry layout ih =>
    rw [Table.upsert]
    split
    · rename_i same
      rw [of_decide_eq_true same, has_cons, has_cons, of_decide_eq_true same]
    · rw [has_cons, has_cons, ih]

theorem exists_of_has (found : layout.has key = true) : ∃ entry ∈ layout, entry.1 = key := by
  obtain ⟨entry, member, same⟩ := List.any_eq_true.1 found
  exact ⟨entry, member, of_decide_eq_true same⟩

end Keys

theorem trim_entryText_ne_nil {entry : String × Option String} {c : Char} (member : c ∈ entry.1.toList)
    (visible : isBlank c = false) : trim (entryText entry) ≠ [] := by
  refine trim_ne_nil ?_ visible
  rw [entryText]
  split
  · exact List.mem_append_left _ member
  · exact member

theorem isEntry_key {key : String} (letters : ∀ c ∈ key.toList, isIdentChar c = true) :
    IsEntry (key, none) := by
  have plain : key.toList.filter isStructural = [] :=
    List.filter_eq_nil_iff.2 fun c hc => by simp [isStructural_of_isIdentChar (letters c hc)]
  have nothing : IsArg [] := ⟨rfl, rfl⟩
  refine ⟨nothing.of_filter plain, isQuiet_of_isIdentChar letters, fun sign => ?_,
    trim_of_isIdentChar letters, nofun⟩
  cases letters _ sign

def memoryKeys : List String := ["std140", "std430", "shared", "packed"]

def HasOnly (layout : Layout) (key : String) : Prop :=
  ∀ other ∈ memoryKeys, layout.has other = true ↔ other = key

instance (layout : Layout) (key : String) : Decidable (layout.HasOnly key) :=
  inferInstanceAs (Decidable (∀ other ∈ memoryKeys, layout.has other = true ↔ other = key))

theorem hasOnly_iff {layout : Layout} {key : String} (known : key ∈ memoryKeys) :
    layout.HasOnly key ↔ layout.has key = true ∧ ∀ other ∈ memoryKeys, other ≠ key →
      layout.has other = false := by
  constructor
  · intro only
    exact ⟨(only key known).2 rfl, fun other member apart =>
      Bool.eq_false_iff.2 fun found => apart ((only other member).1 found)⟩
  · rintro ⟨own, none⟩ other member
    refine ⟨fun found => ?_, fun same => same ▸ own⟩
    by_contra apart
    rw [none other member apart] at found
    cases found

end Layout

namespace Decoration

open Layout Statement

section Layouts

variable {layout : Layout}

theorem has_blockLayout (layout : Layout) : (blockLayout layout).has "std140" = true := by
  rw [blockLayout]
  split
  · assumption
  · rw [has_cons, decide_eq_true rfl, Bool.true_or]

theorem has_bufferLayout (layout : Layout) (binding : Option Nat) :
    (bufferLayout layout binding).has "std430" = true := by
  have own : (if layout.has "std430" then layout else ("std430", none) :: layout).has "std430" = true := by
    split
    · assumption
    · rw [has_cons, decide_eq_true rfl, Bool.true_or]
  cases binding with
  | none => exact own
  | some n => exact (has_set_of_ne (by decide)).trans own

theorem has_blockLayout_of_ne {key : String} (apart : key ≠ "std140") :
    (blockLayout layout).has key = true ↔ layout.has key = true ∧
      (layout.has "std140" = true ∨ key ≠ "shared" ∧ key ≠ "packed") := by
  rw [blockLayout]
  split
  · rename_i own
    simp [own]
  · rename_i own
    rw [has_cons, has_erase, has_erase, decide_eq_false apart.symm]
    simp [own, and_comm, and_assoc]

theorem has_bufferLayout_of_ne {key : String} (apart : key ≠ "std430") (no_slot : key ≠ "binding")
    (binding : Option Nat) : (bufferLayout layout binding).has key = layout.has key := by
  have others : (if layout.has "std430" then layout else ("std430", none) :: layout).has key =
      layout.has key := by
    split
    · rfl
    · rw [has_cons, decide_eq_false apart.symm, Bool.false_or]
  cases binding with
  | none => exact others
  | some n => exact (has_set_of_ne no_slot).trans others

/-- From the list of a block, std430 is never removed, and shared and packed are only where std140 comes
in. -/
theorem hasOnly_blockLayout_iff : (blockLayout layout).HasOnly "std140" ↔
    layout.has "std430" = false ∧
      (layout.has "std140" = true → layout.has "shared" = false ∧ layout.has "packed" = false) := by
  have std430 : (blockLayout layout).has "std430" = true ↔ _ := has_blockLayout_of_ne (by decide)
  have shared : (blockLayout layout).has "shared" = true ↔ _ := has_blockLayout_of_ne (by decide)
  have packed : (blockLayout layout).has "packed" = true ↔ _ := has_blockLayout_of_ne (by decide)
  rw [hasOnly_iff (by decide), has_blockLayout]
  simp only [memoryKeys, List.forall_mem_cons]
  cases own : layout.has "std140" <;> simp [← Bool.not_eq_true, std430, shared, packed, own]

theorem hasOnly_bufferLayout_iff (binding : Option Nat) :
    (bufferLayout layout binding).HasOnly "std430" ↔
      layout.has "std140" = false ∧ layout.has "shared" = false ∧ layout.has "packed" = false := by
  have kept {key : String} (apart : key ≠ "std430") (no_slot : key ≠ "binding") :
      (bufferLayout layout binding).has key = layout.has key :=
    has_bufferLayout_of_ne apart no_slot binding
  rw [hasOnly_iff (by decide), has_bufferLayout]
  simp only [memoryKeys, List.forall_mem_cons]
  simp [kept]

end Layouts

/-- The layout list that a declaration gets. -/
def memoryLayout (info : Interface) (version : Nat) (d : Declaration) : Layout :=
  match d.category with
  | .block => blockLayout d.layout
  | .buffer => bufferLayout d.layout
      (if version ≥ 450 then (info.find? .buffer d.descriptor.name).bind Descriptor.binding else none)
  | _ => d.layout

def LaidOut (c : Category) (layout : Layout) : Prop :=
  match c with
  | .block => layout.HasOnly "std140"
  | .buffer => layout.HasOnly "std430"
  | _ => True

instance (c : Category) (layout : Layout) : Decidable (LaidOut c layout) :=
  match c with
  | .block => inferInstanceAs (Decidable (layout.HasOnly "std140"))
  | .buffer => inferInstanceAs (Decidable (layout.HasOnly "std430"))
  | .samplerTexture | .sampler | .texture | .image | .subpassInput | .vertexInput | .varying | .fragColor =>
    isTrue trivial

/-- No key of a list stands against the memory layout that the list gets: for a block std430, and
shared or packed beside a std140 that keeps them, for a buffer each of the other three. -/
def Unopposed (c : Category) (layout : Layout) : Prop :=
  match c with
  | .block => layout.has "std430" = false ∧
      (layout.has "std140" = true → layout.has "shared" = false ∧ layout.has "packed" = false)
  | .buffer => layout.has "std140" = false ∧ layout.has "shared" = false ∧ layout.has "packed" = false
  | _ => True

theorem laidOut_memoryLayout_iff (info : Interface) (version : Nat) (d : Declaration) :
    LaidOut d.category (memoryLayout info version d) ↔ Unopposed d.category d.layout := by
  unfold memoryLayout
  cases d.category with
  | block => exact hasOnly_blockLayout_iff
  | buffer => exact hasOnly_bufferLayout_iff _
  | _ => exact Iff.rfl

theorem writable_of_has {layout : Layout} {key : String} (own : layout.has key = true)
    (letters : key.toList.all isIdentChar = true) (not_empty : key.toList ≠ [])
    (entries : ∀ entry ∈ layout, IsEntry entry) : Writable layout := by
  obtain ⟨entry, member, rfl⟩ := exists_of_has own
  obtain ⟨c, rest, chars⟩ := List.exists_cons_of_ne_nil not_empty
  have first : c ∈ entry.1.toList := chars ▸ List.mem_cons_self
  have visible : isBlank c = false := isBlank_of_isIdentChar (List.all_eq_true.1 letters c first)
  exact ⟨List.ne_nil_of_mem member, entries,
    parse_listText entries member (trim_entryText_ne_nil first visible)⟩

theorem isEntry_of_mem_blockLayout {layout : Layout} (entries : ∀ entry ∈ layout, IsEntry entry) :
    ∀ entry ∈ blockLayout layout, IsEntry entry := by
  rw [blockLayout]
  split
  · exact entries
  · refine List.forall_mem_cons.2 ⟨isEntry_key (List.all_eq_true.1 rfl), fun entry member => ?_⟩
    exact entries entry (List.mem_of_mem_filter (List.mem_of_mem_filter member))

theorem isEntry_of_mem_bufferLayout {layout : Layout} (entries : ∀ entry ∈ layout, IsEntry entry)
    (binding : Option Nat) : ∀ entry ∈ bufferLayout layout binding, IsEntry entry := by
  have own : ∀ entry ∈ (if layout.has "std430" then layout else ("std430", none) :: layout),
      IsEntry entry := by
    split
    · exact entries
    · exact List.forall_mem_cons.2 ⟨isEntry_key (List.all_eq_true.1 rfl), entries⟩
  cases binding with
  | none => exact own
  | some n =>
    intro entry member
    rcases mem_set member with member | rfl
    · exact own entry member
    · exact isEntry_slot (List.all_eq_true.1 rfl) n

theorem writable_memoryLayout {info : Interface} {version : Nat} {d : Declaration}
    (entries : ∀ entry ∈ d.layout, IsEntry entry) (changed : memoryLayout info version d ≠ d.layout) :
    Writable (memoryLayout info version d) := by
  unfold memoryLayout at changed ⊢
  cases category : d.category with
  | block =>
    exact writable_of_has (has_blockLayout _) rfl (by decide) (isEntry_of_mem_blockLayout entries)
  | buffer =>
    exact writable_of_has (has_bufferLayout _ _) rfl (by decide) (isEntry_of_mem_bufferLayout entries _)
  | _ =>
    rw [category] at changed
    exact absurd rfl changed

theorem exists_updated {t : Text} {stage : Stage} {ds : List Declaration}
    {request : Declaration → Compile (Option Layout)} {update : Declaration → Layout}
    (no_comment : ∀ k ∈ Token.scan t, k.kind ≠ .comment)
    (extracted : outcome (extract t stage (find t)) = some ds)
    (balanced : ∀ d ∈ ds, nested [] (marks (within (d.start, d.stop) (significant t))) = true)
    (no_block : ∀ d ∈ ds, ∀ range ∈ d.layoutRange, ∀ v ∈ within range (significant t),
      v.isPunct '\x7b' = false)
    (made : ∀ d ∈ ds, ∃ answer, request d = pure answer ∧ answer.getD d.layout = update d)
    (writable : ∀ d ∈ ds, (∀ entry ∈ d.layout, IsEntry entry) → update d ≠ d.layout →
      Writable (update d)) :
    ∃ t' ds', (∀ r, ((updateLayouts t stage request).runWith r).1 = .ok t') ∧
      outcome (extract t' stage (find t')) = some ds' ∧
      List.Forall₂ (fun d d' => Relaid (update d) d d') ds ds' := by
  have run := (run_of_outcome extracted).closed (List.nil_append _).symm balanced
  have writable' : ∀ d ∈ ds, update d ≠ d.layout → Writable (update d) := by
    intro d hd
    obtain ⟨front, own, before, k, later, place⟩ := run.placement hd
    exact writable d hd (place.isEntry no_comment (place.group (no_block d hd)))
  have run_all : Run t stage (find t) Closed [] [] (significant t) ([] ++ ds) := run
  obtain ⟨front, ds', run', nothing, relaid, -⟩ := exists_run_written run_all no_block writable'
  obtain rfl := List.forall₂_nil_left_iff.1 nothing
  have text : Text.splice t (relayouts t update ds) = written t update ds :=
    Text.splice_eq_spliceFrom (pairwise_relayouts run writable')
  refine ⟨written t update ds, ds', fun r => ?_, run'.outcome, relaid⟩
  obtain ⟨s, result⟩ := runWith_updateLayouts extracted made r
  rw [result, text]

/-- A text with memory layouts declares what the text without them declares, and there a block or
buffer lies in memory in one way unless its list opposes that. -/
def SettlesLayouts (t : Text) (stage : Stage) (info : Interface) (version : Nat)
    (ds : List Declaration) : Prop :=
  ∃ t' ds', (∀ r, ((memoryLayouts t stage info version).runWith r).1 = .ok t') ∧
    outcome (extract t' stage (find t')) = some ds' ∧
    List.Forall₂ (fun d d' => d'.category = d.category ∧ d'.layout = memoryLayout info version d ∧
      (LaidOut d'.category d'.layout ↔ Unopposed d.category d.layout)) ds ds'

/-- Where the brackets of declarations nest and no layout list holds a block, a block ends up with std140
alone, and a buffer with std430 alone, unless its list opposes that. -/
theorem memoryLayouts_settle {t : Text} {stage : Stage} {ds : List Declaration}
    (info : Interface) (version : Nat)
    (no_comment : ∀ k ∈ Token.scan t, k.kind ≠ .comment)
    (extracted : outcome (extract t stage (find t)) = some ds)
    (balanced : ∀ d ∈ ds, nested [] (marks (within (d.start, d.stop) (significant t))) = true)
    (no_block : ∀ d ∈ ds, ∀ range ∈ d.layoutRange, ∀ v ∈ within range (significant t),
      v.isPunct '\x7b' = false) :
    SettlesLayouts t stage info version ds := by
  have updated : ∃ t' ds', (∀ r, ((memoryLayouts t stage info version).runWith r).1 = .ok t') ∧
      outcome (extract t' stage (find t')) = some ds' ∧
      List.Forall₂ (fun d d' => Relaid (memoryLayout info version d) d d') ds ds' := by
    refine exists_updated no_comment extracted balanced no_block (fun d _ => ?_) fun d _ =>
      writable_memoryLayout
    unfold memoryUpdate memoryLayout
    cases d.category <;> exact ⟨_, rfl, rfl⟩
  obtain ⟨t', ds', result, extracted', relaid⟩ := updated
  refine ⟨t', ds', result, extracted', relaid.imp fun d d' relaid => ?_⟩
  refine ⟨relaid.category, relaid.layout, ?_⟩
  rw [relaid.category, relaid.layout]
  exact laidOut_memoryLayout_iff info version d

theorem memoryLayouts_settle_mixed :
    let t := "layout(shared) uniform A \x7b vec4 u; \x7d;\nlayout(shared) buffer B \x7b vec2 c; \x7d;".toList
    let info : Interface := ⟨fun
      | .buffer => [{ Descriptor.declared "B" "B" .fragment with binding := some 0 }]
      | _ => []⟩
    let ds := (outcome (extract t .fragment (find t))).getD []
    ds.map (fun d => (d.descriptor.name, memoryLayout info 450 d)) =
      [("A", [("std140", none)]), ("B", [("std430", none), ("shared", none), ("binding", some "0")])] ∧
      SettlesLayouts t .fragment info 450 ds := by
  intro t info ds
  refine ⟨by decide +kernel, memoryLayouts_settle info 450 ?_ ?_ ?_ ?_⟩
  · decide +kernel
  · decide +kernel
  · decide +kernel
  · decide +kernel

/-- A text without comments and with balanced layout lists that writing memory layouts makes another text
of, where a block or buffer does not lie in memory in its own way only. -/
def Opposed (before after : String) : Prop :=
  let t := before.toList
  let t' := after.toList
  (∀ k ∈ Token.scan t, k.kind ≠ .comment) ∧
    (∀ ds ∈ outcome (extract t .fragment (find t)), ∀ d ∈ ds, ∀ range ∈ d.layoutRange,
      nested [] (Text.slice range.1 range.2 t) = true) ∧
    outcome (memoryLayouts t .fragment ⟨fun _ => []⟩ 300) = some t' ∧
    ∃ ds ∈ outcome (extract t' .fragment (find t')), ∃ d ∈ ds, ¬ LaidOut d.category d.layout

/-- A buffer keeps shared, a block keeps std430, and beside a std140 of its own shared too; where a list
holds a directive in a block, the directive swallows the block that the list stands in front of, and the
next one comes to light without a list. -/
theorem not_laidOut_memoryLayouts :
    Opposed "layout(shared) buffer B \x7b float a; \x7d;"
        "layout(std430, shared) buffer B \x7b float a; \x7d;" ∧
      Opposed "layout(std430) uniform B \x7b float a; \x7d;"
        "layout(std140, std430) uniform B \x7b float a; \x7d;" ∧
      Opposed "layout(std140, shared) uniform B \x7b float a; \x7d;"
        "layout(std140, shared) uniform B \x7b float a; \x7d;" ∧
      Opposed ("layout(\x7b\n#define X =\n\x7d) uniform A \x7b \x7d; " ++
          "f \x7b \x7b\n\x7d ; uniform B \x7b float a; \x7d; \x7d ;")
        ("layout(std140, \x7b\n#define X = \x7d) uniform A \x7b \x7d; " ++
          "f \x7b \x7b\n\x7d ; uniform B \x7b float a; \x7d; \x7d ;") := by
  unfold Opposed
  decide +kernel

end Decoration
end ShaderPass
