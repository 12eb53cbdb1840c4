import ShaderPass.Proofs.Declaration.Entries

/-! Writing slots and reading them back: the text that slots have been written into declares the same
things, each with its slot, and writing the slots again changes nothing. -/
namespace ShaderPass

namespace Text

theorem spliceFrom_cons_of_text {t : Text} {e : Edit} {edits : List Edit}
    (start : IsBoundary t e.start) (stop : IsBoundary t e.stop) (le : e.start ≤ e.stop)
    (later : ∀ e' ∈ edits, e.stop ≤ e'.start ∧ e.stop ≤ e'.stop) {u m w : Text}
    (text : spliceFrom 0 (dropBytes 0 t) edits = u ++ (m ++ w)) (u_len : byteLen u = e.start)
    (m_len : byteLen u + byteLen m = e.stop) :
    spliceFrom 0 (dropBytes 0 t) (e :: edits) = u ++ (e.replacement ++ w) := by
  have here := isBoundary_zero t
  have front_len := byteLen_slice here start (Nat.zero_le _)
  have stop_len := byteLen_slice here stop (Nat.zero_le _)
  rw [spliceFrom_dropBytes here stop (Nat.zero_le _) later, ← List.append_assoc] at text
  obtain ⟨cut, rest⟩ := append_inj_of_byteLen text (by rw [byteLen_append]; omega)
  rw [← slice_append_slice here start stop (Nat.zero_le _) le] at cut
  obtain ⟨front, -⟩ := append_inj_of_byteLen cut (by omega)
  rw [spliceFrom_cons here e edits (Nat.zero_le _), rest, front, List.append_assoc]

end Text

namespace Decoration

open Declaration Token ShaderPass.Bracket Layout Statement FunctionDef Compile

structure Writable (layout : Layout) : Prop where
  some_entry : layout ≠ []
  entries : ∀ entry ∈ layout, IsEntry entry
  reads_back : Layout.parse (listText layout) = layout

theorem edit_of_ne_nil {layout : Layout} (some_entry : layout ≠ []) (t : Text) (d : Declaration) :
    edit t d layout = match d.layoutRange with
      | some range => ⟨range.1, range.2, layout.render⟩
      | none => ⟨d.start, d.start, layout.render ++ [' ']⟩ := by
  have visible : layout.render.isEmpty = false := by
    rw [render_eq_listed some_entry]
    rfl
  rw [edit, visible]
  cases d.layoutRange <;> rfl

def relayouts (t : Text) (update : Declaration → Layout) (ds : List Declaration) : List Edit :=
  ds.filterMap fun d => if update d = d.layout then none else some (edit t d (update d))

def written (t : Text) (update : Declaration → Layout) (ds : List Declaration) : Text :=
  Text.spliceFrom 0 (Text.dropBytes 0 t) (relayouts t update ds)

section Update

variable {t : Text} {stage : Stage} {update : Declaration → Layout} {ds : List Declaration}

theorem edit_bounds (run : Run t stage (find t) Closed [] [] (significant t) ds) {d : Declaration}
    (member : d ∈ ds) {layout : Layout} (some_entry : layout ≠ []) :
    d.start ≤ (edit t d layout).start ∧ (edit t d layout).start ≤ (edit t d layout).stop ∧
      (edit t d layout).stop ≤ d.stop := by
  obtain ⟨front, own, before, k, later, place⟩ := run.placement member
  rw [edit_of_ne_nil some_entry]
  cases at_range : d.layoutRange with
  | none =>
    exact ⟨Nat.le_refl _, Nat.le_refl _, Nat.le_of_lt (run.apart.2 d member)⟩
  | some range =>
    obtain ⟨start, le⟩ := place.start_le at_range
    exact ⟨start, le, (run.settled member).2 range at_range⟩

theorem bounds_of_mem_relayouts (run : Run t stage (find t) Closed [] [] (significant t) ds)
    (part : List Declaration) (sub : ∀ d ∈ part, d ∈ ds)
    (writable : ∀ d ∈ part, update d ≠ d.layout → Writable (update d)) {e : Edit}
    (he : e ∈ relayouts t update part) :
    ∃ d ∈ part, d.start ≤ e.start ∧ e.start ≤ e.stop ∧ e.stop ≤ d.stop := by
  obtain ⟨d, member, made⟩ := List.mem_filterMap.1 he
  split at made
  · cases made
  · rename_i changed
    obtain rfl := Option.some.inj made
    exact ⟨d, member, edit_bounds run (sub d member) (writable d member changed).some_entry⟩

theorem moved_zero_trans {d d' d'' : Declaration} (first : Moved 0 0 d d') (second : Moved 0 0 d' d'') :
    Moved 0 0 d d'' := by
  refine ⟨second.start.trans first.start, second.stop.trans first.stop,
    second.category.trans first.category, second.descriptor.trans first.descriptor,
    second.layout.trans first.layout, second.range.trans ?_⟩
  rw [first.range, Option.map_map]
  rfl

theorem relaid_of_moved {layout : Layout} {d d' d'' : Declaration} (moved : Moved 0 0 d d')
    (relaid : Relaid layout d' d'') : Relaid layout d d'' :=
  ⟨relaid.category.trans moved.category, relaid.layout, moved.descriptor ▸ relaid.descriptor⟩

theorem relaid_of_relaid_moved {layout : Layout} {z z' : Nat} {d d' d'' : Declaration}
    (relaid : Relaid layout d d') (moved : Moved z z' d' d'') : Relaid layout d d'' :=
  ⟨moved.category.trans relaid.category, moved.layout.trans relaid.layout,
    moved.descriptor.trans relaid.descriptor⟩

theorem layoutRange_of_moved {d d' : Declaration} (moved : Moved 0 0 d d') :
    d'.layoutRange = d.layoutRange := by
  rw [moved.range]
  exact Option.map_id'

theorem exists_run_written_cons {ds₁ ds₂ ds₁' ds₂' : List Declaration} {d d' : Declaration}
    (run : Run t stage (find t) Closed [] [] (significant t) (ds₁ ++ d :: ds₂))
    (no_block : ∀ range, d.layoutRange = some range →
      ∀ v ∈ within range (significant t), v.isPunct '\x7b' = false)
    (changed : update d ≠ d.layout)
    (writable : ∀ e ∈ d :: ds₂, update e ≠ e.layout → Writable (update e))
    (same : ∀ range, d.layoutRange = some range →
      within range (significant (written t update ds₂)) = within range (significant t))
    (run' : Run (written t update ds₂) stage (find (written t update ds₂)) Closed [] []
      (significant (written t update ds₂)) (ds₁' ++ d' :: ds₂')) (moved : Moved 0 0 d d') :
    ∃ z z' ds₁'' d'' ds₂'', List.Forall₂ (Moved 0 0) ds₁' ds₁'' ∧ Relaid (update d) d' d'' ∧
      List.Forall₂ (Moved z z') ds₂' ds₂'' ∧
      Run (written t update (d :: ds₂)) stage (find (written t update (d :: ds₂))) Closed [] []
        (significant (written t update (d :: ds₂))) (ds₁'' ++ d'' :: ds₂'') ∧
      ∀ range : Nat × Nat, range.2 ≤ d.start →
        within range (significant (written t update (d :: ds₂))) =
          within range (significant (written t update ds₂)) := by
  have new := writable d List.mem_cons_self changed
  have range_eq := layoutRange_of_moved moved
  obtain ⟨front, own, before, k, later, place⟩ := run.placement (d := d) (by simp)
  obtain ⟨front', own', before', k', later', place'⟩ := run'.placement (d := d') (by simp)
  have group : Group before := place.group no_block
  have group' : Group before' := place'.group fun range at_range => by
    rw [range_eq] at at_range
    rw [same range at_range]
    exact no_block range at_range
  obtain ⟨u₀, m₀, m₀', w₀, after₀, rewrite₀⟩ := place.exists_rewrite group new.some_entry new.entries
  obtain ⟨u, m, m', w, after, rewrite⟩ := place'.exists_rewrite group' new.some_entry new.entries
  have edit_same : edit (written t update ds₂) d' (update d) = edit t d (update d) := by
    rw [edit_of_ne_nil new.some_entry, edit_of_ne_nil new.some_entry, range_eq, moved.start]
    rfl
  have edit_eq := edit_same.symm.trans rewrite.edit
  obtain ⟨start_le, le, stop_le⟩ := edit_bounds run (d := d) (by simp) new.some_entry
  have later_edits : ∀ e ∈ relayouts t update ds₂,
      (edit t d (update d)).stop ≤ e.start ∧ (edit t d (update d)).stop ≤ e.stop := by
    intro e he
    obtain ⟨d₂, member, start_le₂, le₂, -⟩ := bounds_of_mem_relayouts run ds₂
      (fun d₂ hd₂ => by simp [hd₂]) (fun d₂ hd₂ => writable d₂ (List.mem_cons_of_mem _ hd₂)) he
    have := (List.pairwise_cons.1 (List.pairwise_append.1 run.apart.1).2.1).1 d₂ member
    omega
  have text : written t update (d :: ds₂) = u ++ (m' ++ w) := by
    rw [written, relayouts, List.filterMap_cons, if_neg changed]
    have boundaries : Text.IsBoundary t (edit t d (update d)).start ∧
        Text.IsBoundary t (edit t d (update d)).stop := by
      rw [rewrite₀.edit, rewrite₀.text]
      exact ⟨⟨u₀, m₀ ++ w₀, rfl, rfl⟩, ⟨u₀ ++ m₀, w₀, by simp, Text.byteLen_append _ _⟩⟩
    have := Text.spliceFrom_cons_of_text boundaries.1 boundaries.2 le later_edits rewrite.text
      (by rw [edit_eq]) (by rw [edit_eq])
    rw [edit_eq] at this ⊢
    exact this
  obtain ⟨ds₁'', d'', ds₂'', first, relaid, second, run''⟩ :=
    rewrite.exists_run place' run' new.reads_back
  rw [text]
  refine ⟨_, _, ds₁'', d'', ds₂'', first, relaid, second, run'', fun range ahead => ?_⟩
  refine rewrite.within_eq place' ?_
  have : (edit t d (update d)).start = Text.byteLen u := by rw [edit_eq]
  omega

theorem forall₂_comp {α β γ : Type} {R : α → β → Prop} {S : β → γ → Prop} {T : α → γ → Prop}
    {as : List α} {bs : List β} {cs : List γ} (first : List.Forall₂ R as bs)
    (second : List.Forall₂ S bs cs) (comp : ∀ a b c, R a b → S b c → T a c) :
    List.Forall₂ T as cs := by
  induction first generalizing cs with
  | nil =>
    cases second
    exact .nil
  | cons here _ ih =>
    cases second with
    | cons there later => exact .cons (comp _ _ _ here there) (ih later)

/-- With the layouts of the last declarations updated, these are found with their new layouts and the
others as before. -/
theorem exists_run_written {ds₁ ds₂ : List Declaration}
    (run : Run t stage (find t) Closed [] [] (significant t) (ds₁ ++ ds₂))
    (no_block : ∀ d ∈ ds₂, ∀ range, d.layoutRange = some range →
      ∀ v ∈ within range (significant t), v.isPunct '\x7b' = false)
    (writable : ∀ d ∈ ds₂, update d ≠ d.layout → Writable (update d)) :
    ∃ ds₁' ds₂', Run (written t update ds₂) stage (find (written t update ds₂)) Closed [] []
        (significant (written t update ds₂)) (ds₁' ++ ds₂') ∧
      List.Forall₂ (Moved 0 0) ds₁ ds₁' ∧
      List.Forall₂ (fun d d' => Relaid (update d) d d') ds₂ ds₂' ∧
      ∀ range : Nat × Nat, (∀ d ∈ ds₂, range.2 ≤ d.start) →
        within range (significant (written t update ds₂)) = within range (significant t) := by
  induction ds₂ generalizing ds₁ with
  | nil =>
    have text : written t update [] = t := Text.dropBytes_zero t
    rw [text]
    refine ⟨ds₁, [], run, List.forall₂_same.2 fun d _ => ?_, .nil, fun _ _ => rfl⟩
    exact ⟨rfl, rfl, rfl, rfl, rfl, Option.map_id'.symm⟩
  | cons d ds₂ ih =>
    have run_at : Run t stage (find t) Closed [] [] (significant t) ((ds₁ ++ [d]) ++ ds₂) := by
      rwa [List.append_assoc, List.singleton_append]
    obtain ⟨es, ds₂', run', moved, relaid, same⟩ := ih run_at
      (fun e he => no_block e (List.mem_cons_of_mem _ he))
      (fun e he => writable e (List.mem_cons_of_mem _ he))
    obtain ⟨ds₁', d', rfl, front, here⟩ : ∃ ds₁' d', es = ds₁' ++ [d'] ∧
        List.Forall₂ (Moved 0 0) ds₁ ds₁' ∧ Moved 0 0 d d' := by
      have front := List.forall₂_take ds₁.length moved
      have last := List.forall₂_drop ds₁.length moved
      rw [List.take_left] at front
      rw [List.drop_left] at last
      obtain ⟨d', _, here, nothing, split⟩ := List.forall₂_cons_left_iff.1 last
      rw [List.forall₂_nil_left_iff.1 nothing] at split
      exact ⟨_, d', by rw [← split, List.take_append_drop], front, here⟩
    rw [List.append_assoc, List.singleton_append] at run'
    have later : ∀ e ∈ ds₂, d.stop ≤ e.start :=
      (List.pairwise_cons.1 (List.pairwise_append.1 run.apart.1).2.1).1
    have member : d ∈ ds₁ ++ d :: ds₂ := List.mem_append_right _ List.mem_cons_self
    by_cases changed : update d = d.layout
    · have text : written t update (d :: ds₂) = written t update ds₂ := by
        rw [written, relayouts, List.filterMap_cons, if_pos changed]
        rfl
      rw [text]
      refine ⟨ds₁', d' :: ds₂', run', front, .cons ?_ relaid, fun range ahead =>
        same range fun e he => ahead e (List.mem_cons_of_mem _ he)⟩
      rw [changed]
      exact relaid_of_relaid_moved (run.settled member).1 here
    · have same_list : ∀ range, d.layoutRange = some range →
          within range (significant (written t update ds₂)) = within range (significant t) :=
        fun range at_range => same range fun e he =>
          Nat.le_trans ((run.settled member).2 range at_range) (later e he)
      obtain ⟨z, z', ds₁'', d'', ds₂'', first, relaid_d, second, run'', same'⟩ :=
        exists_run_written_cons run (no_block d List.mem_cons_self) changed writable same_list run' here
      have relaid_later : List.Forall₂ (fun d d' => Relaid (update d) d d') ds₂ ds₂'' :=
        forall₂_comp relaid second fun _ _ _ => relaid_of_relaid_moved
      refine ⟨ds₁'', d'' :: ds₂'', run'', forall₂_comp front first fun _ _ _ => moved_zero_trans,
        .cons (relaid_of_moved here relaid_d) relaid_later, fun range ahead => ?_⟩
      rw [same' range (ahead d List.mem_cons_self),
        same range fun e he => ahead e (List.mem_cons_of_mem _ he)]

end Update

theorem mapM_eq_pure {α β : Type} {f : α → Compile β} {g : α → β} {as : List α}
    (plain : ∀ a ∈ as, f a = pure (g a)) : as.mapM f = pure (as.map g) := by
  induction as with
  | nil => rfl
  | cons a as ih =>
    rw [List.mapM_cons, plain a List.mem_cons_self, pure_bind,
      ih fun b hb => plain b (List.mem_cons_of_mem _ hb), pure_bind, List.map_cons]

theorem layoutEdits_eq_pure {t : Text} {ds : List Declaration}
    {request : Declaration → Compile (Option Layout)} {update : Declaration → Layout}
    (made : ∀ d ∈ ds, ∃ answer, request d = pure answer ∧ answer.getD d.layout = update d) :
    layoutEdits t request ds = pure (relayouts t update ds) := by
  rw [layoutEdits, mapM_eq_pure
    (g := fun d => if update d = d.layout then none else some (edit t d (update d))), pure_bind,
    List.filterMap_map]
  · rfl
  · intro d hd
    obtain ⟨answer, requested, new⟩ := made d hd
    rw [requested, pure_bind, ← new]
    cases answer with
    | none => rw [Option.getD_none, if_pos rfl]
    | some layout => rfl

theorem runWith_updateLayouts {t : Text} {stage : Stage} {ds : List Declaration}
    (extracted : outcome (extract t stage (find t)) = some ds)
    {request : Declaration → Compile (Option Layout)} {update : Declaration → Layout}
    (made : ∀ d ∈ ds, ∃ answer, request d = pure answer ∧ answer.getD d.layout = update d) (r : Report) :
    ∃ s, (updateLayouts t stage request).runWith r =
      (.ok (Text.splice t (relayouts t update ds)), s) := by
  have steady : Steady (extract t stage (find t)) := steady_extractFrom _ _ _ _ _ _
  obtain ⟨s, read⟩ := exists_runWith_silently steady extracted r
  refine ⟨s, ?_⟩
  rw [updateLayouts, runWith_bind, read]
  dsimp only
  rw [layoutEdits_eq_pure made, pure_bind, runWith_pure]

def slotKey (c : Category) : String :=
  if c.usesLocation then "location" else "binding"

def slotOf? (info : Interface) (d : Declaration) : Option Nat :=
  (info.find? d.category d.descriptor.name).bind fun allocated =>
    if d.category.usesLocation then allocated.location else allocated.binding

def slotted (info : Interface) (d : Declaration) : Layout :=
  d.layout.set (slotKey d.category) ((slotOf? info d).map toString)

def withSlot (c : Category) (slot : Option Nat) (d : Descriptor) : Descriptor :=
  if c.usesLocation then { d with location := slot } else { d with binding := slot }

theorem slotLayout_eq {version : Nat} (recent : 450 ≤ version) {info : Interface} {d : Declaration}
    {allocated : Descriptor} (found : info.find? d.category d.descriptor.name = some allocated) :
    slotLayout version d.category allocated d.layout = slotted info d := by
  rw [slotted, slotOf?, found, Option.bind_some, slotKey]
  show (if version ≥ 450 then _ else _) = _
  rw [if_pos recent]
  split <;> rfl

theorem runWith_slots {t : Text} {stage : Stage} {info : Interface} {version : Nat}
    {ds : List Declaration} (recent : 450 ≤ version)
    (extracted : outcome (extract t stage (find t)) = some ds)
    (allocated : ∀ d ∈ ds, ∃ slot, slotOf? info d = some slot) (r : Report) :
    ∃ s, (slots t stage info version).runWith r =
      (.ok (Text.splice t (relayouts t (slotted info) ds)), s) := by
  rw [slots, if_neg (by omega)]
  refine runWith_updateLayouts extracted (fun d hd => ?_) r
  obtain ⟨slot, found⟩ := allocated d hd
  obtain ⟨descriptor, found, -⟩ := Option.bind_eq_some_iff.1 found
  refine ⟨_, by rw [slotUpdate, found], ?_⟩
  exact slotLayout_eq recent found

theorem writable_slotted {info : Interface} {d : Declaration} {slot : Nat}
    (allocated : slotOf? info d = some slot) (entries : ∀ entry ∈ d.layout, IsEntry entry) :
    Writable (slotted info d) := by
  have letters : (slotKey d.category).toList.all isIdentChar = true := by
    rw [slotKey]
    split <;> rfl
  have member : (slotKey d.category, some (toString slot)) ∈ slotted info d := by
    rw [slotted, allocated, Option.map_some]
    exact mem_set_self
  have all : ∀ entry ∈ slotted info d, IsEntry entry := by
    intro entry he
    rw [slotted, allocated, Option.map_some] at he
    rcases mem_set he with he | rfl
    · exact entries entry he
    · exact isEntry_slot (List.all_eq_true.1 letters) slot
  have visible : Text.trim (entryText (slotKey d.category, some (toString slot))) ≠ [] :=
    Text.trim_ne_nil (c := '=') (by simp [entryText]) rfl
  exact ⟨List.ne_nil_of_mem member, all, parse_listText all member visible⟩

theorem descriptor_slotted {info : Interface} {d d' : Declaration} {slot : Nat}
    (allocated : slotOf? info d = some slot) (small : slot < 0x100000000)
    (settled : Relaid d.layout d d) (relaid : Relaid (slotted info d) d d') :
    d'.descriptor = withSlot d.category (some slot) d.descriptor := by
  have own : (slotted info d).number? (slotKey d.category) = some slot := by
    rw [Layout.number?, slotted, value?_set_self, allocated, Option.map_some, Option.bind_some,
      unsigned?_toString small]
  have others {key : String} (apart : key ≠ slotKey d.category) :
      (slotted info d).number? key = d.layout.number? key := by
    rw [Layout.number?, slotted, value?_set_of_ne apart, Layout.number?]
  have binding : d.layout.number? "binding" = d.descriptor.binding :=
    (congrArg Descriptor.binding settled.descriptor).symm
  have location : d.layout.number? "location" = d.descriptor.location :=
    (congrArg Descriptor.location settled.descriptor).symm
  have attachment : d.layout.number? "input_attachment_index" = d.descriptor.inputAttachment :=
    (congrArg Descriptor.inputAttachment settled.descriptor).symm
  rw [relaid.descriptor, withSlot]
  cases located : d.category.usesLocation with
  | true =>
    rw [slotKey, located, if_pos rfl] at own others
    rw [own, others (by decide), others (by decide), if_pos rfl, binding, attachment]
  | false =>
    rw [slotKey, located, if_neg (by decide)] at own others
    rw [own, others (by decide), others (by decide), if_neg (by decide), location, attachment]

theorem name_withSlot (c : Category) (slot : Option Nat) (d : Descriptor) :
    (withSlot c slot d).name = d.name := by
  rw [withSlot]
  split <;> rfl

theorem forall_of_forall₂ {α β : Type} {Q : β → Prop} {as : List α} {bs : List β}
    (h : List.Forall₂ (fun _ b => Q b) as bs) : ∀ b ∈ bs, Q b := by
  induction h with
  | nil => exact fun _ member => absurd member List.not_mem_nil
  | cons here _ ih => exact List.forall_mem_cons.2 ⟨here, ih⟩

theorem pairwise_relayouts {t : Text} {stage : Stage} {update : Declaration → Layout}
    {ds : List Declaration} (run : Run t stage (find t) Closed [] [] (significant t) ds)
    (writable : ∀ d ∈ ds, update d ≠ d.layout → Writable (update d)) :
    (relayouts t update ds).Pairwise fun a b => a.start ≤ b.start := by
  refine List.pairwise_filterMap.2 (run.apart.1.imp_of_mem ?_)
  intro d e hd he apart a made b made'
  split at made
  · cases made
  split at made'
  · cases made'
  rename_i changed changed'
  obtain rfl := Option.some.inj made
  obtain rfl := Option.some.inj made'
  obtain ⟨-, le, stop_le⟩ := edit_bounds run hd (writable d hd changed).some_entry
  obtain ⟨start_le, -, -⟩ := edit_bounds run he (writable e he changed').some_entry
  omega

/-- Slots are written and read back: the text that comes out declares the same things, each with its
slot, and writing the slots into it changes nothing. -/
def ReadsBack (t : Text) (stage : Stage) (info : Interface) (version : Nat) (ds : List Declaration) :
    Prop :=
  ∃ t' ds', (∀ r, ((slots t stage info version).runWith r).1 = .ok t') ∧
    outcome (extract t' stage (find t')) = some ds' ∧
    List.Forall₂ (fun d d' => d'.category = d.category ∧
      d'.descriptor = withSlot d.category (slotOf? info d) d.descriptor) ds ds' ∧
    ∀ r, ((slots t' stage info version).runWith r).1 = .ok t'

/-- Slots are read back from a text without comments in which the brackets of declarations nest
properly and no layout list holds a block. -/
theorem slots_read_back {t : Text} {stage : Stage} {info : Interface} {version : Nat}
    {ds : List Declaration} (recent : 450 ≤ version)
    (no_comment : ∀ k ∈ Token.scan t, k.kind ≠ .comment)
    (extracted : outcome (extract t stage (find t)) = some ds)
    (balanced : ∀ d ∈ ds, nested [] (marks (within (d.start, d.stop) (significant t))) = true)
    (no_block : ∀ d ∈ ds, ∀ range ∈ d.layoutRange, ∀ v ∈ within range (significant t),
      v.isPunct '\x7b' = false)
    (allocated : ∀ d ∈ ds, ∃ slot ∈ slotOf? info d, slot < 0x100000000) :
    ReadsBack t stage info version ds := by
  have run := (run_of_outcome extracted).closed (List.nil_append _).symm balanced
  have writable : ∀ d ∈ ds, slotted info d ≠ d.layout → Writable (slotted info d) := by
    intro d hd _
    obtain ⟨slot, slot_eq, -⟩ := allocated d hd
    obtain ⟨front, own, before, k, later, place⟩ := run.placement hd
    exact writable_slotted slot_eq (place.isEntry no_comment (place.group (no_block d hd)))
  have run_all : Run t stage (find t) Closed [] [] (significant t) ([] ++ ds) := run
  obtain ⟨front, ds', run', nothing, relaid, -⟩ := exists_run_written run_all no_block writable
  obtain rfl := List.forall₂_nil_left_iff.1 nothing
  have text : Text.splice t (relayouts t (slotted info) ds) = written t (slotted info) ds :=
    Text.splice_eq_spliceFrom (pairwise_relayouts run writable)
  have extracted' : outcome (extract (written t (slotted info) ds) stage
      (find (written t (slotted info) ds))) = some ds' := run'.outcome
  have facts : ∀ d ∈ ds, Relaid d.layout d d ∧ ∃ slot ∈ slotOf? info d, slot < 0x100000000 :=
    fun d hd => ⟨(run.settled hd).1, allocated d hd⟩
  have related := (List.forall₂_and_left _ _).2 ⟨facts, relaid⟩
  have slotted' : ∀ d' ∈ ds', (∃ slot, slotOf? info d' = some slot) ∧ slotted info d' = d'.layout :=
    forall_of_forall₂ (related.imp fun d d' => fun ⟨⟨settled, slot, slot_eq, small⟩, relaid⟩ => by
      have descriptor := descriptor_slotted slot_eq small settled relaid
      have same : slotOf? info d' = slotOf? info d := by
        rw [slotOf?, slotOf?, relaid.category, descriptor, name_withSlot]
      refine ⟨⟨slot, same.trans slot_eq⟩, ?_⟩
      rw [slotted, same, relaid.category, relaid.layout, slotted, set_set])
  refine ⟨written t (slotted info) ds, ds', fun r => ?_, extracted', related.imp ?_, fun r => ?_⟩
  · obtain ⟨s, result⟩ := runWith_slots recent extracted
      (fun d hd => (allocated d hd).imp fun _ found => found.1) r
    rw [result, text]
  · rintro d d' ⟨⟨settled, slot, slot_eq, small⟩, relaid⟩
    exact ⟨relaid.category, slot_eq ▸ descriptor_slotted slot_eq small settled relaid⟩
  · obtain ⟨s, result⟩ := runWith_slots recent extracted' (fun d' hd' => (slotted' d' hd').1) r
    have unchanged : relayouts (written t (slotted info) ds) (slotted info) ds' = [] :=
      List.filterMap_eq_nil_iff.2 fun d' hd' => if_pos (slotted' d' hd').2
    rw [result, unchanged, Text.splice_nil]

theorem slots_read_back_mixed :
    let t := "layout(set = 1, binding=7) uniform sampler2D a;\nin vec2 uv;\nvoid main() \x7b\x7d".toList
    let info : Interface := ⟨fun
      | .samplerTexture => [{ Descriptor.declared "a" "sampler2D" .fragment with binding := some 0 }]
      | .varying => [{ Descriptor.declared "uv" "vec2" .fragment with location := some 3 }]
      | _ => []⟩
    let ds := (outcome (extract t .fragment (find t))).getD []
    ds.map (·.descriptor.name) = ["a", "uv"] ∧ ds.map (slotOf? info) = [some 0, some 3] ∧
      ReadsBack t .fragment info 460 ds := by
  intro t info ds
  refine ⟨by decide +kernel, by decide +kernel, slots_read_back (by decide) ?_ ?_ ?_ ?_ ?_⟩
  · decide +kernel
  · decide +kernel
  · decide +kernel
  · decide +kernel
  · decide +kernel

/-- A text without comments and with balanced layout lists whose declarations have slots. -/
structure Allotted (t : Text) (stage : Stage) (info : Interface) (ds : List Declaration) : Prop where
  no_comment : ∀ k ∈ Token.scan t, k.kind ≠ .comment
  extracted : outcome (extract t stage (find t)) = some ds
  balanced : ∀ d ∈ ds, ∀ range ∈ d.layoutRange, nested [] (Text.slice range.1 range.2 t) = true
  allocated : ∀ d ∈ ds, ∃ slot ∈ slotOf? info d, slot < 0x100000000

theorem members_withSlot (c : Category) (slot : Option Nat) (d : Descriptor) :
    (withSlot c slot d).members = d.members := by
  rw [withSlot]
  split <;> rfl

theorem ReadsBack.members {t : Text} {stage : Stage} {info : Interface} {version : Nat}
    {ds : List Declaration} (h : ReadsBack t stage info version ds) :
    ∃ t', outcome (slots t stage info version) = some t' ∧
      (outcome (extract t' stage (find t'))).map (List.map (·.descriptor.members)) =
        some (ds.map (·.descriptor.members)) := by
  obtain ⟨t', ds', written, extracted, related, -⟩ := h
  refine ⟨t', by rw [outcome, written]; rfl, ?_⟩
  rw [extracted, Option.map_some, Option.some.injEq, ← List.forall₂_eq_eq_eq]
  refine List.forall₂_map_left_iff.2 (List.forall₂_map_right_iff.2 (related.flip.imp ?_))
  rintro d' d ⟨-, descriptor⟩
  rw [descriptor, members_withSlot]

/-- A directive in a block in a layout list swallows the rest of the list when it is written anew, and
an array length whose bracket is not closed in its declaration holds the layouts of others. -/
theorem not_slots_read_back :
    let info : Interface := ⟨fun
      | .samplerTexture => [{ Descriptor.declared "t" "sampler2D" .fragment with binding := some 0 }]
      | .buffer => [{ Descriptor.declared "B" "B" .fragment with binding := some 0 }]
      | _ => []⟩
    (∃ t ds, Allotted t .fragment info ds ∧ ¬ ReadsBack t .fragment info 460 ds) ∧
      ∃ t ds, Allotted t .fragment info ds ∧
        (∀ d ∈ ds, ∀ range ∈ d.layoutRange, '\x7b' ∉ Text.slice range.1 range.2 t) ∧
        ¬ ReadsBack t .fragment info 460 ds := by
  intro info
  constructor
  · let t := "layout(\x7b\n#define X =\n\x7d) uniform sampler2D t;".toList
    refine ⟨t, (outcome (extract t .fragment (find t))).getD [], ⟨?_, ?_, ?_, ?_⟩, fun back => ?_⟩
    · decide +kernel
    · decide +kernel
    · decide +kernel
    · decide +kernel
    · obtain ⟨t', result, same⟩ := back.members
      have written : outcome (slots t .fragment info 460) =
          some "layout(\x7b\n#define X = \x7d, binding = 0) uniform sampler2D t;".toList := by decide +kernel
      obtain rfl := Option.some.inj (written.symm.trans result)
      revert same
      decide +kernel
  · let t := "layout(binding = 0) buffer B \x7b float a[; \x7d;\nuniform sampler2D t;\nfloat x];".toList
    refine ⟨t, (outcome (extract t .fragment (find t))).getD [], ⟨?_, ?_, ?_, ?_⟩, ?_, fun back => ?_⟩
    · decide +kernel
    · decide +kernel
    · decide +kernel
    · decide +kernel
    · decide +kernel
    · obtain ⟨t', result, same⟩ := back.members
      have written : outcome (slots t .fragment info 460) =
          some ("layout(binding = 0) buffer B \x7b float a[; \x7d;\n" ++
            "layout(binding = 0) uniform sampler2D t;\nfloat x];").toList := by decide +kernel
      obtain rfl := Option.some.inj (written.symm.trans result)
      revert same
      decide +kernel

end Decoration
end ShaderPass
