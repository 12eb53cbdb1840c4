import ShaderPass.Proofs.Dialect.Correspondence

/-! The variable that a fragment output becomes. Outputs are counted by declarations, so an output that is
declared once becomes the builtin color, and one that is declared again in another branch becomes an element
of the array of all outputs, at the location of its first declaration. -/
namespace ShaderPass.Legacy

open Token Text Declaration FunctionDef Compile

section Outputs

variable {t : Text} {stage : Stage} {ds others : List Declaration} {first : Declaration}
  {defines : List Define} {r s : Report} {u : Transcoded}

def fragColors (ds : List Declaration) : List Declaration :=
  ds.filter (·.category = .fragColor)

def locatedName? (d : Declaration) : Option (String × Nat) :=
  d.descriptor.location.map (d.descriptor.name, ·)

theorem outputsOf_eq (ds : List Declaration) : outputsOf ds = (fragColors ds).filterMap locatedName? := by
  rw [fragColors, List.filterMap_filter]
  refine List.filterMap_congr fun d _ => ?_
  by_cases output : d.category = .fragColor
  · simp [output, locatedName?]
  · simp [output]

theorem outputsOf_of_shared (declared : fragColors ds = first :: others)
    (shared : ∀ d ∈ first :: others, d.descriptor.name = first.descriptor.name ∧ d.descriptor.location ≠ none) :
    ∃ location later, first.descriptor.location = some location ∧
      outputsOf ds = (first.descriptor.name, location) :: later ∧ later.length = others.length ∧
      ∀ o ∈ outputsOf ds, o.1 = first.descriptor.name := by
  obtain ⟨location, at_location⟩ := Option.ne_none_iff_exists'.1 (shared first List.mem_cons_self).2
  refine ⟨location, others.filterMap locatedName?, at_location, ?_, ?_, ?_⟩
  · rw [outputsOf_eq, declared, List.filterMap_cons_some (b := (first.descriptor.name, location))]
    rw [locatedName?, at_location]
    rfl
  · refine List.filterMap_length_eq_length.2 fun d hd => ?_
    rw [locatedName?, Option.isSome_map]
    exact Option.isSome_iff_ne_none.2 (shared d (List.mem_cons_of_mem _ hd)).2
  · intro o ho
    rw [outputsOf_eq, declared] at ho
    obtain ⟨d, hd, located⟩ := List.mem_filterMap.1 ho
    obtain ⟨l, -, rfl⟩ := Option.map_eq_some_iff.1 located
    exact (shared d hd).1

theorem drawBuffers_requested_iff (extracted : outcome (extract t stage (find t)) = some ds)
    (transcoded : (transcode t stage defines).runWith r = (.ok u, s)) :
    (∃ e ∈ u.extensions, e.name = drawBuffers) ↔ 1 < (outputsOf ds).length := by
  unfold transcode at transcoded
  obtain ⟨ds', r₁, read, transcoded⟩ := exists_of_runWith_bind transcoded
  obtain rfl := eq_of_runWith_silently extracted read
  obtain ⟨outputs, r₂, named, transcoded⟩ := exists_of_runWith_bind transcoded
  obtain ⟨⟨text, lod⟩, r₃, remapped, transcoded⟩ := exists_of_runWith_bind transcoded
  cases transcoded
  rw [outputs_of_runWith_mapM named]
  have other : textureLod ≠ drawBuffers := by decide
  split
  · rename_i several
    simp [several]
  · rename_i no_several
    cases lod <;> simp [no_several, other]

/-- An output that has one name in all its declarations: its uses become the builtin color and no extension
is requested exactly if it is declared once. -/
theorem shared_output_renamed (transcoded : (transcode t stage defines).runWith r = (.ok u, s)) :
    ∃ ds, outcome (extract t stage (find t)) = some ds ∧ ∀ first others,
      fragColors ds = first :: others →
      (∀ d ∈ first :: others,
        d.descriptor.name = first.descriptor.name ∧ d.descriptor.location ≠ none) →
      (others = [] ∨ first.descriptor.name ≠ "gl_FragData") →
        ∃ location, first.descriptor.location = some location ∧
          Reworded (fun w rest r =>
              (w = first.descriptor.name.toList → r = builtin (others.length + 1) location) ∧
              (w ≠ first.descriptor.name.toList →
                r = w ∨ w ∈ textureFunctions.map String.toList ∧ OpensCall rest))
            (splice t (replacements t ds)) u.text ∧
          ((∃ e ∈ u.extensions, e.name = drawBuffers) ↔ others ≠ []) := by
  obtain ⟨ds, extracted⟩ := exists_declarations transcoded
  refine ⟨ds, extracted, fun first others declared shared apart => ?_⟩
  obtain ⟨location, later, at_location, outputs, count, names⟩ := outputsOf_of_shared declared shared
  have length : (outputsOf ds).length = others.length + 1 := by rw [outputs, List.length_cons, count]
  have is_output {w : Text} : IsOutput (outputsOf ds) w ↔ w = first.descriptor.name.toList := by
    constructor
    · rintro ⟨o, ho, rfl⟩
      rw [names o ho]
    · rintro rfl
      exact ⟨_, outputs ▸ List.mem_cons_self, rfl⟩
  have unambiguous : Unambiguous (outputsOf ds) := by
    rcases apart with rfl | no_array
    · exact Or.inl length
    · exact Or.inr fun taken => no_array (String.toList_inj.1 (is_output.1 taken)).symm
  refine ⟨location, at_location, ?_, ?_⟩
  · refine (reworded_transcode (run_of_outcome extracted) extracted transcoded).mono
      fun w rest r _ exchanged => ⟨fun same => ?_, fun other => exchanged.other (mt is_output.1 other)⟩
    obtain ⟨o, named, rfl⟩ := exchanged.output (is_output.2 same) unambiguous
    have first_named : outputNamed? (outputsOf ds) w = some (first.descriptor.name, location) := by
      rw [outputs, same]
      exact List.find?_cons_of_pos (by simp)
    obtain rfl := Option.some.inj (named.symm.trans first_named)
    rw [length]
  · rw [drawBuffers_requested_iff extracted transcoded, length, ← List.length_pos_iff]
    exact Nat.lt_add_left_iff_pos

def branches : Text :=
  ("#if A\nlayout(location = 0) out vec4 c;\n#else\nlayout(location = 0) out mediump vec4 c;\n#endif\n" ++
    "void main() \x7b c = vec4(1.0); \x7d").toList

theorem exists_transcode_branches : ∃ ds first other u s,
    outcome (extract branches .fragment (find branches)) = some ds ∧ fragColors ds = [first, other] ∧
    (∀ d ∈ [first, other], d.descriptor.name = "c" ∧ d.descriptor.location = some 0) ∧
    (transcode branches .fragment []).runWith {} = (.ok u, s) ∧
    u.text = "#if A\n\n#else\n\n#endif\nvoid main() \x7b gl_FragData[0] = vec4(1.0); \x7d".toList := by
  have read : (outcome (extract branches .fragment (find branches))).map (fun ds =>
      (fragColors ds).map fun d => (d.descriptor.name, d.descriptor.location)) =
        some [("c", some 0), ("c", some 0)] := by decide +kernel
  obtain ⟨ds, u, s, extracted, -, -, transcoded, text⟩ := exists_transcode_of_no_call
    branches .fragment [("c", 0), ("c", 0)] [⟨6, 38, []⟩, ⟨45, 85, []⟩]
    "#if A\n\n#else\n\n#endif\nvoid main() \x7b gl_FragData[0] = vec4(1.0); \x7d".toList
    (by decide +kernel) (by
      rw [splice_eq_spliceFrom (by simp)]
      simp only [renameOutputs, List.foldl, replaceWord_eq_spliceFrom]
      decide +kernel) (by decide +kernel) [] {}
  rw [extracted, Option.map_some, Option.some.injEq] at read
  obtain ⟨first, later, declared, here, read⟩ := List.map_eq_cons_iff.1 read
  obtain ⟨other, later, rfl, here', read⟩ := List.map_eq_cons_iff.1 read
  obtain rfl := List.map_eq_nil_iff.1 read
  refine ⟨ds, first, other, u, s, extracted, declared, ?_, transcoded, text⟩
  intro d hd
  rcases List.mem_cons.1 hd with rfl | hd
  · exact Prod.mk.inj here
  · obtain rfl := List.mem_singleton.1 hd
    exact Prod.mk.inj here'

theorem shared_output_renamed_branches : ∃ ds u s,
    (transcode branches .fragment []).runWith {} = (.ok u, s) ∧
    Reworded (fun w rest r => (w = "c".toList → r = builtin 2 0) ∧
        (w ≠ "c".toList → r = w ∨ w ∈ textureFunctions.map String.toList ∧ OpensCall rest))
      (splice branches (replacements branches ds)) u.text ∧
    ∃ e ∈ u.extensions, e.name = drawBuffers := by
  obtain ⟨ds, first, other, u, s, extracted, declared, each, transcoded, -⟩ := exists_transcode_branches
  obtain ⟨ds', extracted', shared⟩ := shared_output_renamed transcoded
  obtain rfl := Option.some.inj (extracted.symm.trans extracted')
  have named : first.descriptor.name = "c" := (each first List.mem_cons_self).1
  obtain ⟨location, at_location, reworded, requested⟩ := shared first [other] declared (fun d hd =>
    ⟨(each d hd).1.trans named.symm, by rw [(each d hd).2]; exact Option.some_ne_none 0⟩)
    (Or.inr (by rw [named]; decide))
  obtain rfl := Option.some.inj (at_location.symm.trans (each first List.mem_cons_self).2)
  rw [named] at reworded
  exact ⟨ds, u, s, transcoded, reworded, requested.2 (List.cons_ne_nil _ _)⟩

/-- An output that is declared in two branches does not become the builtin color, and the extension for
several outputs is requested. -/
theorem not_shared_output_color : ∃ ds u s,
    outcome (extract branches .fragment (find branches)) = some ds ∧
    (∀ d ∈ ds, d.category = .fragColor → d.descriptor.name = "c" ∧ d.descriptor.location = some 0) ∧
    (transcode branches .fragment []).runWith {} = (.ok u, s) ∧
    containsWord u.text "gl_FragColor".toList = false ∧ ∃ e ∈ u.extensions, e.name = drawBuffers := by
  obtain ⟨ds, first, other, u, s, extracted, declared, each, transcoded, text⟩ := exists_transcode_branches
  refine ⟨ds, u, s, extracted, fun d hd output => ?_, transcoded, ?_, ?_⟩
  · exact each d (declared ▸ List.mem_filter.2 ⟨hd, decide_eq_true output⟩)
  · rw [text]
    decide +kernel
  · have located : ∀ d ∈ fragColors ds, (locatedName? d).isSome = true := by
      rw [declared]
      intro d hd
      rw [locatedName?, (each d hd).2]
      rfl
    rw [drawBuffers_requested_iff extracted transcoded, outputsOf_eq,
      List.filterMap_length_eq_length.2 located, declared]
    exact Nat.lt_add_one 1

end Outputs

end ShaderPass.Legacy
