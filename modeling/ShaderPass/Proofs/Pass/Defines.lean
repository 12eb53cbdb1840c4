import ShaderPass.Proofs.Define.Merging
import ShaderPass.Proofs.Diagnostic.Signature
import ShaderPass.Proofs.Pass.Errors

/-! The defines of a compiled pass: those of the texts that its stages are reduced to, merged in the order
of the stages, less the constants. -/
namespace ShaderPass.PassSource

open Compile Define

variable {library : ChunkLibrary} {supply : ChunkSupply}

def IsBaseText (library : ChunkLibrary) (supply : ChunkSupply) (stage : Stage × ShaderSource)
    (t : Text) : Prop :=
  ∃ record, MayReturn (stage.2.base library supply stage.1) ⟨t, record⟩

theorem exists_defines_of_gather {stages : List (Stage × ShaderSource)} {g g' : Gathered}
    {r s : Report} (run : (stages.foldlM (gather library supply) g).runWith r = (.ok g', s)) :
    ∃ texts, List.Forall₂ (IsBaseText library supply) stages texts ∧
      g'.defines = texts.foldl (fun defines t => merge defines (scan t)) g.defines := by
  induction stages generalizing g r with
  | nil =>
    cases run
    exact ⟨[], .nil, rfl⟩
  | cons stage stages ih =>
    rw [List.foldlM_cons] at run
    obtain ⟨g₁, s₁, first, run⟩ := exists_of_runWith_bind run
    obtain ⟨texts, bases, defines⟩ := ih run
    obtain ⟨-, s₂, -, first⟩ := exists_of_runWith_bind first
    obtain ⟨base, s₃, reduced, first⟩ := exists_of_runWith_bind first
    obtain ⟨info, s₄, -, first⟩ := exists_of_runWith_bind first
    cases first
    exact ⟨base.text :: texts, .cons ⟨base.record, s₂, s₃, reduced⟩ bases, defines⟩

/-- The defines of a compiled pass are those of its stages, merged in turn, less the constants. -/
theorem exists_defines_of_compile {backend : Backend} {options : Options} {pass : PassSource}
    {compiled : CompiledPass} {report : Report}
    (run : compile library supply backend options pass = (.ok compiled, report)) :
    ∃ stages texts, outcome pass.stages = some stages ∧
      List.Forall₂ (IsBaseText library supply) stages texts ∧
      compiled.defines = (mergeAll texts).filter fun d => d.type ≠ .constant := by
  obtain ⟨stages, s₁, listed, run⟩ := exists_of_runWith_bind run
  obtain ⟨g, s₂, gathers, run⟩ := exists_of_runWith_bind run
  obtain ⟨texts, bases, defines⟩ := exists_defines_of_gather gathers
  refine ⟨stages, texts, (composed_stages pass).outcome_of_ok listed, bases, ?_⟩
  rw [mergeAll, ← defines]
  refine (?_ : Returns
    (fun compiled _ => compiled.defines = g.defines.filter fun d => d.type ≠ .constant) _) s₂ compiled report run
  refine returns_bind fun _ => returns_bind fun _ => returns_bind fun _ => returns_bind fun _ => ?_
  dsimp only
  have last (make : List Diagnostic → CompiledPass)
      (made : ∀ ms, (make ms).defines = g.defines.filter fun d => d.type ≠ .constant) :
      Returns (fun compiled _ => compiled.defines = g.defines.filter fun d => d.type ≠ .constant)
        (do return make (← getThe Report).messages) := by
    rintro r _ _ ⟨⟩
    exact made r.messages
  split
  · exact returns_bind fun _ => last _ fun _ => rfl
  · exact last _ fun _ => rfl

/-- Two texts give a define the same type in either order exactly if they do not settle different types.
A compiled pass leaves out a define exactly if the first of its texts that settles a type declares a
constant. -/
theorem merged_types (name : String) :
    (∀ a b : Text, typeOf? (merge (merge [] (scan a)) (scan b)) name =
        typeOf? (merge (merge [] (scan b)) (scan a)) name ↔
      ∀ first ∈ settledType? a name, ∀ second ∈ settledType? b name, first = second) ∧
    ∀ library supply backend options pass compiled report,
      compile library supply backend options pass = (.ok compiled, report) →
        ∃ stages texts, outcome pass.stages = some stages ∧
          List.Forall₂ (IsBaseText library supply) stages texts ∧
          (name ∈ names compiled.defines ↔
            (∃ t ∈ texts, Mentioned t name) ∧ texts.findSome? (settledType? · name) ≠ some .constant) := by
  refine ⟨fun a b => typeOf?_merge_comm_iff a b name, ?_⟩
  intro library supply backend options pass compiled report run
  obtain ⟨stages, texts, listed, bases, defines⟩ := exists_defines_of_compile run
  exact ⟨stages, texts, listed, bases, by rw [defines, mem_names_filter_iff]⟩

theorem merged_types_of_constant :
    let pass : PassSource :=
      { name := "p"
        vertex := some
          { name := "v", source := "#pragma define-meta Q constant\nvoid main() \x7b\x7d".toList }
        fragment := some { name := "f", source := "#if Q\n#endif\nvoid main() \x7b\x7d".toList } }
    ∃ compiled report, compile {} .none .accepting {} pass = (.ok compiled, report) ∧
      names compiled.defines = [] ∧
      ∃ stages texts, outcome pass.stages = some stages ∧ List.Forall₂ (IsBaseText {} .none) stages texts ∧
        ¬ ((∃ t ∈ texts, Mentioned t "Q") ∧ texts.findSome? (settledType? · "Q") ≠ some .constant) := by
  intro pass
  have run : (compile {} .none .accepting {} pass).1.toOption.map (fun compiled => names compiled.defines) =
      some [] := by decide +kernel
  obtain ⟨compiled, report, result, left_out⟩ := exists_of_toOption_map run
  obtain ⟨stages, texts, listed, bases, iff⟩ := (merged_types "Q").2 _ _ _ _ _ _ _ result
  refine ⟨compiled, report, result, left_out, stages, texts, listed, bases, fun named => ?_⟩
  have := iff.2 named
  rw [left_out] at this
  cases this

/-- A number that one text infers and a constant that the other declares. -/
theorem not_merged_types : ¬ ∀ (a b : Text) (name : String),
    typeOf? (merge (merge [] (scan a)) (scan b)) name =
      typeOf? (merge (merge [] (scan b)) (scan a)) name := by
  intro h
  have same := h "#if Q > 1\n#endif".toList "#pragma define-meta Q constant".toList "Q"
  have first : typeOf? (merge (merge [] (scan "#if Q > 1\n#endif".toList))
      (scan "#pragma define-meta Q constant".toList)) "Q" = some .number := by decide +kernel
  have second : typeOf? (merge (merge [] (scan "#pragma define-meta Q constant".toList))
      (scan "#if Q > 1\n#endif".toList)) "Q" = some .constant := by decide +kernel
  rw [first, second] at same
  cases same

end ShaderPass.PassSource
