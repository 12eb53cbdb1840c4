import ShaderPass.Proofs.Diagnostic.Signature
import ShaderPass.Proofs.Pass.Errors

/-! Which failures of a pass are signed. Every dialect reads its own rendition again, quietly, in the
belief that reflection has seen it; where that reading succeeds, every failure names the effect and one
of the shaders. -/
namespace ShaderPass

open Compile

def Declaration.Readable (t : Text) (stage : Stage) : Prop :=
  (outcome (extract t stage (FunctionDef.find t))).isSome = true

instance (t : Text) (stage : Stage) : Decidable (Declaration.Readable t stage) :=
  inferInstanceAs (Decidable (_ = true))

namespace Rendition

open Declaration

variable {names : List String} {base : Text} {stage : Stage} {dialect : Dialect} {info : Interface}

def plain? (base : Text) (dialect : Dialect) : Option Text :=
  (outcome (Subpass.expand base dialect.version)).map fun t =>
    Conditional.downlevel t dialect.version

/-- The texts that a dialect reads again can be read: its rendition, which the highest dialect shares
with reflection, and the rendition with memory layouts, if it has any. -/
structure Rereads (base : Text) (stage : Stage) (dialect : Dialect) (info : Interface) : Prop where
  rendition : dialect ≠ .desktop → ∀ t ∈ plain? base dialect, Readable t stage
  decorated : dialect ≠ .es1 → ∀ t ∈ plain? base dialect,
    ∀ t' ∈ outcome (Decoration.memoryLayouts t stage info dialect.version), Readable t' stage

instance : Decidable (Rereads base stage dialect info) :=
  decidable_of_iff
    ((dialect ≠ .desktop → ∀ t ∈ plain? base dialect, Readable t stage) ∧
      (dialect ≠ .es1 → ∀ t ∈ plain? base dialect,
        ∀ t' ∈ outcome (Decoration.memoryLayouts t stage info dialect.version), Readable t' stage))
    ⟨fun h => ⟨h.1, h.2⟩, fun h => ⟨h.rendition, h.decorated⟩⟩

theorem signs_silently_extract {t : Text} (readable : Readable t stage) :
    Signs names (silently (extract t stage (FunctionDef.find t))) :=
  signs_silently (steady_extractFrom _ _ _ _ _ _) readable

theorem signs_updateLayouts {t : Text} (readable : Readable t stage)
    {update : Declaration → Compile (Option Layout)}
    (plain : ∀ d, Composed true false Code.alwaysFatal (update d)) :
    Signs names (Decoration.updateLayouts t stage update) := by
  unfold Decoration.updateLayouts
  refine (signs_silently_extract readable).bind fun declarations _ => ?_
  apply Composed.signs
  exact (Pass.composed_layoutEdits t plain declarations).bind fun _ => .pure _

theorem signs_memoryLayouts {t : Text} (readable : Readable t stage) (version : Nat) :
    Signs names (Decoration.memoryLayouts t stage info version) :=
  signs_updateLayouts readable (Pass.composed_memoryUpdate info version)

theorem signs_slots {t : Text} (readable : Readable t stage) (version : Nat) :
    Signs names (Decoration.slots t stage info version) := by
  unfold Decoration.slots
  split
  · exact signs_pure t
  · exact signs_updateLayouts readable (Pass.composed_slotUpdate info version)

theorem signs_transcode {t : Text} (readable : Readable t stage) (defines : List Define) :
    Signs names (Legacy.transcode t stage defines) := by
  unfold Legacy.transcode
  refine (signs_silently_extract readable).bind fun declarations _ => ?_
  apply Composed.signs
  exact (Composed.mapM Pass.composed_outputOf? _).bind fun _ =>
    (Pass.composed_remapTextures _ _ _).bind fun _ => .pure _

theorem mem_plain?_of_mayReturn {expanded : Text}
    (returned : MayReturn (silently (Subpass.expand base dialect.version)) expanded) :
    Conditional.downlevel expanded dialect.version ∈ plain? base dialect := by
  obtain ⟨r, s, run⟩ := returned
  have value : outcome (Subpass.expand base dialect.version) = some expanded := by
    rw [← outcome_silently]
    exact (Composed.silently rfl (Subpass.composed_expand _ _)).outcome_of_ok run
  rw [plain?, value]
  rfl

theorem signs_finish {t : Text} (plain : t ∈ plain? base dialect) (readable : Readable t stage)
    (rereads : Rereads base stage dialect info) (defines : List Define)
    (requested : List Extension) : Signs names (if dialect = .es1 then do
        let transcoded ← Legacy.transcode t stage defines
        return tidy (Extension.prepend (Tag.strip transcoded.text)
          (requested ++ transcoded.extensions))
      else do
        let decorated ← Decoration.memoryLayouts t stage info dialect.version
        let decorated ← Decoration.slots decorated stage info dialect.version
        return tidy (Extension.prepend (Tag.strip decorated) requested)) := by
  split
  · exact (signs_transcode readable defines).bind fun _ _ => signs_pure _
  next decorates =>
    refine (signs_memoryLayouts readable _).bind fun decorated returned => ?_
    obtain ⟨r, s, run⟩ := returned
    have value := (Pass.composed_memoryLayouts _ _ _ _).outcome_of_ok run
    exact (signs_slots (rereads.decorated decorates t plain decorated value) _).bind fun _ _ =>
      signs_pure _

theorem signs_render (readable : ∀ t ∈ plain? base dialect, Readable t stage)
    (rereads : Rereads base stage dialect info) (defines : List Define) :
    Signs names (render base stage dialect info defines) := by
  unfold render
  -- subpass statements and extension pragmas have no fatal errors
  refine (signs_silently (Subpass.composed_expand _ _).steady
    (Subpass.composed_expand _ _).isSome_outcome).bind fun expanded returned => ?_
  have plain := mem_plain?_of_mayReturn returned
  have finish (requested : List Extension) :=
    @signs_finish names _ _ _ _ _ plain (readable _ plain) rereads defines requested
  dsimp only
  split
  · exact (Pass.composed_collectExtensions _ _).signs.bind fun requested _ => finish requested
  · exact (signs_silently (Pass.composed_collectExtensions _ _).steady
      (Pass.composed_collectExtensions _ _).isSome_outcome).bind fun requested _ => finish requested

theorem readable_of_reflect {r s : Report} {info' : Interface}
    (run : (Reflection.reflect base stage info).runWith r = (.ok info', s)) :
    ∀ t ∈ plain? base .desktop, Readable t stage := by
  obtain ⟨expanded, s₁, expands, run⟩ := exists_of_runWith_bind run
  obtain ⟨declarations, s₂, extracts, -⟩ := exists_of_runWith_bind run
  have value : outcome (Subpass.expand base Dialect.desktop.version) = some expanded :=
    (Subpass.composed_expand _ _).outcome_of_ok expands
  intro t plain
  rw [plain?, value] at plain
  obtain rfl := Option.some.inj plain
  exact Option.isSome_iff_exists.2
    ⟨declarations, (composed_extractFrom _ _ _ _ _ _).outcome_of_ok extracts⟩

end Rendition

namespace PassSource

open Rendition Declaration

variable {library : ChunkLibrary} {supply : ChunkSupply} {options : Options} {pass : PassSource}

def names (pass : PassSource) : List String :=
  pass.name :: (pass.vertex.toList ++ pass.fragment.toList ++ pass.compute.toList).map
    ShaderSource.name

def start (options : Options) (pass : PassSource) : Report :=
  { effect := options.effect, throwOnError := options.throwOnError, shader := pass.name }

def gathered? (library : ChunkLibrary) (supply : ChunkSupply) (options : Options)
    (pass : PassSource) : Option Gathered :=
  ((do (← pass.stages).foldlM (gather library supply) {}).runWith (start options pass)).1.toOption

/-- Whatever a pass reads again, once its slots are allocated, can be read. -/
def RereadsAll (library : ChunkLibrary) (supply : ChunkSupply) (options : Options)
    (pass : PassSource) : Prop :=
  ∀ g ∈ gathered? library supply options pass, (Slot.allocate g.info).2 = none →
    ∀ b ∈ g.bases, ∀ dialect ∈ Dialect.all, dialect.supports b.stage = true →
      Rereads b.base b.stage dialect (Reflection.assignRates (Slot.allocate g.info).1)

instance : Decidable (RereadsAll library supply options pass) :=
  inferInstanceAs (Decidable (∀ g ∈ gathered? library supply options pass,
    (Slot.allocate g.info).2 = none → ∀ b ∈ g.bases, ∀ dialect ∈ Dialect.all,
      dialect.supports b.stage = true →
        Rereads b.base b.stage dialect (Reflection.assignRates (Slot.allocate g.info).1)))

theorem name_mem_names : pass.name ∈ pass.names :=
  List.mem_cons_self

theorem shader_mem_names {r s : Report} {stages : List (Stage × ShaderSource)}
    (run : pass.stages.runWith r = (.ok stages, s)) :
    ∀ stage ∈ stages, stage.2.name ∈ pass.names := by
  obtain ⟨name, vertex, fragment, compute⟩ := pass
  cases vertex <;> cases fragment <;> cases compute <;> cases run <;> simp [names]

structure Reflected (stages : List (Stage × ShaderSource)) (b : StageBase) : Prop where
  listed : (b.stage, b.shader) ∈ stages
  readable : ∀ t ∈ plain? b.base .desktop, Readable t b.stage

theorem reflected_gather {r s : Report} {g g' : Gathered} {stage : Stage × ShaderSource}
    {stages : List (Stage × ShaderSource)} (listed : stage ∈ stages)
    (run : (gather library supply g stage).runWith r = (.ok g', s))
    (before : ∀ b ∈ g.bases, Reflected stages b) : ∀ b ∈ g'.bases, Reflected stages b := by
  obtain ⟨-, s₁, -, run⟩ := exists_of_runWith_bind run
  obtain ⟨base, s₂, -, run⟩ := exists_of_runWith_bind run
  obtain ⟨info, s₃, reflects, run⟩ := exists_of_runWith_bind run
  cases run
  intro b member
  rcases List.mem_append.1 member with earlier | added
  · exact before b earlier
  · obtain rfl := List.mem_singleton.1 added
    exact ⟨listed, readable_of_reflect reflects⟩

theorem reflected_foldlM {r s : Report} {g g' : Gathered} {all stages : List (Stage × ShaderSource)}
    (listed : ∀ stage ∈ stages, stage ∈ all)
    (run : (stages.foldlM (gather library supply) g).runWith r = (.ok g', s))
    (before : ∀ b ∈ g.bases, Reflected all b) : ∀ b ∈ g'.bases, Reflected all b := by
  induction stages generalizing g r with
  | nil =>
    cases run
    exact before
  | cons stage stages ih =>
    rw [List.foldlM_cons] at run
    obtain ⟨g₁, s₁, first, run⟩ := exists_of_runWith_bind run
    have step := reflected_gather (listed stage List.mem_cons_self) first before
    exact ih (fun stage' later => listed stage' (List.mem_cons_of_mem stage later)) run step

theorem eq_none_of_mayReturn_check {fault : Option Slot.Fault}
    (returned : MayReturn (Slot.check fault) ()) : fault = none := by
  obtain ⟨r, s, run⟩ := returned
  cases fault with
  | none => rfl
  | some fault => cases run

theorem signs_gather {names : List String} {stage : Stage × ShaderSource}
    (named : stage.2.name ∈ names) (g : Gathered) : Signs names (gather library supply g stage) := by
  unfold gather
  refine (signs_setShader named).bind fun _ _ => ?_
  apply Composed.signs
  exact (Pass.composed_base _ _ _ _).bind fun _ =>
    (Pass.composed_reflect _ _ _).bind fun _ => .pure _

theorem signs_renderStage {names : List String} {info : Interface} {b : StageBase}
    (named : b.shader.name ∈ names) (readable : ∀ t ∈ plain? b.base .desktop, Readable t b.stage)
    (rereads : ∀ dialect ∈ Dialect.all, dialect.supports b.stage = true →
      Rereads b.base b.stage dialect info)
    (defines : List Define) : Signs names (renderStage info defines b) := by
  unfold renderStage
  refine (signs_setShader named).bind fun _ _ => Signs.mapM fun dialect listed => ?_
  obtain ⟨listed, supported⟩ := List.mem_filter.1 listed
  have again := rereads dialect listed supported
  refine (signs_render ?_ again defines).bind fun _ _ => signs_pure _
  by_cases desktop : dialect = .desktop
  · rw [desktop]
    exact readable
  · exact again.rendition desktop

theorem signs_checkStage {names : List String} (texts : List StageText) {b : StageBase}
    (named : b.shader.name ∈ names) : Signs names (checkStage options texts b) := by
  unfold checkStage
  refine (signs_setShader named).bind fun _ _ => ?_
  apply Composed.signs
  split
  · split
    · exact (Composed.emit _).bind fun _ => Pass.composed_static _ _
    · exact Pass.composed_static _ _
  · exact .pure PUnit.unit

theorem signs_checkProgram (backend : Backend) (texts : List StageText) :
    Signs pass.names (checkProgram backend pass texts) := by
  unfold checkProgram
  split
  · exact (signs_setShader name_mem_names).bind fun _ _ => (Pass.composed_backend _ _ _).signs
  · exact signs_pure PUnit.unit

/-- A pass whose renditions can be read again fails with a message that names the effect and the pass
or one of its shaders. -/
theorem compile_failure_signed (library : ChunkLibrary) (supply : ChunkSupply) (backend : Backend)
    (options : Options) (pass : PassSource)
    (rereads : RereadsAll library supply options pass) {failure : Failure}
    (failed : (compile library supply backend options pass).1 = .error failure) :
    failure.SignedBy options.effect pass.names := by
  suffices signed : Signed pass.names (start options pass)
      ((compileReporting library supply backend options pass).runWith (start options pass)) from
    signed.failure failure failed
  unfold compileReporting
  refine signed_bind (pass.composed_stages.signs _ name_mem_names) fun stages s₁ lists named₁ => ?_
  have shaders := shader_mem_names lists
  refine signed_bind (Signs.foldlM (fun g stage listed => signs_gather (shaders stage listed) g) {}
    s₁ named₁) fun g s₂ gathers named₂ => ?_
  have gathered : g ∈ gathered? library supply options pass := by
    rw [gathered?, runWith_bind, lists]
    exact congrArg (fun result => result.1.toOption) gathers
  have reflected := reflected_foldlM (fun _ listed => listed) gathers nofun
  have named (b : StageBase) (h : b ∈ g.bases) : b.shader.name ∈ pass.names :=
    shaders _ (reflected b h).listed
  -- what follows signs under every report
  suffices rest : Signs pass.names _ from rest s₂ named₂
  refine (signs_setShader name_mem_names).bind fun _ _ =>
    (Pass.composed_check _).signs.bind fun _ checked =>
    (Signs.mapM fun b h => signs_renderStage (named b h) (reflected b h).readable
      (rereads g gathered (eq_none_of_mayReturn_check checked) b h) _).bind fun texts _ =>
    (Signs.forM fun b h => signs_checkStage _ (named b h)).bind fun _ _ => ?_
  dsimp only
  split
  · exact (signs_checkProgram backend _).bind fun _ _ =>
      Composed.signs ((Composed.read rfl).bind fun _ => .pure _)
  · exact Composed.signs ((Composed.read rfl).bind fun _ => .pure _)

theorem compile_failure_signed_gated :
    let pass : PassSource := { name := "p", fragment := some { name := "frag", source :=
      ("#if __VERSION__ < 450\nuniform B \x7b vec4 a; \x7d;\n#endif\n" ++
        "void main() \x7b float texture; \x7d").toList } }
    ∃ failure, (compile {} .none .accepting { effect := "test" } pass).1 = .error failure ∧
      failure.code = .reservedKeyword ∧ failure.SignedBy "test" ["p", "frag"] := by
  intro pass
  have run : (failure? (compile {} .none .accepting { effect := "test" } pass).1).map
      Failure.code = some .reservedKeyword := by decide +kernel
  have rereads : RereadsAll {} .none { effect := "test" } pass := by decide +kernel
  obtain ⟨failure, failed, code⟩ := Option.map_eq_some_iff.1 run
  have result := eq_error_of_failure? failed
  exact ⟨failure, result, code, compile_failure_signed _ _ _ _ _ rereads result⟩

/-- A block for the lower dialects only, which reflection does not see: that it needs padding is found
when it is read again, and the failure names neither the effect nor the shader. -/
theorem not_compile_failure_signed :
    let pass : PassSource := { name := "p", fragment := some { name := "frag", source :=
      "#if __VERSION__ < 450\nuniform B \x7b vec3 a; \x7d;\n#endif\nvoid main() \x7b\x7d".toList } }
    ∃ failure, (compile {} .none .accepting { effect := "test" } pass).1 = .error failure ∧
      failure.message =
        ".effect -  - 1: error EFX2204: vec3 member a in block B must be followed by a 4 byte scalar" ∧
      ¬ failure.SignedBy "test" pass.names := by
  intro pass
  have run : (failure? (compile {} .none .accepting { effect := "test" } pass).1).map
      Failure.message = some
        ".effect -  - 1: error EFX2204: vec3 member a in block B must be followed by a 4 byte scalar" := by
    decide +kernel
  obtain ⟨failure, failed, message⟩ := Option.map_eq_some_iff.1 run
  refine ⟨failure, eq_error_of_failure? failed, message, ?_⟩
  rintro ⟨name, -, rest, signed⟩
  have first := congrArg (fun m => m.toList.head?) (message.symm.trans signed)
  simp at first

end PassSource
end ShaderPass
