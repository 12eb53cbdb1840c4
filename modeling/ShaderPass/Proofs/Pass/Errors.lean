import ShaderPass.Pass.Compiled
import ShaderPass.Proofs.Declaration.Outcome

/-! Errors in the compilation of a pass: every step reports through the reporting operations, so the
setting for errors holds for the whole of it. -/
namespace ShaderPass

open Compile

namespace Include

def Composed (redirects : Bool) (x : Resolve α) : Prop :=
  ∀ progress, Compile.Composed true redirects Code.alwaysFatal (x.run progress)

variable {redirects : Bool}

namespace Composed

variable {α β : Type}

theorem bind {x : Resolve α} {f : α → Resolve β} (first : Composed redirects x)
    (next : ∀ a, Composed redirects (f a)) : Composed redirects (x >>= f) := by
  intro progress
  rw [StateT.run_bind]
  exact (first progress).bind fun step => next step.1 step.2

theorem pure (a : α) : Composed redirects (pure a : Resolve α) :=
  fun progress => .pure (a, progress)

theorem lift {x : Compile α} (h : Compile.Composed true redirects Code.alwaysFatal x) :
    Composed redirects (monadLift x : Resolve α) := by
  intro progress
  rw [StateT.run_monadLift]
  exact h.bind fun a => .pure (a, progress)

theorem mapM {f : α → Resolve β} (h : ∀ a, Composed redirects (f a)) (as : List α) :
    Composed redirects (as.mapM f) := by
  induction as with
  | nil => exact .pure []
  | cons a as ih =>
    rw [List.mapM_cons]
    exact (h a).bind fun b => ih.bind fun bs => .pure (b :: bs)

theorem forM {f : α → Resolve PUnit} (h : ∀ a, Composed redirects (f a)) (as : List α) :
    Composed redirects (as.forM f) := by
  induction as with
  | nil => exact .pure PUnit.unit
  | cons a as ih => exact (h a).bind fun _ => ih

theorem get : Composed redirects (get : Resolve Progress) :=
  fun progress => .pure (progress, progress)

theorem modify (f : Progress → Progress) : Composed redirects (modify f : Resolve PUnit) :=
  fun progress => .pure (PUnit.unit, f progress)

end Composed

variable (library : ChunkLibrary) (supply : ChunkSupply)

theorem composed_find (name : Text) : Composed redirects (find library supply name) := by
  refine Composed.get.bind fun progress => ?_
  cases library.find? (candidates name) <|> (candidates name).findSome? fun n =>
      progress.supplied.find? fun chunk => chunk.name = n with
  | some chunk => exact .pure chunk
  | none =>
    refine (Composed.lift (.read rfl)).bind fun report => (Composed.lift (.emit _)).bind fun _ => ?_
    cases supply.find? report.chunkQueries (candidates name) with
    | some chunk =>
      exact (Composed.lift (.emit _)).bind fun _ => (Composed.modify _).bind fun _ => .pure chunk
    | none => exact .lift (.fatal _ _ (by decide))

theorem composed_checkIdentifiers (t : Text) (owner : Option String) :
    Composed redirects (checkIdentifiers library t owner) := by
  refine Composed.get.bind fun progress => Composed.forM (fun chunk => Composed.forM ?_ _) _
  rintro ⟨ident, message⟩
  dsimp only
  split
  · exact .lift (.error _ _ _)
  · exact .pure PUnit.unit

theorem composed_expand (fuel : Nat) (owner : Option String) (t : Text) :
    Composed redirects (expand library supply fuel owner t) := by
  induction fuel generalizing owner t with
  | zero => exact .pure []
  | succ fuel ih =>
    refine (composed_checkIdentifiers library t owner).bind fun _ =>
      (Composed.mapM (fun line => ?_) _).bind fun _ => .pure _
    cases Line.parse? line with
    | none => exact .pure [line]
    | some inclusion =>
      refine (composed_find library supply inclusion.name).bind fun chunk =>
        Composed.get.bind fun progress => ?_
      split
      · exact .pure [[]]
      · refine (Composed.modify _).bind fun _ => ?_
        cases chunk.deprecation with
        | none => exact (ih _ _).bind fun _ => .pure _
        | some message =>
          exact (Composed.lift (.error _ _ _)).bind fun _ => (ih _ _).bind fun _ => .pure _

theorem composed_resolve (t : Text) :
    Compile.Composed true redirects Code.alwaysFatal (resolve library supply t) :=
  (composed_expand library supply _ none t {}).bind fun _ => .pure _

end Include

variable {reads redirects : Bool} {codes : List Code}

namespace Macro

theorem composed_expandCalls (m : Functional) (t : Text) :
    Composed reads redirects codes (expandCalls m t) := by
  refine (Composed.forM (fun call => ?_) _).bind fun _ => .pure _
  split
  · exact .pure PUnit.unit
  · exact .warn _ _ _

theorem composed_expandNamed (t name : Text) :
    Composed reads redirects codes (expandNamed t name) := by
  unfold expandNamed
  split
  · exact .pure t
  · split
    · exact (Composed.warn _ _ _).bind fun _ => .pure t
    · exact composed_expandCalls _ t

theorem composed_expandAll (t : Text) : Composed reads redirects codes (expandAll t) :=
  (Composed.foldlM composed_expandNamed _ _).bind fun _ => .pure _

end Macro

namespace Subpass

theorem composed_parse? (line : Text) (index lineNumber : Nat) :
    Composed reads redirects codes (Statement.parse? line index lineNumber) := by
  unfold Statement.parse?
  split
  · split
    · split
      · split
        · exact .pure _
        · exact (Composed.error _ _ _).bind fun _ => .pure none
      · exact (Composed.error _ _ _).bind fun _ => .pure none
    · exact .pure none
  · exact .pure none

theorem composed_expand (t : Text) (version : Nat) :
    Composed reads redirects codes (expand t version) := by
  unfold expand collect
  refine (Composed.foldlM (fun found line =>
    (composed_parse? _ _ _).bind fun statement => .pure _) _ _).bind fun statements => ?_
  dsimp only
  split
  · exact .pure t
  · split
    · exact (Composed.emit _).bind fun _ => .pure _
    · exact .pure _

end Subpass

namespace Interface

def merge (info : Interface) : List (Category × Descriptor) → Compile Interface
  | [] => return info
  | (c, d) :: rest => do
    if info.conflicts c d then
      Compile.error .inconsistentDeclaration s!"{c.name} {d.name} is declared with different members"
    (info.insert c d).merge rest

theorem composed_merge (info : Interface) (ds : List (Category × Descriptor)) :
    Composed reads redirects codes (info.merge ds) := by
  induction ds generalizing info with
  | nil => exact .pure info
  | cons entry rest ih =>
    unfold merge
    dsimp only
    split
    · exact (Composed.error _ _ _).bind fun _ => ih _
    · exact ih _

theorem addAll_bind (info : Interface) (ds : List (Category × Descriptor))
    (next : Interface → Compile β) :
    (do
      let (outcome, info) ← (monadLift (info.addAll ds) : Compile (Except Failure Unit × Interface))
      match outcome with
      | .ok _ => next info
      | .error failure => throw failure) = info.merge ds >>= next := by
  induction ds generalizing info with
  | nil => rfl
  | cons entry rest ih =>
    obtain ⟨c, d⟩ := entry
    have rest' := ih (info.insert c d)
    simp only [addAll, merge, liftM_bind, bind_assoc]
    by_cases conflict : info.conflicts c d = true
    · simp only [conflict, if_true, bind_assoc]
      exact lift_run_bind (fun _ => rest') fun _ => rfl
    · simp only [conflict]
      exact rest'

theorem composed_addAll (info : Interface) (ds : List (Category × Descriptor))
    {next : Interface → Compile β} (h : ∀ info, Composed reads redirects codes (next info)) :
    Composed reads redirects codes (do
      let (outcome, info) ← (monadLift (info.addAll ds) : Compile (Except Failure Unit × Interface))
      match outcome with
      | .ok _ => next info
      | .error failure => throw failure) := by
  rw [addAll_bind]
  exact (composed_merge info ds).bind h

end Interface

namespace Pass

theorem slot_code_mem_alwaysFatal (fault : Slot.Fault) : fault.code ∈ Code.alwaysFatal := by
  have bound (c : Category) : Slot.bindingCode c ∈ Code.alwaysFatal := by
    cases c <;> decide
  cases fault with
  | skipsAhead c _ _ _ => exact bound c
  | alreadyBound c _ _ => exact bound c
  | noAttachment _ => exact bound .subpassInput
  | sharedAttachment _ _ => exact bound .subpassInput

theorem composed_check (fault : Option Slot.Fault) :
    Composed reads redirects Code.alwaysFatal (Slot.check fault) := by
  cases fault with
  | none => exact .pure PUnit.unit
  | some fault => exact .fatal _ _ (slot_code_mem_alwaysFatal fault)

theorem composed_applyTags (t : Text) (info : Interface) :
    Composed reads redirects codes (Tag.apply t info) := by
  refine Composed.foldlM (fun info line => ?_) _ _
  unfold Tag.applyLine
  split
  · split
    · split
      · exact .pure _
      · exact (Composed.warn _ _ _).bind fun _ => .pure info
    · exact .pure info
  · exact .pure _
  · exact .pure info

theorem composed_collectExtensions (t : Text) (version : Nat) :
    Composed reads redirects codes (Extension.collect t version) := by
  refine (Composed.mapM (fun line => ?_) _).bind fun _ => .pure _
  have invalid (message : String) : Composed reads redirects codes (do
      warn .invalidExtensionCondition message (some line.2)
      return (none : Option Extension)) :=
    (Composed.warn _ _ _).bind fun _ => .pure none
  unfold Extension.ofLine?
  split
  · dsimp only
    split
    · split
      · exact invalid _
      · split
        · exact .pure _
        · exact invalid _
    · exact invalid _
  · exact .pure none

theorem composed_reflect (base : Text) (stage : Stage) (info : Interface) :
    Composed reads redirects Code.alwaysFatal (Reflection.reflect base stage info) := by
  refine (Subpass.composed_expand _ _).bind fun expanded =>
    (Declaration.composed_extractFrom _ _ _ _ _ _).bind fun declarations => ?_
  exact Interface.composed_addAll info _ fun info => composed_applyTags _ info

theorem composed_base (library : ChunkLibrary) (supply : ChunkSupply) (stage : Stage)
    (shader : ShaderSource) :
    Composed true redirects Code.alwaysFatal (shader.base library supply stage) := by
  refine (Include.composed_resolve library supply _).bind fun resolved =>
    (Macro.composed_expandAll _).bind fun expanded => ?_
  have live (t : Text) (entry : String) :
      Composed true redirects Code.alwaysFatal (LiveCode.eliminateReporting t entry) := by
    unfold LiveCode.eliminateReporting
    split
    · exact (Composed.warn _ _ _).bind fun _ => .pure _
    · exact .pure _
  exact (live _ _).bind fun _ => (Composed.emit _).bind fun _ => .pure _

theorem composed_layoutEdits (t : Text) {update : Declaration → Compile (Option Layout)}
    (h : ∀ d, Composed reads redirects codes (update d)) (ds : List Declaration) :
    Composed reads redirects codes (Decoration.layoutEdits t update ds) := by
  refine (Composed.mapM (fun d => (h d).bind fun found => ?_) _).bind fun _ => .pure _
  cases found <;> exact .pure _

theorem composed_memoryUpdate (info : Interface) (version : Nat) (d : Declaration) :
    Composed reads redirects codes (Decoration.memoryUpdate info version d) := by
  unfold Decoration.memoryUpdate
  split <;> exact .pure _

theorem composed_slotUpdate (info : Interface) (version : Nat) (d : Declaration) :
    Composed reads redirects codes (Decoration.slotUpdate info version d) := by
  unfold Decoration.slotUpdate
  split
  · exact .pure _
  · exact (Composed.emit _).bind fun _ => .pure none

theorem composed_updateLayouts (t : Text) (stage : Stage)
    {update : Declaration → Compile (Option Layout)}
    (h : ∀ d, Composed reads true Code.alwaysFatal (update d)) :
    Composed reads true Code.alwaysFatal (Decoration.updateLayouts t stage update) :=
  (Composed.silently rfl (Declaration.composed_extractFrom _ _ _ _ _ _)).bind fun declarations =>
    (composed_layoutEdits t h declarations).bind fun _ => .pure _

theorem composed_memoryLayouts (t : Text) (stage : Stage) (info : Interface) (version : Nat) :
    Composed reads true Code.alwaysFatal (Decoration.memoryLayouts t stage info version) :=
  composed_updateLayouts t stage (composed_memoryUpdate info version)

theorem composed_slots (t : Text) (stage : Stage) (info : Interface) (version : Nat) :
    Composed reads true Code.alwaysFatal (Decoration.slots t stage info version) := by
  unfold Decoration.slots
  split
  · exact .pure t
  · exact composed_updateLayouts t stage (composed_slotUpdate info version)

theorem composed_outputOf? (d : Declaration) :
    Composed reads redirects codes (Legacy.outputOf? d) := by
  unfold Legacy.outputOf?
  split
  · split
    · exact .pure _
    · exact (Composed.error _ _ _).bind fun _ => .pure none
  · exact .pure none

theorem composed_textureEdits (t : Text) (stage : Stage) (defines : List Define) :
    Composed reads redirects codes (Legacy.textureEdits t stage defines) := by
  refine (Composed.mapM (fun call => ?_) _).bind fun _ => .pure _
  split
  · exact .pure _
  · exact (Composed.error _ _ _).bind fun _ => .pure none

theorem composed_remapTextures (t : Text) (stage : Stage) (defines : List Define) :
    Composed reads redirects codes (Legacy.remapTextures t stage defines) :=
  (composed_textureEdits t stage defines).bind fun _ => .pure _

theorem composed_transcode (t : Text) (stage : Stage) (defines : List Define) :
    Composed reads true Code.alwaysFatal (Legacy.transcode t stage defines) :=
  (Composed.silently rfl (Declaration.composed_extractFrom _ _ _ _ _ _)).bind fun _ =>
    (Composed.mapM composed_outputOf? _).bind fun _ =>
      (composed_remapTextures _ _ _).bind fun _ => .pure _

theorem composed_render (base : Text) (stage : Stage) (dialect : Dialect) (info : Interface)
    (defines : List Define) :
    Composed reads true Code.alwaysFatal (Rendition.render base stage dialect info defines) := by
  refine (Composed.silently rfl (Subpass.composed_expand _ _)).bind fun expanded => ?_
  have finish (t : Text) (requested : List Extension) :
      Composed reads true Code.alwaysFatal (if dialect = .es1 then do
        let transcoded ← Legacy.transcode t stage defines
        return Rendition.tidy (Extension.prepend (Tag.strip transcoded.text)
          (requested ++ transcoded.extensions))
      else do
        let decorated ← Decoration.memoryLayouts t stage info dialect.version
        let decorated ← Decoration.slots decorated stage info dialect.version
        return Rendition.tidy (Extension.prepend (Tag.strip decorated) requested)) := by
    split
    · exact (composed_transcode _ _ _).bind fun _ => .pure _
    · exact (composed_memoryLayouts _ _ _ _).bind fun _ =>
        (composed_slots _ _ _ _).bind fun _ => .pure _
  dsimp only
  split
  · exact (composed_collectExtensions _ _).bind fun requested => finish _ requested
  · exact (Composed.silently rfl (composed_collectExtensions _ _)).bind fun requested =>
      finish _ requested

theorem composed_static (t : Text) (stage : Stage) :
    Composed reads redirects codes (Check.static t stage) := by
  refine (Composed.forM (fun token => ?_) _).bind fun _ => ?_
  · split
    · exact .error _ _ _
    · exact .pure PUnit.unit
  · split
    · exact .warn _ _ _
    · split
      · exact .warn _ _ _
      · exact .pure PUnit.unit
    · exact .pure PUnit.unit

theorem composed_backend (backend : Backend) (vertex fragment : Text) :
    Composed true redirects Code.alwaysFatal (backend.check vertex fragment) := by
  have call (request : BackendCall) (answer : List BackendCall → Except String Unit) :
      Composed true redirects Code.alwaysFatal (Backend.call request answer) :=
    (Composed.read rfl).bind fun _ => (Composed.emit _).bind fun _ => .pure _
  have compile (stage : Stage) (source : Text) :
      Composed true redirects Code.alwaysFatal (backend.checkStage stage source) := by
    refine (call _ _).bind fun answer => ?_
    cases answer with
    | ok _ => exact .pure PUnit.unit
    | error log => exact .fatal _ _ (by decide)
  refine (compile _ _).bind fun _ => (compile _ _).bind fun _ => (call _ _).bind fun answer => ?_
  cases answer with
  | ok _ => exact .emit _
  | error log => exact .fatal _ _ (by decide)

end Pass

namespace PassSource

open Pass

theorem composed_stages (pass : PassSource) :
    Composed reads redirects Code.alwaysFatal pass.stages := by
  unfold stages
  dsimp only
  split
  · exact .pure _
  · exact .fatal _ _ (by decide)
  · exact .fatal _ _ (by decide)
  · exact .pure _

theorem composed_checkStage (options : Options) (texts : List StageText) (b : StageBase) :
    Composed true true Code.alwaysFatal (checkStage options texts b) := by
  refine (Composed.setShader _ rfl).bind fun _ => ?_
  split
  · split
    · exact (Composed.emit _).bind fun _ => composed_static _ _
    · exact composed_static _ _
  · exact .pure PUnit.unit

theorem composed_checkProgram (backend : Backend) (pass : PassSource) (texts : List StageText) :
    Composed true true Code.alwaysFatal (checkProgram backend pass texts) := by
  unfold checkProgram
  split
  · exact (Composed.setShader _ rfl).bind fun _ => composed_backend _ _ _
  · exact .pure PUnit.unit

def Returns (P : α → Report → Prop) (x : Compile α) : Prop :=
  ∀ r a s, x.runWith r = (.ok a, s) → P a s

theorem returns_bind {P : β → Report → Prop} {x : Compile α} {f : α → Compile β}
    (last : ∀ a, Returns P (f a)) : Returns P (x >>= f) := by
  intro r b s run
  obtain ⟨a, s', -, run⟩ := exists_of_runWith_bind run
  exact last a s' b s run

theorem composed_compileReporting (library : ChunkLibrary) (supply : ChunkSupply)
    (backend : Backend) (options : Options) (pass : PassSource) :
    Composed true true Code.alwaysFatal (compileReporting library supply backend options pass) := by
  have gathers (g : Gathered) (stage : Stage × ShaderSource) :
      Composed true true Code.alwaysFatal (gather library supply g stage) :=
    (Composed.setShader _ rfl).bind fun _ => (composed_base _ _ _ _).bind fun _ =>
      (composed_reflect _ _ _).bind fun _ => .pure _
  have renders (info : Interface) (defines : List Define) (b : StageBase) :
      Composed true true Code.alwaysFatal (renderStage info defines b) :=
    (Composed.setShader _ rfl).bind fun _ => .mapM (fun d =>
      (composed_render _ _ _ _ _).bind fun _ => .pure _) _
  refine pass.composed_stages.bind fun stages => (Composed.foldlM gathers stages {}).bind fun g =>
    (Composed.setShader _ rfl).bind fun _ => (composed_check _).bind fun _ =>
    (Composed.mapM (renders _ _) _).bind fun texts =>
    (Composed.forM (composed_checkStage options _) _).bind fun _ => ?_
  dsimp only
  split
  · exact (composed_checkProgram _ _ _).bind fun _ => (Composed.read rfl).bind fun _ => .pure _
  · exact (Composed.read rfl).bind fun _ => .pure _

theorem diagnostics_eq_messages (library : ChunkLibrary) (supply : ChunkSupply) (backend : Backend)
    (options : Options) (pass : PassSource) :
    Returns (fun compiled r => compiled.diagnostics = r.messages)
      (compileReporting library supply backend options pass) := by
  refine returns_bind fun _ => returns_bind fun _ => returns_bind fun _ => returns_bind fun _ =>
    returns_bind fun _ => returns_bind fun _ => ?_
  dsimp only
  have last (make : List Diagnostic → CompiledPass) (made : ∀ ms, (make ms).diagnostics = ms) :
      Returns (fun compiled r => compiled.diagnostics = r.messages)
        (do return make (← getThe Report).messages) := by
    rintro r _ _ ⟨⟩
    exact made r.messages
  split
  · exact returns_bind fun _ => last _ fun _ => rfl
  · exact last _ fun _ => rfl

/-- A pass that stops at errors compiles with warnings only, and one that does not fails only with
codes that are always fatal. -/
theorem compile_errors (library : ChunkLibrary) (supply : ChunkSupply) (backend : Backend)
    (options : Options) (pass : PassSource) :
    (options.throwOnError = true →
      ∀ compiled, (compile library supply backend options pass).1 = .ok compiled →
        ∀ d ∈ compiled.diagnostics, d.severity = .warning) ∧
    (options.throwOnError = false →
      ∀ failure, (compile library supply backend options pass).1 = .error failure →
        failure.code ∈ Code.alwaysFatal) := by
  let start : Report :=
    { effect := options.effect, throwOnError := options.throwOnError, shader := pass.name }
  obtain ⟨-, strict, lenient⟩ :=
    (composed_compileReporting library supply backend options pass).obeys start
  refine ⟨fun stops compiled returned d member => ?_, lenient⟩
  have listed := diagnostics_eq_messages library supply backend options pass start compiled _
    (Prod.ext returned rfl)
  have none_reported : (compile library supply backend options pass).2.errors = [] :=
    strict stops compiled returned
  cases severity : d.severity with
  | warning => rfl
  | error =>
    have : d ∈ (compile library supply backend options pass).2.errors :=
      List.mem_filter.2 ⟨listed ▸ member, decide_eq_true severity⟩
    rw [none_reported] at this
    cases this

theorem compile_errors_warned_and_fatal :
    let plain : PassSource :=
      { name := "p", fragment := some { name := "f", source := "void main() \x7b\x7d".toList } }
    let library := ChunkLibrary.add {} "old" "#pragma deprecate-chunk gone".toList
    let broken : PassSource :=
      { name := "p", fragment := some { name := "f", source := "#include <old>\n#include <new>".toList } }
    (∃ compiled, (compile {} .none .accepting {} plain).1 = .ok compiled ∧
      compiled.diagnostics.map Diagnostic.code = [.missingPrecision] ∧
      ∀ d ∈ compiled.diagnostics, d.severity = .warning) ∧
    ∃ failure, (compile library .none .accepting { throwOnError := false } broken).1 = .error failure ∧
      failure.code = .chunkNotFound ∧ failure.code ∈ Code.alwaysFatal := by
  intro plain library broken
  constructor
  · have run : ((compile {} .none .accepting {} plain).1.toOption.map fun compiled =>
        compiled.diagnostics.map Diagnostic.code) = some [.missingPrecision] := by decide +kernel
    cases result : (compile {} .none .accepting {} plain).1 with
    | error failure =>
      rw [result] at run
      cases run
    | ok compiled =>
      rw [result] at run
      exact ⟨compiled, rfl, Option.some.inj run, (compile_errors _ _ _ _ _).1 rfl compiled result⟩
  · have run : (failure? (compile library .none .accepting { throwOnError := false } broken).1).map
        Failure.code = some .chunkNotFound := by decide +kernel
    obtain ⟨failure, failed, code⟩ := Option.map_eq_some_iff.1 run
    have result := eq_error_of_failure? failed
    exact ⟨failure, result, code, (compile_errors _ _ _ _ _).2 rfl failure result⟩

end PassSource
end ShaderPass
