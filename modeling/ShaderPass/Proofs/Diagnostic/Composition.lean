import ShaderPass.Proofs.Diagnostic.Outcome

/-! Computations that report through the reporting operations only. What such a computation can do is
said once, and what holds of every report follows by induction over how it is composed. -/
namespace ShaderPass

/-- The codes that stop a compilation whatever its settings. -/
def Code.alwaysFatal : List Code :=
  [.chunkNotFound, .arrayAlignment, .vec3Member, .implicitPadding, .directiveInBlock,
   .opaqueTypeInBlock, .nonSquareMatrix, .structMember, .compileFailed, .linkFailed, .mixedStages,
   .blockBinding, .samplerTextureBinding, .samplerBinding, .textureBinding, .bufferBinding,
   .imageBinding, .subpassInputBinding]

namespace Compile

/-- A computation composed of reporting operations. `reads` says whether it may look at its report,
`redirects` whether it may name another shader or run something quietly, and `codes` which errors it
may report as fatal. -/
inductive Composed (reads redirects : Bool) (codes : List Code) : {α : Type} → Compile α → Prop where
  | pure {α : Type} (a : α) : Composed reads redirects codes (pure a)
  | bind {α β : Type} {x : Compile α} {f : α → Compile β} :
      Composed reads redirects codes x → (∀ a, Composed reads redirects codes (f a)) →
        Composed reads redirects codes (x >>= f)
  | read : reads = true → Composed reads redirects codes (getThe Report)
  | emit (event : Event) : Composed reads redirects codes (emit event)
  | setShader (name : String) : redirects = true → Composed reads redirects codes (setShader name)
  | warn (code : Code) (message : String) (line : Option Nat) :
      Composed reads redirects codes (warn code message line)
  | error (code : Code) (message : String) (line : Option Nat) :
      Composed reads redirects codes (error code message line)
  | fatal {α : Type} {code : Code} (message : String) (line : Option Nat) :
      code ∈ codes → Composed reads redirects codes (fatal code message line : Compile α)
  | silently {α : Type} {x : Compile α} :
      redirects = true → Composed reads redirects codes x → Composed reads redirects codes (silently x)

namespace Composed

variable {reads redirects : Bool} {codes : List Code} {α β : Type}

theorem map {x : Compile α} (h : Composed reads redirects codes x) (f : α → β) :
    Composed reads redirects codes (f <$> x) := by
  rw [map_eq_pure_bind]
  exact h.bind fun a => .pure (f a)

theorem mapM {f : α → Compile β} (h : ∀ a, Composed reads redirects codes (f a)) (as : List α) :
    Composed reads redirects codes (as.mapM f) := by
  induction as with
  | nil => exact .pure []
  | cons a as ih =>
    rw [List.mapM_cons]
    exact (h a).bind fun b => ih.bind fun bs => .pure (b :: bs)

theorem forM {f : α → Compile PUnit} (h : ∀ a, Composed reads redirects codes (f a)) (as : List α) :
    Composed reads redirects codes (as.forM f) := by
  induction as with
  | nil => exact .pure PUnit.unit
  | cons a as ih => exact (h a).bind fun _ => ih

theorem foldlM {f : β → α → Compile β} (h : ∀ b a, Composed reads redirects codes (f b a))
    (as : List α) (b : β) : Composed reads redirects codes (as.foldlM f b) := by
  induction as generalizing b with
  | nil => exact .pure b
  | cons a as ih =>
    rw [List.foldlM_cons]
    exact (h b a).bind ih

end Composed

theorem Composed.steady {α : Type} {x : Compile α} (h : Composed false true Code.alwaysFatal x) :
    Steady x := by
  induction h with
  | pure a => exact steady_pure a
  | bind _ _ first next => exact first.bind next
  | read looks => cases looks
  | emit event => exact fun r lenient => ⟨rfl, lenient⟩
  | setShader name _ => exact fun r lenient => ⟨rfl, lenient⟩
  | warn code message line =>
    exact fun r lenient => ⟨rfl, (record_throwOnError r _).trans lenient⟩
  | error code message line => exact steady_error code message line
  | fatal message line _ => exact steady_fatal _ message line
  | silently _ _ inner =>
    intro r lenient
    rw [outcome_silently, runWith_silently]
    exact ⟨(inner _ rfl).1, lenient⟩

/-- What a computation returns under any report is its outcome, if it does not look at the report. -/
theorem Composed.outcome_of_ok {α : Type} {x : Compile α} (h : Composed false true Code.alwaysFatal x)
    {r s : Report} {a : α} (run : x.runWith r = (.ok a, s)) : outcome x = some a := by
  induction h generalizing r s with
  | pure a => exact congrArg Except.toOption (congrArg Prod.fst run)
  | bind first next value values =>
    obtain ⟨b, s', start, run⟩ := exists_of_runWith_bind run
    rw [outcome_bind first.steady fun b => (next b).steady, value start]
    exact values b run
  | read looks => cases looks
  | emit event => exact congrArg Except.toOption (congrArg Prod.fst run)
  | setShader name _ => exact congrArg Except.toOption (congrArg Prod.fst run)
  | warn code message line => exact congrArg Except.toOption (congrArg Prod.fst run)
  | error code message line => rfl
  | fatal message line _ =>
    rw [runWith_fatal] at run
    cases run
  | @silently α x _ _ value =>
    rw [runWith_silently] at run
    rw [outcome_silently]
    have returned : (x.runWith { Report.quiet with trace := r.trace }).1 = .ok a :=
      congrArg Prod.fst run
    exact value (Prod.ext returned rfl)

end Compile

namespace Report

def errors (r : Report) : List Diagnostic :=
  r.messages.filter fun d => d.severity = .error

theorem errors_record_of_warning (r : Report) {d : Diagnostic} (h : d.severity = .warning) :
    (r.record d).errors = r.errors := by
  unfold record errors
  split <;> simp [push, h]

end Report

namespace Compile

/-- What errors do to a computation that started with the report `r`: if it stops at errors, it returns
only when none was reported, and if it does not, only one of the codes makes it fail. -/
structure Obeys (codes : List Code) (r : Report) (result : Except Failure α × Report) : Prop where
  settings : result.2.throwOnError = r.throwOnError
  strict : r.throwOnError = true → ∀ a, result.1 = .ok a → result.2.errors = r.errors
  lenient : r.throwOnError = false → ∀ e, result.1 = .error e → e.code ∈ codes

variable {α β : Type} {codes : List Code} {r : Report}

theorem obeys_of_ok {a : α} {s : Report} (settings : s.throwOnError = r.throwOnError)
    (errors : s.errors = r.errors) : Obeys codes r ((.ok a : Except Failure α), s) :=
  ⟨settings, fun _ _ _ => errors, fun _ _ failed => nomatch failed⟩

theorem obeys_bind {x : Compile α} {f : α → Compile β} (first : Obeys codes r (x.runWith r))
    (next : ∀ a s, Obeys codes s ((f a).runWith s)) : Obeys codes r ((x >>= f).runWith r) := by
  rw [runWith_bind]
  rcases run : x.runWith r with ⟨result, s⟩
  rw [run] at first
  cases result with
  | error e =>
    refine ⟨first.settings, nofun, fun goes_on _ failed => ?_⟩
    obtain rfl := Except.error.inj failed
    exact first.lenient goes_on e rfl
  | ok a =>
    obtain ⟨settings, strict, lenient⟩ := next a s
    refine ⟨settings.trans first.settings, fun stops b returned => ?_, fun goes_on e failed => ?_⟩
    · rw [strict (first.settings.trans stops) b returned, first.strict stops a rfl]
    · exact lenient (first.settings.trans goes_on) e failed

theorem obeys_error (code : Code) (message : String) (line : Option Nat) :
    Obeys codes r ((error code message line).runWith r) := by
  cases stops : r.throwOnError with
  | false =>
    rw [runWith_error stops]
    exact ⟨record_throwOnError r _, fun strict => (nomatch stops.symm.trans strict), fun _ _ failed => nomatch failed⟩
  | true =>
    rw [runWith_error_of_throws stops]
    exact ⟨record_throwOnError r _, nofun, fun lenient => (nomatch stops.symm.trans lenient)⟩

/-- Whatever was reported quietly is dropped, and a quiet computation fails with the codes only. -/
theorem obeys_silently {x : Compile α}
    (inner : Obeys codes { Report.quiet with trace := r.trace }
      (x.runWith { Report.quiet with trace := r.trace })) :
    Obeys codes r ((silently x).runWith r) := by
  rw [runWith_silently]
  exact ⟨rfl, fun _ _ _ => rfl, fun _ => inner.lenient rfl⟩

theorem Composed.obeys {reads redirects : Bool} {x : Compile α}
    (h : Composed reads redirects codes x) : ∀ r, Obeys codes r (x.runWith r) := by
  induction h with
  | pure a => exact fun r => obeys_of_ok rfl rfl
  | bind _ _ first next => exact fun r => obeys_bind (first r) next
  | read _ => exact fun r => obeys_of_ok rfl rfl
  | emit event => exact fun r => obeys_of_ok rfl rfl
  | setShader name _ => exact fun r => obeys_of_ok rfl rfl
  | warn code message line =>
    exact fun r => obeys_of_ok (record_throwOnError r _) (r.errors_record_of_warning rfl)
  | error code message line => exact fun r => obeys_error code message line
  | fatal message line always =>
    intro r
    rw [runWith_fatal]
    refine ⟨record_throwOnError r _, nofun, ?_⟩
    rintro _ _ ⟨⟩
    exact always
  | silently _ _ inner => exact fun r => obeys_silently (inner _)

theorem Composed.isSome_outcome {x : Compile α} (h : Composed true true [] x) :
    (outcome x).isSome = true := by
  cases run : (x.runWith Report.quiet).1 with
  | ok a => rw [outcome, run]; rfl
  | error e => cases (h.obeys Report.quiet).lenient rfl e run

end Compile
end ShaderPass
