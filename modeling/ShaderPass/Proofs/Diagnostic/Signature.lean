import ShaderPass.Proofs.Diagnostic.Composition

/-! Signed failures: a failure that is reported under an effect and a shader says so in its message.
What is run quietly signs with neither, so it must not fail. -/
namespace ShaderPass

def Failure.SignedBy (effect : String) (names : List String) (failure : Failure) : Prop :=
  ∃ name ∈ names, ∃ rest, failure.message = effect ++ ".effect - " ++ name ++ " - " ++ rest

theorem Report.exists_format_eq (r : Report) (d : Diagnostic) :
    ∃ rest, r.format d = r.effect ++ ".effect - " ++ r.shader ++ " - " ++ rest := by
  let line := (d.line.map toString).getD ""
  refine ⟨s!"{line}: {d.severity.name} {d.code.display}: {d.message}", ?_⟩
  simp only [Report.format, toString, String.append_assoc, line]

namespace Report

@[simp] theorem record_effect (r : Report) (d : Diagnostic) : (r.record d).effect = r.effect := by
  unfold record
  split <;> rfl

@[simp] theorem record_shader (r : Report) (d : Diagnostic) : (r.record d).shader = r.shader := by
  unfold record
  split <;> rfl

end Report

namespace Compile

variable {names : List String} {α β : Type} {r : Report}

/-- A run that started with the report `r` kept the effect, reports under one of the names, and signed
its failure if it failed. -/
structure Signed (names : List String) (r : Report) (result : Except Failure α × Report) : Prop where
  effect : result.2.effect = r.effect
  shader : result.2.shader ∈ names
  failure : ∀ failure, result.1 = .error failure → failure.SignedBy r.effect names

def Signs (names : List String) (x : Compile α) : Prop :=
  ∀ r : Report, r.shader ∈ names → Signed names r (x.runWith r)

def MayReturn (x : Compile α) (a : α) : Prop :=
  ∃ r s, x.runWith r = (.ok a, s)

theorem signed_of_ok {a : α} {s : Report} (effect : s.effect = r.effect) (shader : s.shader ∈ names) :
    Signed names r ((.ok a : Except Failure α), s) :=
  ⟨effect, shader, nofun⟩

theorem signed_of_error {s : Report} {code : Code} {d : Diagnostic} (named : r.shader ∈ names)
    (effect : s.effect = r.effect) (shader : s.shader = r.shader) :
    Signed names r ((.error ⟨code, r.format d⟩ : Except Failure α), s) := by
  refine ⟨effect, ?_, ?_⟩
  · rw [shader]
    exact named
  · rintro _ ⟨⟩
    exact ⟨r.shader, named, r.exists_format_eq d⟩

theorem signed_bind {x : Compile α} {f : α → Compile β} (first : Signed names r (x.runWith r))
    (next : ∀ a s, x.runWith r = (.ok a, s) → s.shader ∈ names → Signed names s ((f a).runWith s)) :
    Signed names r ((x >>= f).runWith r) := by
  rw [runWith_bind]
  rcases run : x.runWith r with ⟨result, s⟩
  rw [run] at first
  cases result with
  | error e =>
    refine ⟨first.effect, first.shader, ?_⟩
    rintro _ ⟨⟩
    exact first.failure e rfl
  | ok a =>
    have kept : s.effect = r.effect := first.effect
    obtain ⟨effect, shader, failure⟩ := next a s run first.shader
    rw [kept] at effect failure
    exact ⟨effect, shader, failure⟩

theorem Signs.bind {x : Compile α} {f : α → Compile β} (first : Signs names x)
    (next : ∀ a, MayReturn x a → Signs names (f a)) : Signs names (x >>= f) := by
  intro r named
  apply signed_bind (first r named)
  intro a s run named'
  exact next a ⟨r, s, run⟩ s named'

theorem signs_pure (a : α) : Signs names (pure a : Compile α) :=
  fun _ named => signed_of_ok rfl named

theorem signs_setShader {name : String} (known : name ∈ names) : Signs names (setShader name) :=
  fun _ _ => signed_of_ok rfl known

theorem signs_silently {x : Compile α} (steady : Steady x) (returns : (outcome x).isSome = true) :
    Signs names (silently x) := by
  intro r named
  obtain ⟨a, value⟩ := Option.isSome_iff_exists.1 returns
  obtain ⟨s, run⟩ := exists_runWith_silently steady value r
  have left : s = { r with trace := (x.runWith { Report.quiet with trace := r.trace }).2.trace } := by
    rw [runWith_silently] at run
    exact (congrArg Prod.snd run).symm
  rw [run, left]
  exact signed_of_ok rfl named

theorem Signs.mapM {f : α → Compile β} {as : List α} (h : ∀ a ∈ as, Signs names (f a)) :
    Signs names (as.mapM f) := by
  induction as with
  | nil => exact signs_pure []
  | cons a as ih =>
    rw [List.mapM_cons]
    have rest := ih fun a' later => h a' (List.mem_cons_of_mem a later)
    exact (h a List.mem_cons_self).bind fun b _ => rest.bind fun bs _ => signs_pure (b :: bs)

theorem Signs.forM {f : α → Compile PUnit} {as : List α} (h : ∀ a ∈ as, Signs names (f a)) :
    Signs names (as.forM f) := by
  induction as with
  | nil => exact signs_pure PUnit.unit
  | cons a as ih =>
    have rest := ih fun a' later => h a' (List.mem_cons_of_mem a later)
    exact (h a List.mem_cons_self).bind fun _ _ => rest

theorem Signs.foldlM {f : β → α → Compile β} {as : List α} (h : ∀ b, ∀ a ∈ as, Signs names (f b a))
    (b : β) : Signs names (as.foldlM f b) := by
  induction as generalizing b with
  | nil => exact signs_pure b
  | cons a as ih =>
    rw [List.foldlM_cons]
    have rest := ih fun b' a' later => h b' a' (List.mem_cons_of_mem a later)
    exact (h b a List.mem_cons_self).bind fun b' _ => rest b'

theorem Composed.signs {x : Compile α} (h : Composed true false Code.alwaysFatal x) :
    Signs names x := by
  induction h with
  | pure a => exact signs_pure a
  | bind _ _ first next => exact first.bind fun a _ => next a
  | read _ => exact fun r named => signed_of_ok rfl named
  | emit event => exact fun r named => signed_of_ok rfl named
  | setShader name redirects => cases redirects
  | warn code message line =>
    exact fun r named => signed_of_ok (r.record_effect _) (by rwa [r.record_shader])
  | error code message line =>
    intro r named
    cases stops : r.throwOnError with
    | false =>
      rw [runWith_error stops]
      exact signed_of_ok (r.record_effect _) (by rwa [r.record_shader])
    | true =>
      rw [runWith_error_of_throws stops]
      exact signed_of_error named (r.record_effect _) (r.record_shader _)
  | fatal message line _ =>
    intro r named
    rw [runWith_fatal]
    exact signed_of_error named (r.record_effect _) (r.record_shader _)
  | silently redirects => cases redirects

end Compile
end ShaderPass
