import ShaderPass.Diagnostic.Report

/-! What a computation returns when errors do not stop it. A steady computation returns the same
whatever was reported before, so its outcome can be read off step by step. -/
namespace ShaderPass.Compile

/-- The value that a computation returns under a quiet report; `none` if it fails. -/
def outcome (x : Compile α) : Option α :=
  (x.runWith Report.quiet).1.toOption

/-- A computation that returns the same under all reports that do not stop at errors, and leaves such a
report. -/
def Steady (x : Compile α) : Prop :=
  ∀ r : Report, r.throwOnError = false →
    (x.runWith r).1.toOption = outcome x ∧ (x.runWith r).2.throwOnError = false

def failure? : Except Failure α → Option Failure
  | .ok _ => none
  | .error failure => some failure

theorem eq_error_of_failure? {result : Except Failure α} {failure : Failure}
    (h : failure? result = some failure) : result = .error failure := by
  cases result with
  | ok a => cases h
  | error e => rw [Option.some.inj h]

theorem exists_of_toOption_map {result : Except Failure α × Report} {f : α → β} {b : β}
    (known : result.1.toOption.map f = some b) : ∃ a s, result = (.ok a, s) ∧ f a = b := by
  obtain ⟨value, s⟩ := result
  cases value with
  | ok a => exact ⟨a, s, rfl, Option.some.inj known⟩
  | error failure => cases known

theorem runWith_pure (a : α) (r : Report) : (pure a : Compile α).runWith r = (.ok a, r) := rfl

theorem runWith_bind (x : Compile α) (f : α → Compile β) (r : Report) :
    (x >>= f).runWith r = match x.runWith r with
      | (.ok a, s) => (f a).runWith s
      | (.error e, s) => (.error e, s) := by
  show (ExceptT.run (x >>= f)).run r = match (ExceptT.run x).run r with
    | (.ok a, s) => (ExceptT.run (f a)).run s
    | (.error e, s) => (.error e, s)
  rw [ExceptT.run_bind, StateT.run_bind]
  rcases (ExceptT.run x).run r with ⟨result, s⟩
  cases result <;> rfl

theorem exists_of_runWith_bind {x : Compile α} {f : α → Compile β} {r s : Report} {b : β}
    (run : (x >>= f).runWith r = (.ok b, s)) :
    ∃ a s', x.runWith r = (.ok a, s') ∧ (f a).runWith s' = (.ok b, s) := by
  rw [runWith_bind] at run
  rcases start : x.runWith r with ⟨result, s'⟩
  rw [start] at run
  cases result with
  | ok a => exact ⟨a, s', rfl, run⟩
  | error failure => cases run

def Plain (x : Compile α) : Prop :=
  ∃ a, x = pure a

theorem Plain.bind {x : Compile α} {f : α → Compile β} (first : Plain x)
    (later : ∀ a, Plain (f a)) : Plain (x >>= f) := by
  obtain ⟨a, rfl⟩ := first
  rw [pure_bind]
  exact later a

theorem Plain.mapM {f : α → Compile β} {as : List α} (each : ∀ a ∈ as, Plain (f a)) :
    Plain (as.mapM f) := by
  induction as with
  | nil => exact ⟨[], rfl⟩
  | cons a as ih =>
    rw [List.mapM_cons]
    exact (each a List.mem_cons_self).bind fun _ =>
      (ih fun b hb => each b (List.mem_cons_of_mem _ hb)).bind fun _ => ⟨_, rfl⟩

theorem Plain.exists_runWith {x : Compile α} (h : Plain x) (r : Report) :
    ∃ a s, x.runWith r = (.ok a, s) := by
  obtain ⟨a, rfl⟩ := h
  exact ⟨a, r, rfl⟩

theorem record_throwOnError (r : Report) (d : Diagnostic) :
    (r.record d).throwOnError = r.throwOnError := by
  unfold Report.record
  split <;> rfl

theorem record_messages (r : Report) (d : Diagnostic) : (r.record d).messages = r.messages ++ [d] := by
  unfold Report.record
  split <;> rfl

theorem runWith_error {r : Report} (lenient : r.throwOnError = false) (code : Code)
    (message : String) (line : Option Nat) :
    (error code message line).runWith r = (.ok (), r.record ⟨.error, code, message, line⟩) := by
  show (ExceptT.run (if r.throwOnError then throw _ else pure () : Compile Unit)).run
    (r.record ⟨.error, code, message, line⟩) = _
  rw [lenient]
  rfl

theorem runWith_error_of_throws {r : Report} (strict : r.throwOnError = true) (code : Code)
    (message : String) (line : Option Nat) :
    (error code message line).runWith r =
      (.error ⟨code, r.format ⟨.error, code, message, line⟩⟩,
        r.record ⟨.error, code, message, line⟩) := by
  show (ExceptT.run (if r.throwOnError then throw _ else pure () : Compile Unit)).run
    (r.record ⟨.error, code, message, line⟩) = _
  rw [strict]
  rfl

theorem runWith_fatal (r : Report) (code : Code) (message : String) (line : Option Nat) :
    (fatal code message line : Compile α).runWith r =
      (.error ⟨code, r.format ⟨.error, code, message, line⟩⟩, r.record ⟨.error, code, message, line⟩) :=
  rfl

theorem steady_pure (a : α) : Steady (pure a : Compile α) :=
  fun _ lenient => ⟨rfl, lenient⟩

theorem steady_error (code : Code) (message : String) (line : Option Nat) :
    Steady (error code message line) := by
  intro r lenient
  rw [outcome, runWith_error lenient, runWith_error (r := Report.quiet) rfl]
  exact ⟨rfl, (record_throwOnError r _).trans lenient⟩

theorem steady_fatal (code : Code) (message : String) (line : Option Nat) :
    Steady (fatal code message line : Compile α) := by
  have stops (r : Report) : ((fatal code message line : Compile α).runWith r).1.toOption = none := rfl
  intro r lenient
  rw [outcome, stops, stops, runWith_fatal]
  exact ⟨rfl, (record_throwOnError r _).trans lenient⟩

@[simp] theorem outcome_pure (a : α) : outcome (pure a : Compile α) = some a := rfl

@[simp] theorem outcome_error (code : Code) (message : String) (line : Option Nat) :
    outcome (error code message line) = some () := rfl

@[simp] theorem outcome_fatal (code : Code) (message : String) (line : Option Nat) :
    outcome (fatal code message line : Compile α) = none := rfl

theorem toOption_runWith_bind {x : Compile α} {f : α → Compile β} (first : Steady x)
    (next : ∀ a, outcome x = some a → Steady (f a)) {r : Report} (lenient : r.throwOnError = false) :
    ((x >>= f).runWith r).1.toOption = (outcome x).bind (fun a => outcome (f a)) ∧
      ((x >>= f).runWith r).2.throwOnError = false := by
  obtain ⟨value, lenient'⟩ := first r lenient
  rw [runWith_bind]
  rcases run : x.runWith r with ⟨result, s⟩
  rw [run] at value lenient'
  cases result with
  | error e =>
    rw [← value]
    exact ⟨rfl, lenient'⟩
  | ok a =>
    obtain ⟨value', lenient''⟩ := next a value.symm s lenient'
    rw [← value]
    exact ⟨value', lenient''⟩

theorem outcome_bind {x : Compile α} {f : α → Compile β} (first : Steady x)
    (next : ∀ a, Steady (f a)) : outcome (x >>= f) = (outcome x).bind fun a => outcome (f a) :=
  (toOption_runWith_bind (r := Report.quiet) first (fun a _ => next a) rfl).1

theorem Steady.bind {x : Compile α} {f : α → Compile β} (first : Steady x)
    (next : ∀ a, Steady (f a)) : Steady (x >>= f) := by
  intro r lenient
  rw [outcome_bind first next]
  exact toOption_runWith_bind first (fun a _ => next a) lenient

theorem outcome_error_bind {f : Unit → Compile α} (next : ∀ a, Steady (f a)) (code : Code)
    (message : String) (line : Option Nat) :
    outcome (error code message line >>= f) = outcome (f ()) := by
  rw [outcome_bind (steady_error code message line) next, outcome_error, Option.bind_some]

def resume : Except Failure α → Compile α
  | .ok a => pure a
  | .error failure => throw failure

theorem runWith_silently (x : Compile α) (r : Report) : (silently x).runWith r =
    ((x.runWith { Report.quiet with trace := r.trace }).1,
      { r with trace := (x.runWith { Report.quiet with trace := r.trace }).2.trace }) := by
  show (resume (x.runWith { Report.quiet with trace := r.trace }).1).runWith
      { r with trace := (x.runWith { Report.quiet with trace := r.trace }).2.trace } = _
  cases (x.runWith { Report.quiet with trace := r.trace }).1 <;> rfl

@[simp] theorem outcome_silently (x : Compile α) : outcome (silently x) = outcome x := by
  rw [outcome, runWith_silently]
  rfl

theorem exists_runWith_silently {x : Compile α} (steady : Steady x) {a : α}
    (value : outcome x = some a) (r : Report) : ∃ s, (silently x).runWith r = (.ok a, s) := by
  obtain ⟨run, -⟩ := steady { Report.quiet with trace := r.trace } rfl
  rw [runWith_silently]
  cases result : (x.runWith { Report.quiet with trace := r.trace }).1 with
  | error e =>
    rw [result, value] at run
    cases run
  | ok b =>
    rw [result, value] at run
    obtain rfl := Option.some.inj run
    exact ⟨_, rfl⟩

theorem lift_run_bind {x : Compile α} {look : Except Failure α → Compile β} {next : α → Compile β}
    (ok : ∀ a, look (.ok a) = next a) (error : ∀ failure, look (.error failure) = throw failure) :
    ((liftM (ExceptT.run x) : Compile (Except Failure α)) >>= look) = x >>= next := by
  refine funext fun r => ?_
  have run : (x >>= next) r = match ExceptT.run x r with
      | (.ok a, s) => next a s
      | (.error failure, s) => (throw failure : Compile β) s := runWith_bind x next r
  rw [run]
  show look (ExceptT.run x r).1 (ExceptT.run x r).2 = _
  rcases ExceptT.run x r with ⟨outcome, s⟩
  cases outcome with
  | ok a => exact congrFun (ok a) s
  | error failure => exact congrFun (error failure) s

end ShaderPass.Compile
