import Mathlib.Data.List.Nodup
import Mathlib.Data.List.Perm.Subperm
import ShaderPass.Chunk.Include
import ShaderPass.Proofs.Diagnostic.Outcome

/-! The run of a resolution as a depth-first walk over include lines: the chunks that it enters, with what
is known there, where it stops, what it has written by then, and what it reports. -/
namespace ShaderPass.Include

structure Moment where
  queries : List (List String) := []
  progress : Progress := {}

def lookup (library : ChunkLibrary) (supply : ChunkSupply) (m : Moment) (name : Text) :
    Option (Chunk × Moment) :=
  let names := candidates name
  let known := library.find? names <|>
    names.findSome? fun n => m.progress.supplied.find? fun chunk => chunk.name = n
  match known with
  | some chunk => some (chunk, m)
  | none => (supply.find? m.queries names).map fun chunk =>
    (chunk, ⟨m.queries ++ [names], { m.progress with
      supplied := Table.upsert (fun c => c.name = chunk.name) (fun _ => chunk) chunk
        m.progress.supplied }⟩)

def Moment.visit (m : Moment) (chunk : Chunk) : Moment :=
  { m with progress := { m.progress with visited := m.progress.visited ++ [chunk.name] } }

structure Visit where
  chunk : Chunk
  known : List Chunk

/-- The end of a walk that has written `first` before the rest of it. -/
def written (first : List Text) : Except Text (List Text × Moment) → Except Text (List Text × Moment)
  | .ok (rest, m) => .ok (first ++ rest, m)
  | .error name => .error name

/-- Depth-first resolution of `lines`, with the chunks it enters. It ends where all lines are done, with
what they are replaced by, or at an include that finds no chunk. -/
inductive Walk (library : ChunkLibrary) (supply : ChunkSupply) :
    Moment → List Text → List Visit → Except Text (List Text × Moment) → Prop where
  | done {m} : Walk library supply m [] [] (.ok ([], m))
  | plain {m line lines visits stop} : Line.parse? line = none →
      Walk library supply m lines visits stop →
      Walk library supply m (line :: lines) visits (written [line] stop)
  | again {m m' line lines visits stop inclusion chunk} : Line.parse? line = some inclusion →
      lookup library supply m inclusion.name = some (chunk, m') →
      chunk.name ∈ m'.progress.visited → Walk library supply m' lines visits stop →
      Walk library supply m (line :: lines) visits (written [[]] stop)
  | enter {m m' between line lines included inner visits stop inclusion chunk} :
      Line.parse? line = some inclusion →
      lookup library supply m inclusion.name = some (chunk, m') →
      chunk.name ∉ m'.progress.visited →
      Walk library supply (m'.visit chunk) (Text.feedLines chunk.content) inner (.ok (included, between)) →
      Walk library supply between lines visits stop →
      Walk library supply m (line :: lines)
        (⟨chunk, library.chunks ++ m'.progress.supplied⟩ :: inner ++ visits)
        (written (included.map fun l => inclusion.before ++ l ++ inclusion.after) stop)
  | stuck {m line lines inclusion} : Line.parse? line = some inclusion →
      lookup library supply m inclusion.name = none →
      Walk library supply m (line :: lines) [] (.error inclusion.name)
  | inside {m m' line lines inner inclusion chunk name} : Line.parse? line = some inclusion →
      lookup library supply m inclusion.name = some (chunk, m') →
      chunk.name ∉ m'.progress.visited →
      Walk library supply (m'.visit chunk) (Text.feedLines chunk.content) inner (.error name) →
      Walk library supply m (line :: lines)
        (⟨chunk, library.chunks ++ m'.progress.supplied⟩ :: inner) (.error name)

section Search

variable {library : ChunkLibrary} {supply : ChunkSupply} {m m' : Moment} {name : Text} {chunk : Chunk}

theorem lookup_cases (found : lookup library supply m name = some (chunk, m')) :
    (chunk ∈ library.chunks ++ m.progress.supplied ∧ m' = m) ∨
    ((∀ c ∈ m.progress.supplied, c.name ∉ candidates name) ∧
      supply.find? m.queries (candidates name) = some chunk ∧
      m'.progress.visited = m.progress.visited ∧
      m'.progress.supplied = Table.upsert (fun c => c.name = chunk.name) (fun _ => chunk) chunk
        m.progress.supplied) := by
  unfold lookup at found
  dsimp only at found
  split at found
  · rename_i known
    cases found
    refine Or.inl ⟨List.mem_append.2 ?_, rfl⟩
    rw [Option.orElse_eq_orElse, Option.orElse_eq_or] at known
    rcases Option.or_eq_some_iff.1 known with registered | ⟨-, supplied⟩
    · obtain ⟨_, -, found⟩ := List.exists_of_findSome?_eq_some registered
      exact Or.inl (List.mem_of_find?_eq_some found)
    · obtain ⟨_, -, found⟩ := List.exists_of_findSome?_eq_some supplied
      exact Or.inr (List.mem_of_find?_eq_some found)
  · rename_i unknown
    rw [Option.orElse_eq_orElse, Option.orElse_eq_or] at unknown
    obtain ⟨answer, supplied, same⟩ := Option.map_eq_some_iff.1 found
    cases same
    refine Or.inr ⟨fun c member listed => ?_, supplied, rfl, rfl⟩
    have missing := List.findSome?_eq_none_iff.1 (Option.or_eq_none_iff.1 unknown).2 _ listed
    have differs := List.find?_eq_none.1 missing c member
    simp at differs

def reach (library : ChunkLibrary) (supply : ChunkSupply) : List String :=
  library.chunks.map Chunk.name ++ supply.names

structure Within (library : ChunkLibrary) (supply : ChunkSupply) (m : Moment) : Prop where
  nodup : m.progress.visited.Nodup
  visited : m.progress.visited ⊆ reach library supply
  supplied : ∀ c ∈ m.progress.supplied, c.name ∈ reach library supply

theorem Within.length_le (h : Within library supply m) :
    m.progress.visited.length ≤ library.chunks.length + supply.names.length := by
  simpa [reach] using (List.subperm_of_subset h.nodup h.visited).length_le

theorem lookup_visited (found : lookup library supply m name = some (chunk, m')) :
    m'.progress.visited = m.progress.visited := by
  rcases lookup_cases found with ⟨-, rfl⟩ | ⟨-, -, same, -⟩
  · rfl
  · exact same

theorem Within.lookup (h : Within library supply m)
    (found : lookup library supply m name = some (chunk, m')) :
    Within library supply m' ∧ chunk.name ∈ reach library supply := by
  have visited := lookup_visited found
  rcases lookup_cases found with ⟨known, rfl⟩ | ⟨-, answer, -, supplied⟩
  · refine ⟨h, ?_⟩
    rcases List.mem_append.1 known with registered | earlier
    · exact List.mem_append_left _ (List.mem_map_of_mem registered)
    · exact h.supplied chunk earlier
  · have reached : chunk.name ∈ reach library supply :=
      List.mem_append_right _ (supply.name_mem _ _ _ answer)
    refine ⟨⟨visited ▸ h.nodup, visited ▸ h.visited, fun c member => ?_⟩, reached⟩
    rcases Table.mem_upsert (supplied ▸ member) with earlier | ⟨_, -, rfl⟩ | rfl
    · exact h.supplied c earlier
    · exact reached
    · exact reached

theorem Within.visit (h : Within library supply m) (reached : chunk.name ∈ reach library supply)
    (new : chunk.name ∉ m.progress.visited) : Within library supply (m.visit chunk) := by
  refine ⟨List.nodup_append.2 ⟨h.nodup, List.nodup_singleton _, ?_⟩,
    List.append_subset.2 ⟨h.visited, List.cons_subset.2 ⟨reached, List.nil_subset _⟩⟩, h.supplied⟩
  intro a listed b last same
  rw [same, List.mem_singleton.1 last] at listed
  exact new listed

end Search

section Walks

variable {library : ChunkLibrary} {supply : ChunkSupply} {m m' : Moment} {lines output : List Text}
  {visits : List Visit} {stop : Except Text (List Text × Moment)}

theorem exists_of_written {first : List Text} (ended : written first stop = .ok (output, m')) :
    ∃ rest, stop = .ok (rest, m') ∧ output = first ++ rest := by
  cases stop with
  | ok result =>
    cases ended
    exact ⟨result.1, rfl, rfl⟩
  | error name => cases ended

theorem Walk.visited (h : Walk library supply m lines visits stop) (ended : stop = .ok (output, m')) :
    m'.progress.visited = m.progress.visited ++ visits.map fun v => v.chunk.name := by
  induction h generalizing output m' with
  | done =>
    cases ended
    simp
  | plain _ _ ih =>
    obtain ⟨_, rest, -⟩ := exists_of_written ended
    exact ih rest
  | again _ found _ _ ih =>
    obtain ⟨_, rest, -⟩ := exists_of_written ended
    rw [ih rest, lookup_visited found]
  | enter _ found _ _ _ ih ih' =>
    obtain ⟨_, rest, -⟩ := exists_of_written ended
    rw [ih' rest, ih rfl]
    simp [Moment.visit, lookup_visited found]
  | stuck => cases ended
  | inside => cases ended

theorem Walk.within (h : Walk library supply m lines visits stop) (start : Within library supply m)
    (ended : stop = .ok (output, m')) : Within library supply m' := by
  induction h generalizing output m' with
  | done =>
    cases ended
    exact start
  | plain _ _ ih =>
    obtain ⟨_, rest, -⟩ := exists_of_written ended
    exact ih start rest
  | again _ found _ _ ih =>
    obtain ⟨_, rest, -⟩ := exists_of_written ended
    exact ih (start.lookup found).1 rest
  | enter _ found new _ _ ih ih' =>
    obtain ⟨_, rest, -⟩ := exists_of_written ended
    obtain ⟨within, reached⟩ := start.lookup found
    exact ih' (ih (within.visit reached new) rfl) rest
  | stuck => cases ended
  | inside => cases ended

end Walks

section Messages

def identifierNotice (ident message : String) : Diagnostic :=
  ⟨.error, .deprecatedIdentifier, s!"identifier {ident} is deprecated: {message}", none⟩

def chunkNotices (t : Text) (chunk : Chunk) : List Diagnostic :=
  chunk.deprecatedIdentifiers.flatMap fun (ident, message) =>
    if Text.containsWord t ident.toList then [identifierNotice ident message] else []

/-- The messages for the identifiers that a text uses, those of its owner aside. -/
def notices (known : List Chunk) (owner : Option String) (t : Text) : List Diagnostic :=
  (known.filter fun c => some c.name ≠ owner).flatMap (chunkNotices t)

def Visit.messages (v : Visit) : List Diagnostic :=
  (v.chunk.deprecation.map fun message => ⟨.error, .deprecatedChunk,
    s!"chunk {v.chunk.name} is deprecated: {message}", none⟩).toList ++
  notices v.known (some v.chunk.name) v.chunk.content

def stopMessages : Except Text (List Text × Moment) → List Diagnostic
  | .ok _ => []
  | .error name => [⟨.error, .chunkNotFound, s!"can not resolve '{String.ofList name}'", none⟩]

@[simp] theorem stopMessages_written (first : List Text) (stop : Except Text (List Text × Moment)) :
    stopMessages (written first stop) = stopMessages stop := by
  cases stop <;> rfl

def walkMessages (visits : List Visit) (stop : Except Text (List Text × Moment)) : List Diagnostic :=
  visits.flatMap Visit.messages ++ stopMessages stop

theorem walkMessages_enter (v : Visit) (inner visits : List Visit) (result : List Text × Moment)
    (first : List Text) (stop : Except Text (List Text × Moment)) :
    walkMessages (v :: inner ++ visits) (written first stop) =
      (v.messages ++ walkMessages inner (.ok result)) ++ walkMessages visits (written first stop) := by
  simp [walkMessages, stopMessages]

theorem chunkQueries_record (r : Report) (d : Diagnostic) :
    (r.record d).chunkQueries = r.chunkQueries := by
  unfold Report.record
  split
  · rfl
  · simp [Report.push, Report.chunkQueries]

theorem mem_notices {known : List Chunk} {owner : Option String} {t : Text} {d : Diagnostic} :
    d ∈ notices known owner t ↔ ∃ c ∈ known, some c.name ≠ owner ∧
      ∃ entry ∈ c.deprecatedIdentifiers, Text.containsWord t entry.1.toList = true ∧
        d = identifierNotice entry.1 entry.2 := by
  simp only [notices, chunkNotices, List.mem_flatMap, List.mem_filter, decide_eq_true_eq,
    List.mem_ite_nil_right, List.mem_singleton, and_assoc]

end Messages

section Run

variable {library : ChunkLibrary} {supply : ChunkSupply} {α β : Type}

/-- Under a report that does not stop at errors, `x` adds the messages `new` to the report and returns
`result`; `none` stands for a failure. -/
def Yields (x : Resolve α) (m : Moment) (new : List Diagnostic) (result : Option (α × Moment)) : Prop :=
  ∀ r : Report, r.throwOnError = false → r.chunkQueries = m.queries →
    ∃ returned s, (x.run m.progress).runWith r = (returned, s) ∧ s.throwOnError = false ∧
      s.messages = r.messages ++ new ∧
      match result with
      | some (a, m') => returned = .ok (a, m'.progress) ∧ s.chunkQueries = m'.queries
      | none => ∃ failure, returned = .error failure

theorem yields_pure (a : α) (m : Moment) : Yields (pure a) m [] (some (a, m)) :=
  fun r lenient asked => ⟨_, r, rfl, lenient, by simp, rfl, asked⟩

theorem Yields.bind {x : Resolve α} {f : α → Resolve β} {m m' : Moment} {a : α}
    {new new' : List Diagnostic} {result : Option (β × Moment)} (first : Yields x m new (some (a, m')))
    (next : Yields (f a) m' new' result) : Yields (x >>= f) m (new ++ new') result := by
  intro r lenient asked
  obtain ⟨_, s, run, lenient', messages, rfl, asked'⟩ := first r lenient asked
  obtain ⟨returned, s', run', lenient'', messages', value⟩ := next s lenient' asked'
  refine ⟨returned, s', ?_, lenient'', ?_, value⟩
  · rw [StateT.run_bind, Compile.runWith_bind, run]
    exact run'
  · rw [messages', messages, List.append_assoc]

theorem Yields.bind_none {x : Resolve α} {f : α → Resolve β} {m : Moment} {new : List Diagnostic}
    (first : Yields x m new none) : Yields (x >>= f) m new none := by
  intro r lenient asked
  obtain ⟨_, s, run, lenient', messages, failure, rfl⟩ := first r lenient asked
  refine ⟨_, s, ?_, lenient', messages, failure, rfl⟩
  rw [StateT.run_bind, Compile.runWith_bind, run]

theorem yields_error (code : Code) (message : String) (m : Moment) :
    Yields (monadLift (Compile.error code message)) m [⟨.error, code, message, none⟩]
      (some ((), m)) := by
  intro r lenient asked
  have same : (monadLift (Compile.error code message) : Compile Unit) = Compile.error code message :=
    rfl
  refine ⟨_, r.record ⟨.error, code, message, none⟩, ?_, ?_, Compile.record_messages _ _, rfl, ?_⟩
  · rw [StateT.run_monadLift, Compile.runWith_bind, same, Compile.runWith_error lenient]
    rfl
  · exact (Compile.record_throwOnError r _).trans lenient
  · exact (chunkQueries_record r _).trans asked

theorem yields_forM {f : α → Resolve PUnit} {m : Moment} {new : α → List Diagnostic}
    (h : ∀ a, Yields (f a) m (new a) (some ((), m))) (as : List α) :
    Yields (as.forM f) m (as.flatMap new) (some ((), m)) := by
  induction as with
  | nil => exact yields_pure _ _
  | cons a as ih => exact (h a).bind ih

theorem yields_get (m : Moment) : Yields (get : Resolve Progress) m [] (some (m.progress, m)) :=
  fun r lenient asked => ⟨_, r, rfl, lenient, by simp, rfl, asked⟩

theorem yields_checkIdentifiers (library : ChunkLibrary) (t : Text) (owner : Option String)
    (m : Moment) : Yields (checkIdentifiers library t owner) m
      (notices (library.chunks ++ m.progress.supplied) owner t) (some ((), m)) := by
  refine (yields_get m).bind (yields_forM (fun chunk => ?_) _)
  refine yields_forM (fun entry => ?_) _
  dsimp only
  split
  · exact yields_error _ _ _
  · exact yields_pure _ _

theorem yields_modify (f : Progress → Progress) (m : Moment) :
    Yields (modify f : Resolve PUnit) m [] (some ((), { m with progress := f m.progress })) :=
  fun r lenient asked => ⟨_, r, rfl, lenient, by simp, rfl, asked⟩

theorem chunkQueries_push_query (r : Report) (names : List String) :
    (r.push (.chunkQuery names)).chunkQueries = r.chunkQueries ++ [names] := by
  simp [Report.push, Report.chunkQueries]

theorem chunkQueries_push_log (r : Report) (level : LogLevel) (text : String) :
    (r.push (.log level text)).chunkQueries = r.chunkQueries := by
  simp [Report.push, Report.chunkQueries]

def searchMessages (name : Text) (result : Option (Chunk × Moment)) : List Diagnostic :=
  if result.isSome then [] else stopMessages (.error name)

theorem yields_find (library : ChunkLibrary) (supply : ChunkSupply) (m : Moment) (name : Text) :
    Yields (find library supply name) m (searchMessages name (lookup library supply m name))
      (lookup library supply m name) := by
  refine (yields_get m).bind ?_
  unfold lookup
  dsimp only
  cases (library.find? (candidates name) <|> (candidates name).findSome? fun n =>
      m.progress.supplied.find? fun chunk => chunk.name = n) with
  | some chunk => exact yields_pure _ _
  | none =>
    intro r lenient asked
    rw [StateT.run_bind, Compile.runWith_bind]
    show ∃ returned s, ((match supply.find? r.chunkQueries (candidates name) with
      | some chunk => _
      | none => _ : Resolve Chunk).run m.progress).runWith (r.push (.chunkQuery (candidates name))) =
        (returned, s) ∧ _
    rw [asked]
    cases supply.find? m.queries (candidates name) with
    | some chunk =>
      refine ⟨_, _, rfl, lenient, (List.append_nil _).symm, rfl, ?_⟩
      exact (chunkQueries_push_log _ _ _).trans (asked ▸ chunkQueries_push_query r (candidates name))
    | none =>
      refine ⟨_, _, rfl, ?_, Compile.record_messages _ _, _, rfl⟩
      exact (Compile.record_throwOnError _ _).trans lenient

def resolveLine (library : ChunkLibrary) (supply : ChunkSupply)
    (enter : Option String → Text → Resolve (List Text)) (line : Text) : Resolve (List Text) := do
  match Line.parse? line with
  | none => return [line]
  | some inclusion =>
    let chunk ← find library supply inclusion.name
    if chunk.name ∈ (← get).visited then return [[]]
    modify fun p => { p with visited := p.visited ++ [chunk.name] }
    if let some message := chunk.deprecation then
      Compile.error .deprecatedChunk s!"chunk {chunk.name} is deprecated: {message}"
    let included ← enter (some chunk.name) chunk.content
    return included.map fun l => inclusion.before ++ l ++ inclusion.after

def resolveLines (library : ChunkLibrary) (supply : ChunkSupply)
    (enter : Option String → Text → Resolve (List Text)) (lines : List Text) : Resolve (List Text) :=
  List.flatten <$> lines.mapM (resolveLine library supply enter)

theorem resolveLines_cons (enter : Option String → Text → Resolve (List Text)) (line : Text)
    (lines : List Text) :
    resolveLines library supply enter (line :: lines) = (do
      let first ← resolveLine library supply enter line
      let rest ← resolveLines library supply enter lines
      return first ++ rest) := by
  simp [resolveLines, List.mapM_cons]

theorem expand_eq_resolveLines (fuel : Nat) (owner : Option String) (t : Text) :
    expand library supply (fuel + 1) owner t = (do
      checkIdentifiers library t owner
      resolveLines library supply (expand library supply fuel) (Text.feedLines t)) := by
  simp only [resolveLines, map_eq_pure_bind]
  rfl

/-- With fuel at least `n`, the run walks over `lines`, adds `first` and the messages of the walk, and
returns what the walk writes. -/
def Reports (library : ChunkLibrary) (supply : ChunkSupply) (m : Moment) (lines : List Text) (n : Nat)
    (first : List Diagnostic) (run : Nat → Resolve (List Text)) : Prop :=
  ∃ visits stop, Walk library supply m lines visits stop ∧
    ∀ fuel, n ≤ fuel → Yields (run fuel) m (first ++ walkMessages visits stop) stop.toOption

theorem yields_resolveLine_again {m m' : Moment} {line : Text} {inclusion : Line} {chunk : Chunk}
    (enter : Option String → Text → Resolve (List Text)) (parsed : Line.parse? line = some inclusion)
    (found : lookup library supply m inclusion.name = some (chunk, m'))
    (met : chunk.name ∈ m'.progress.visited) :
    Yields (resolveLine library supply enter line) m [] (some ([[]], m')) := by
  have search := yields_find library supply m inclusion.name
  rw [found] at search
  simp only [resolveLine, parsed]
  refine search.bind ((yields_get m').bind ?_)
  rw [if_pos met]
  exact yields_pure _ _

theorem yields_resolveLine_stuck {m : Moment} {line : Text} {inclusion : Line}
    (enter : Option String → Text → Resolve (List Text)) (parsed : Line.parse? line = some inclusion)
    (missing : lookup library supply m inclusion.name = none) :
    Yields (resolveLine library supply enter line) m (stopMessages (.error inclusion.name)) none := by
  have search := yields_find library supply m inclusion.name
  rw [missing] at search
  simp only [resolveLine, parsed]
  exact search.bind_none

theorem yields_resolveLine_enter {m m' : Moment} {line : Text} {inclusion : Line} {chunk : Chunk}
    {enter : Option String → Text → Resolve (List Text)} {rest : List Diagnostic}
    {result : Option (List Text × Moment)} (parsed : Line.parse? line = some inclusion)
    (found : lookup library supply m inclusion.name = some (chunk, m'))
    (fresh : chunk.name ∉ m'.progress.visited)
    (inner : Yields (do
      let included ← enter (some chunk.name) chunk.content
      return included.map fun l => inclusion.before ++ l ++ inclusion.after) (m'.visit chunk)
      (notices (library.chunks ++ m'.progress.supplied) (some chunk.name) chunk.content ++ rest) result) :
    Yields (resolveLine library supply enter line) m
      (Visit.messages ⟨chunk, library.chunks ++ m'.progress.supplied⟩ ++ rest) result := by
  rw [Visit.messages, List.append_assoc]
  have search := yields_find library supply m inclusion.name
  rw [found] at search
  simp only [resolveLine, parsed]
  refine search.bind ((yields_get m').bind ?_)
  rw [if_neg fresh]
  refine (yields_modify _ m').bind ?_
  cases chunk.deprecation with
  | none => exact inner
  | some message => exact (yields_error _ _ _).bind inner

theorem Yields.bind_written {x : Resolve (List Text)} {m : Moment} {visits : List Visit}
    {stop : Except Text (List Text × Moment)} (rest : Yields x m (walkMessages visits stop) stop.toOption)
    (first : List Text) :
    Yields (do return first ++ (← x)) m (walkMessages visits (written first stop))
      (written first stop).toOption := by
  rw [walkMessages, stopMessages_written, ← walkMessages]
  cases stop with
  | ok result => exact List.append_nil (walkMessages visits _) ▸ rest.bind (yields_pure _ _)
  | error name => exact rest.bind_none

theorem reports_resolveLines {n : Nat} (lines : List Text) {m : Moment} (start : Within library supply m)
    (enter : ∀ (m' : Moment) (chunk : Chunk), Within library supply (m'.visit chunk) →
      m.progress.visited.length < (m'.visit chunk).progress.visited.length →
      Reports library supply (m'.visit chunk) (Text.feedLines chunk.content) n
        (notices (library.chunks ++ m'.progress.supplied) (some chunk.name) chunk.content)
        fun fuel => expand library supply fuel (some chunk.name) chunk.content) :
    Reports library supply m lines n []
      fun fuel => resolveLines library supply (expand library supply fuel) lines := by
  induction lines generalizing m with
  | nil => exact ⟨[], .ok ([], m), .done, fun _ _ => yields_pure _ _⟩
  | cons line lines ih =>
    simp only [resolveLines_cons]
    cases parsed : Line.parse? line with
    | none =>
      obtain ⟨visits, stop, walk, run⟩ := ih start enter
      refine ⟨visits, _, .plain parsed walk, fun fuel le => ?_⟩
      simp only [resolveLine, parsed]
      exact (yields_pure _ _).bind ((run fuel le).bind_written [line])
    | some inclusion =>
      cases found : lookup library supply m inclusion.name with
      | none =>
        exact ⟨[], .error inclusion.name, .stuck parsed found, fun fuel le =>
          (yields_resolveLine_stuck _ parsed found).bind_none⟩
      | some result =>
        obtain ⟨chunk, m'⟩ := result
        obtain ⟨within, reached⟩ := start.lookup found
        have visited := lookup_visited found
        by_cases met : chunk.name ∈ m'.progress.visited
        · obtain ⟨visits, stop, walk, run⟩ := ih within (visited ▸ enter)
          refine ⟨visits, _, .again parsed found met walk, fun fuel le => ?_⟩
          exact (yields_resolveLine_again _ parsed found met).bind ((run fuel le).bind_written [[]])
        · have longer : m.progress.visited.length < (m'.visit chunk).progress.visited.length := by
            simp [Moment.visit, visited]
          obtain ⟨inner, stop, walk, run⟩ := enter m' chunk (within.visit reached met) longer
          cases stop with
          | error name =>
            refine ⟨_, .error name, .inside parsed found met walk, fun fuel le => ?_⟩
            rw [List.nil_append, walkMessages, List.flatMap_cons, List.append_assoc]
            exact (yields_resolveLine_enter parsed found met (run fuel le).bind_none).bind_none
          | ok result =>
            obtain ⟨included, between⟩ := result
            have further : m.progress.visited.length ≤ between.progress.visited.length := by
              rw [walk.visited rfl, List.length_append]
              omega
            obtain ⟨visits, stop, rest, run'⟩ := ih (walk.within (within.visit reached met) rfl)
              fun m'' chunk' within' longer' => enter m'' chunk' within' (by omega)
            refine ⟨_, _, .enter parsed found met walk rest, fun fuel le => ?_⟩
            have content : Yields (do
                let included ← expand library supply fuel (some chunk.name) chunk.content
                return included.map fun l => inclusion.before ++ l ++ inclusion.after) (m'.visit chunk)
                (notices (library.chunks ++ m'.progress.supplied) (some chunk.name) chunk.content ++
                  walkMessages inner (.ok (included, between)))
                (some (included.map fun l => inclusion.before ++ l ++ inclusion.after, between)) :=
              List.append_nil (_ ++ _) ▸ (run fuel le).bind (yields_pure _ _)
            rw [List.nil_append, walkMessages_enter]
            exact (yields_resolveLine_enter parsed found met content).bind ((run' fuel le).bind_written _)

/-- With fuel beyond the names that are left, the expansion of a text reports what its walk meets. -/
theorem reports_expand (n : Nat) {m : Moment} (start : Within library supply m)
    (enough : library.chunks.length + supply.names.length < n + m.progress.visited.length)
    (owner : Option String) (t : Text) :
    Reports library supply m (Text.feedLines t) n
      (notices (library.chunks ++ m.progress.supplied) owner t)
      fun fuel => expand library supply fuel owner t := by
  induction n generalizing m owner t with
  | zero =>
    have := start.length_le
    omega
  | succ n ih =>
    obtain ⟨visits, stop, walk, run⟩ := reports_resolveLines (Text.feedLines t) start
      fun m' chunk within longer => ih within (by omega) (some chunk.name) chunk.content
    refine ⟨visits, stop, walk, fun fuel le => ?_⟩
    obtain ⟨fuel, rfl⟩ : ∃ k, fuel = k + 1 := ⟨fuel - 1, by omega⟩
    simp only [expand_eq_resolveLines]
    exact (yields_checkIdentifiers library t owner m).bind (run fuel (by omega))

end Run

/-- What a resolution returns: the expanded lines as a text, and the chunks met. -/
def Resolved.ofWalk (walk : List Text × Progress) : Resolved :=
  ⟨Text.joinFeeds walk.1, walk.2.visited⟩

theorem runWith_resolve (library : ChunkLibrary) (supply : ChunkSupply) (t : Text) (r : Report) :
    (((resolve library supply t).runWith r).1.toOption =
      (((expand library supply (library.chunks.length + supply.names.length + 1) none t).run {}).runWith
        r).1.toOption.map Resolved.ofWalk) ∧
    ((resolve library supply t).runWith r).2 =
      (((expand library supply (library.chunks.length + supply.names.length + 1) none t).run {}).runWith
        r).2 := by
  have unfolded : resolve library supply t =
      (expand library supply (library.chunks.length + supply.names.length + 1) none t).run {} >>=
        fun walk => pure (Resolved.ofWalk walk) := rfl
  rw [unfolded, Compile.runWith_bind]
  rcases ((expand library supply _ none t).run {}).runWith r with ⟨_ | _, s⟩ <;> exact ⟨rfl, rfl⟩

/-- A resolution, under a report that does not stop at errors, is a walk over the lines of the text, with
any fuel beyond the names of the library and of the supply. -/
theorem exists_walk (library : ChunkLibrary) (supply : ChunkSupply) (t : Text) {r : Report}
    (lenient : r.throwOnError = false) :
    ∃ visits stop, Walk library supply ⟨r.chunkQueries, {}⟩ (Text.feedLines t) visits stop ∧
      (∀ fuel, library.chunks.length + supply.names.length < fuel →
        (((expand library supply fuel none t).run {}).runWith r).1.toOption =
          stop.toOption.map fun walked => (walked.1, walked.2.progress)) ∧
      ((resolve library supply t).runWith r).1.toOption =
        stop.toOption.map (fun walked => Resolved.ofWalk (walked.1, walked.2.progress)) ∧
      ((resolve library supply t).runWith r).2.messages =
        r.messages ++ (notices library.chunks none t ++ walkMessages visits stop) := by
  have start : Within library supply ⟨r.chunkQueries, {}⟩ :=
    ⟨List.nodup_nil, List.nil_subset _, nofun⟩
  obtain ⟨visits, stop, walk, run⟩ := reports_expand
    (library.chunks.length + supply.names.length + 1) start (Nat.lt_succ_self _) none t
  have ends (fuel : Nat) (enough : library.chunks.length + supply.names.length < fuel) :
      (((expand library supply fuel none t).run {}).runWith r).1.toOption =
        stop.toOption.map (fun walked => (walked.1, walked.2.progress)) ∧
      (((expand library supply fuel none t).run {}).runWith r).2.messages =
        r.messages ++ (notices library.chunks none t ++ walkMessages visits stop) := by
    obtain ⟨returned, s, ran, -, messages, value⟩ := run fuel enough r lenient rfl
    have known : library.chunks ++ (Progress.mk [] []).supplied = library.chunks := List.append_nil _
    rw [known] at messages
    rw [ran]
    refine ⟨?_, messages⟩
    cases stop with
    | ok walked =>
      obtain ⟨rfl, -⟩ := value
      rfl
    | error name =>
      obtain ⟨failure, rfl⟩ := value
      rfl
  obtain ⟨value, report⟩ := runWith_resolve library supply t r
  obtain ⟨returned, messages⟩ := ends _ (Nat.lt_succ_self _)
  refine ⟨visits, stop, walk, fun fuel enough => (ends fuel enough).1, ?_, report ▸ messages⟩
  rw [value, returned, Option.map_map]
  rfl

theorem toOption_eq_some_iff {α : Type} {result : Except Failure α} {a : α} :
    result.toOption = some a ↔ result = .ok a := by
  cases result with
  | error e => exact ⟨nofun, nofun⟩
  | ok b => exact ⟨fun h => congrArg _ (Option.some.inj h), fun h => congrArg _ (Except.ok.inj h)⟩

end ShaderPass.Include
