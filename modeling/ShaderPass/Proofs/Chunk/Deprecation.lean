import ShaderPass.Proofs.Chunk.Walk

/-! What a resolution reports. Every text is checked where its expansion starts, against the chunks that
are known by then: those of the library, and those that were supplied before. -/
namespace ShaderPass.Include

section Walks

variable {library : ChunkLibrary} {supply : ChunkSupply} {m m' : Moment} {lines output : List Text}
  {visits : List Visit} {stop : Except Text (List Text × Moment)}

theorem Walk.fresh (h : Walk library supply m lines visits stop) :
    ∀ v ∈ visits, v.chunk.name ∉ m.progress.visited := by
  induction h with
  | done => exact nofun
  | plain _ _ ih => exact ih
  | again _ found _ _ ih => exact lookup_visited found ▸ ih
  | @enter m m' between _ _ _ inner _ _ _ chunk _ found new walk _ ih ih' =>
    have older {v : String} (h : v ∈ m.progress.visited) : v ∈ (m'.visit chunk).progress.visited :=
      List.mem_append_left _ (lookup_visited found ▸ h)
    intro v member listed
    rcases List.mem_cons.1 member with rfl | member
    · exact new (lookup_visited found ▸ listed)
    rcases List.mem_append.1 member with member | member
    · exact ih v member (older listed)
    · refine ih' v member ?_
      rw [walk.visited rfl]
      exact List.mem_append_left _ (older listed)
  | stuck => exact nofun
  | @inside m m' _ _ inner _ chunk _ _ found new _ ih =>
    intro v member listed
    rcases List.mem_cons.1 member with rfl | member
    · exact new (lookup_visited found ▸ listed)
    · exact ih v member (List.mem_append_left _ (lookup_visited found ▸ listed))

/-- The supply answers with a chunk that was asked for. -/
def Honest (supply : ChunkSupply) : Prop :=
  ∀ earlier names chunk, supply.find? earlier names = some chunk → chunk.name ∈ names

theorem lookup_known (honest : Honest supply) {name : Text} {chunk : Chunk}
    (found : lookup library supply m name = some (chunk, m')) :
    (∀ c ∈ library.chunks ++ m.progress.supplied, c ∈ library.chunks ++ m'.progress.supplied) ∧
      chunk ∈ library.chunks ++ m'.progress.supplied := by
  rcases lookup_cases found with ⟨known, rfl⟩ | ⟨others, answer, -, supplied⟩
  · exact ⟨fun _ => id, known⟩
  · have new : chunk.name ∉ m.progress.supplied.map Chunk.name := by
      intro listed
      obtain ⟨c, member, same⟩ := List.mem_map.1 listed
      exact others c member (same ▸ honest _ _ _ answer)
    rw [supplied, Table.upsert_of_notMem new, ← List.append_assoc]
    exact ⟨fun c known => List.mem_append_left _ known, List.mem_append_right _ (List.mem_singleton_self _)⟩

theorem Walk.known (h : Walk library supply m lines visits stop) (honest : Honest supply) {c : Chunk}
    (known : c ∈ library.chunks ++ m.progress.supplied) :
    (∀ v ∈ visits, c ∈ v.known) ∧
      ∀ output m', stop = .ok (output, m') → c ∈ library.chunks ++ m'.progress.supplied := by
  induction h with
  | done =>
    refine ⟨nofun, fun output m' ended => ?_⟩
    cases ended
    exact known
  | plain _ _ ih =>
    refine ⟨(ih known).1, fun output m' ended => ?_⟩
    obtain ⟨rest, ended, -⟩ := exists_of_written ended
    exact (ih known).2 rest m' ended
  | again _ found _ _ ih =>
    have later := ih ((lookup_known honest found).1 c known)
    refine ⟨later.1, fun output m' ended => ?_⟩
    obtain ⟨rest, ended, -⟩ := exists_of_written ended
    exact later.2 rest m' ended
  | enter _ found _ _ _ ih ih' =>
    have later := (lookup_known honest found).1 c known
    have inner := ih later
    have behind := ih' (inner.2 _ _ rfl)
    refine ⟨fun v member => ?_, fun output m' ended => ?_⟩
    · rcases List.mem_cons.1 member with rfl | member
      · exact later
      · exact (List.mem_append.1 member).elim (inner.1 v) (behind.1 v)
    · obtain ⟨rest, ended, -⟩ := exists_of_written ended
      exact behind.2 rest m' ended
  | stuck => exact ⟨nofun, nofun⟩
  | inside _ found _ _ ih =>
    have later := (lookup_known honest found).1 c known
    refine ⟨fun v member => ?_, nofun⟩
    rcases List.mem_cons.1 member with rfl | member
    · exact later
    · exact (ih later).1 v member

theorem Walk.entered_known (h : Walk library supply m lines visits stop) (honest : Honest supply)
    (ended : stop = .ok (output, m')) : ∀ v ∈ visits, v.chunk ∈ library.chunks ++ m'.progress.supplied := by
  induction h generalizing output m' with
  | done => exact nofun
  | plain _ _ ih =>
    obtain ⟨_, ended, -⟩ := exists_of_written ended
    exact ih ended
  | again _ _ _ _ ih =>
    obtain ⟨_, ended, -⟩ := exists_of_written ended
    exact ih ended
  | enter _ found _ walk rest ih ih' =>
    obtain ⟨_, ended, -⟩ := exists_of_written ended
    intro v member
    rcases List.mem_cons.1 member with rfl | member
    · have inner := (walk.known honest (lookup_known honest found).2).2 _ _ rfl
      exact (rest.known honest inner).2 _ _ ended
    rcases List.mem_append.1 member with member | member
    · exact (rest.known honest (ih rfl v member)).2 _ _ ended
    · exact ih' ended v member
  | stuck => exact nofun
  | inside => cases ended

theorem Walk.pairwise_known (h : Walk library supply m lines visits stop) (honest : Honest supply) :
    visits.Pairwise fun v w => v.chunk ∈ w.known ∧ v.chunk.name ≠ w.chunk.name := by
  induction h with
  | done => exact .nil
  | plain _ _ ih => exact ih
  | again _ _ _ _ ih => exact ih
  | @enter m m' between _ _ _ inner _ _ _ chunk parsed found new walk rest ih ih' =>
    have visited := walk.visited rfl
    have listed : chunk.name ∈ (m'.visit chunk).progress.visited :=
      List.mem_append_right _ (List.mem_singleton_self _)
    have known := walk.known honest (lookup_known honest found).2
    refine List.pairwise_cons.2 ⟨fun w member => ?_, List.pairwise_append.2 ⟨ih, ih', ?_⟩⟩
    · rcases List.mem_append.1 member with member | member
      · exact ⟨known.1 w member, fun same => walk.fresh w member (same ▸ listed)⟩
      · refine ⟨(rest.known honest (known.2 _ _ rfl)).1 w member, fun same => rest.fresh w member ?_⟩
        rw [visited, ← same]
        exact List.mem_append_left _ listed
    · intro v first w second
      refine ⟨(rest.known honest (walk.entered_known honest rfl v first)).1 w second,
        fun same => rest.fresh w second ?_⟩
      rw [visited, ← same]
      exact List.mem_append_right _ (List.mem_map_of_mem first)
  | stuck => exact .nil
  | @inside m m' _ _ inner _ chunk _ parsed found new walk ih =>
    refine List.pairwise_cons.2 ⟨fun w member => ⟨?_, fun same => ?_⟩, ih⟩
    · exact (walk.known honest (lookup_known honest found).2).1 w member
    · refine walk.fresh w member (same ▸ ?_)
      exact List.mem_append_right _ (List.mem_singleton_self _)

end Walks

theorem honest_ofChunks (chunks : List Chunk) : Honest (.ofChunks chunks) := by
  intro _ names chunk found
  obtain ⟨name, listed, answer⟩ := List.exists_of_findSome?_eq_some found
  have same : chunk.name = name := by simpa using List.find?_some answer
  exact same ▸ listed

/-- The messages of a resolution, under a report that does not stop at errors. The text is checked
against the library alone, so its deprecated identifiers are reported where their chunk is registered.
A supplied chunk is known from where it is found: its identifiers are reported in the chunks that are
entered after it, and not in the text that asked for it. -/
theorem deprecated_reported (library : ChunkLibrary) (supply : ChunkSupply) (t : Text) (r : Report)
    (lenient : r.throwOnError = false) :
    ∃ visits stop, Walk library supply ⟨r.chunkQueries, {}⟩ (Text.feedLines t) visits stop ∧
      ((∃ resolved, ((resolve library supply t).runWith r).1 = .ok resolved) ↔ ∃ m, stop = .ok m) ∧
      ((resolve library supply t).runWith r).2.messages =
        r.messages ++ (notices library.chunks none t ++ walkMessages visits stop) ∧
      (∀ c ∈ library.chunks, ∀ entry ∈ c.deprecatedIdentifiers,
        Text.containsWord t entry.1.toList = true →
          identifierNotice entry.1 entry.2 ∈ ((resolve library supply t).runWith r).2.messages) ∧
      (Honest supply → visits.Pairwise fun v w => ∀ entry ∈ v.chunk.deprecatedIdentifiers,
        Text.containsWord w.chunk.content entry.1.toList = true →
          identifierNotice entry.1 entry.2 ∈ ((resolve library supply t).runWith r).2.messages) := by
  obtain ⟨visits, stop, walk, -, run, messages⟩ := exists_walk library supply t lenient
  refine ⟨visits, stop, walk, ?_, messages, ?_, fun honest => ?_⟩
  · cases stop with
    | ok walked => exact ⟨fun _ => ⟨walked, rfl⟩, fun _ => ⟨_, toOption_eq_some_iff.1 run⟩⟩
    | error name =>
      refine ⟨fun ⟨resolved, returned⟩ => ?_, fun ⟨_, ended⟩ => nomatch ended⟩
      cases run.symm.trans (toOption_eq_some_iff.2 returned)
  · intro c registered entry listed used
    rw [messages]
    refine List.mem_append_right _ (List.mem_append_left _ ?_)
    exact mem_notices.2 ⟨c, registered, nofun, entry, listed, used, rfl⟩
  · refine (walk.pairwise_known honest).imp_of_mem ?_
    intro v w _ entered ⟨known, differ⟩ entry listed used
    rw [messages]
    refine List.mem_append_right _ (List.mem_append_right _ (List.mem_append_left _ ?_))
    refine List.mem_flatMap.2 ⟨w, entered, List.mem_append_right _ ?_⟩
    have other : some v.chunk.name ≠ some w.chunk.name := fun same => differ (Option.some.inj same)
    exact mem_notices.2 ⟨v.chunk, known, other, entry, listed, used, rfl⟩

/-- A text that uses identifiers of a registered chunk and of a supplied one, which is found before the
chunk that uses its identifier. -/
theorem deprecated_reported_supplied :
    let library := ({} : ChunkLibrary).add "base" "#pragma deprecate-identifier older use newer".toList
    let supply := ChunkSupply.ofChunks
      [.ofSource "light" "#pragma deprecate-identifier dim use dark\ndim".toList,
        .ofSource "scene" "dim".toList]
    let t := "#include <light>\n#include <scene>\nolder".toList
    let r : Report := { throwOnError := false }
    r.throwOnError = false ∧ Honest supply ∧
      ((resolve library supply t).runWith r).2.messages =
        [identifierNotice "older" "use newer", identifierNotice "dim" "use dark"] ∧
      ∃ visits stop, Walk library supply ⟨r.chunkQueries, {}⟩ (Text.feedLines t) visits stop ∧
        [identifierNotice "older" "use newer", identifierNotice "dim" "use dark"] =
          notices library.chunks none t ++ walkMessages visits stop := by
  intro library supply t r
  have messages : ((resolve library supply t).runWith r).2.messages =
      [identifierNotice "older" "use newer", identifierNotice "dim" "use dark"] := by decide +kernel
  obtain ⟨visits, stop, walk, -, reported, -⟩ := deprecated_reported library supply t r rfl
  exact ⟨rfl, honest_ofChunks _, messages, visits, stop, walk, messages.symm.trans reported⟩

/-- The identifiers of a chunk are reported in a text that includes it where the chunk is registered,
and not where it is supplied. -/
theorem not_deprecated_reported :
    let light := Chunk.ofSource "light" "#pragma deprecate-identifier dim use dark".toList
    let t := "#include <light>\nfloat a = dim;".toList
    let supply := ChunkSupply.ofChunks [light]
    let library := ({} : ChunkLibrary).add "light" "#pragma deprecate-identifier dim use dark".toList
    let r : Report := { throwOnError := false }
    (∃ line ∈ Text.feedLines t, ∃ inclusion, Line.parse? line = some inclusion ∧
      supply.find? r.chunkQueries (candidates inclusion.name) = some light ∧
      library.find? (candidates inclusion.name) = some light) ∧
    ("dim", "use dark") ∈ light.deprecatedIdentifiers ∧
    (∀ c ∈ "dim".toList, isIdentChar c = true) ∧ Text.containsWord t "dim".toList = true ∧
    ((resolve library .none t).runWith r).2.messages = [identifierNotice "dim" "use dark"] ∧
    ¬ identifierNotice "dim" "use dark" ∈ ((resolve {} supply t).runWith r).2.messages := by
  intro light t supply library r
  refine ⟨⟨"#include <light>".toList, by decide +kernel, ⟨[], "light".toList, []⟩, ?_⟩, ?_⟩
  · decide +kernel
  · exact ⟨by decide +kernel, List.all_eq_true.1 (by decide +kernel), by decide +kernel⟩

end ShaderPass.Include
