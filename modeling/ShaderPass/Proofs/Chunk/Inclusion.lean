import ShaderPass.Proofs.Chunk.Walk

/-! Include resolution walks the include graph depth first. Every chunk it meets is expanded where it
is met first, so the walk ends on cyclic libraries too, and it fails only at an include that names no
chunk. -/
namespace ShaderPass.Include

section Graph

def Includes (library : ChunkLibrary) (lines : List Text) (chunk : Chunk) : Prop :=
  ∃ line ∈ lines, ∃ inclusion, Line.parse? line = some inclusion ∧
    library.find? (candidates inclusion.name) = some chunk

inductive Reachable (library : ChunkLibrary) (lines : List Text) : Chunk → Prop where
  | direct {chunk} : Includes library lines chunk → Reachable library lines chunk
  | through {chunk chunk'} : Reachable library lines chunk →
      Includes library (Text.feedLines chunk.content) chunk' → Reachable library lines chunk'

def Resolves (library : ChunkLibrary) (lines : List Text) : Prop :=
  ∀ line ∈ lines, ∀ inclusion, Line.parse? line = some inclusion →
    ∃ chunk, library.find? (candidates inclusion.name) = some chunk

/-- Depth-first expansion: `lines` become `output`, and the names `visited` so far become `visited'`.
A chunk is entered, and listed, where it is met first. -/
inductive Expands (library : ChunkLibrary) :
    (visited : List String) → (lines output : List Text) → (visited' : List String) → Prop where
  | nil {visited} : Expands library visited [] [] visited
  | plain {visited line lines output visited'} : Line.parse? line = none →
      Expands library visited lines output visited' →
      Expands library visited (line :: lines) (line :: output) visited'
  | again {visited line lines output visited' inclusion chunk} :
      Line.parse? line = some inclusion →
      library.find? (candidates inclusion.name) = some chunk → chunk.name ∈ visited →
      Expands library visited lines output visited' →
      Expands library visited (line :: lines) ([] :: output) visited'
  | fresh {visited line lines output visited' inclusion chunk inner between} :
      Line.parse? line = some inclusion →
      library.find? (candidates inclusion.name) = some chunk → chunk.name ∉ visited →
      Expands library (visited ++ [chunk.name]) (Text.feedLines chunk.content) inner between →
      Expands library between lines output visited' →
      Expands library visited (line :: lines)
        (inner.map (fun l => inclusion.before ++ l ++ inclusion.after) ++ output) visited'

variable {library : ChunkLibrary} {lines lines' output : List Text} {visited visited' : List String}

theorem name_of_find?_eq_some {names : List String} {chunk : Chunk}
    (found : library.find? names = some chunk) : library.get? chunk.name = some chunk := by
  obtain ⟨name, -, found⟩ := List.exists_of_findSome?_eq_some found
  have : chunk.name = name := by simpa using List.find?_some found
  rwa [this]

theorem Includes.mono {chunk : Chunk} (h : Includes library lines chunk) (sub : lines ⊆ lines') :
    Includes library lines' chunk := by
  obtain ⟨line, member, rest⟩ := h
  exact ⟨line, sub member, rest⟩

theorem Reachable.mono {chunk : Chunk} (h : Reachable library lines chunk) (sub : lines ⊆ lines') :
    Reachable library lines' chunk := by
  induction h with
  | direct included => exact .direct (included.mono sub)
  | through _ included ih => exact .through ih included

theorem Reachable.from_chunk {chunk chunk' : Chunk} (first : Includes library lines chunk)
    (h : Reachable library (Text.feedLines chunk.content) chunk') :
    Reachable library lines chunk' := by
  induction h with
  | direct included => exact .through (.direct first) included
  | through _ included ih => exact .through ih included

theorem Expands.subset (h : Expands library visited lines output visited') : visited ⊆ visited' := by
  induction h with
  | nil => exact List.Subset.refl _
  | plain _ _ ih => exact ih
  | again _ _ _ _ ih => exact ih
  | fresh _ _ _ _ _ inner later =>
    exact List.Subset.trans (List.Subset.trans (List.subset_append_left _ _) inner) later

theorem Expands.reachable (h : Expands library visited lines output visited') {name : String}
    (listed : name ∈ visited') (added : name ∉ visited) :
    ∃ chunk, Reachable library lines chunk ∧ chunk.name = name := by
  induction h with
  | nil => exact absurd listed added
  | plain _ _ ih =>
    obtain ⟨chunk, reached, same⟩ := ih listed added
    exact ⟨chunk, reached.mono (List.subset_cons_self _ _), same⟩
  | again _ _ _ _ ih =>
    obtain ⟨chunk, reached, same⟩ := ih listed added
    exact ⟨chunk, reached.mono (List.subset_cons_self _ _), same⟩
  | @fresh visited line lines output visited' inclusion chunk inner between parsed found _ _ _ ih ih' =>
    have first : Includes library (line :: lines) chunk :=
      ⟨line, List.mem_cons_self, inclusion, parsed, found⟩
    by_cases earlier : name ∈ between
    · by_cases entered : name = chunk.name
      · exact ⟨chunk, .direct first, entered.symm⟩
      · obtain ⟨chunk', reached, same⟩ := ih earlier (by simp [added, entered])
        exact ⟨chunk', .from_chunk first reached, same⟩
    · obtain ⟨chunk', reached, same⟩ := ih' listed earlier
      exact ⟨chunk', reached.mono (List.subset_cons_self _ _), same⟩

def Covered (library : ChunkLibrary) (lines : List Text) (visited : List String) : Prop :=
  Resolves library lines ∧ ∀ chunk, Includes library lines chunk → chunk.name ∈ visited

theorem Covered.mono (h : Covered library lines visited) (sub : visited ⊆ visited') :
    Covered library lines visited' :=
  ⟨h.1, fun chunk included => sub (h.2 chunk included)⟩

theorem covered_cons {line : Text}
    (first : ∀ inclusion, Line.parse? line = some inclusion →
      ∃ chunk, library.find? (candidates inclusion.name) = some chunk ∧ chunk.name ∈ visited)
    (h : Covered library lines visited) : Covered library (line :: lines) visited := by
  constructor
  · intro l member inclusion parsed
    rcases List.mem_cons.1 member with rfl | member
    · obtain ⟨chunk, found, -⟩ := first inclusion parsed
      exact ⟨chunk, found⟩
    · exact h.1 l member inclusion parsed
  · rintro chunk ⟨l, member, inclusion, parsed, found⟩
    rcases List.mem_cons.1 member with rfl | member
    · obtain ⟨chunk', found', listed⟩ := first inclusion parsed
      exact Option.some.inj (found'.symm.trans found) ▸ listed
    · exact h.2 chunk ⟨l, member, inclusion, parsed, found⟩

theorem Expands.covered (h : Expands library visited lines output visited') :
    Covered library lines visited' ∧ ∀ chunk, library.get? chunk.name = some chunk →
      chunk.name ∈ visited' → chunk.name ∉ visited →
        Covered library (Text.feedLines chunk.content) visited' := by
  induction h with
  | nil => exact ⟨⟨nofun, nofun⟩, fun _ _ listed added => absurd listed added⟩
  | plain parsed _ ih => exact ⟨covered_cons (fun _ other => nomatch parsed.symm.trans other) ih.1, ih.2⟩
  | @again _ _ _ _ _ _ entered parsed found listed walk ih =>
    refine ⟨covered_cons (fun inclusion other => ?_) ih.1, ih.2⟩
    obtain rfl := Option.some.inj (parsed.symm.trans other)
    exact ⟨entered, found, walk.subset listed⟩
  | @fresh visited line lines output visited' inclusion entered inner between parsed found _ walk later
      ih ih' =>
    have listed : entered.name ∈ visited' := later.subset (walk.subset (by simp))
    refine ⟨covered_cons (fun inclusion other => ?_) ih'.1, fun chunk known member added => ?_⟩
    · obtain rfl := Option.some.inj (parsed.symm.trans other)
      exact ⟨entered, found, listed⟩
    by_cases earlier : chunk.name ∈ between
    · by_cases same : chunk.name = entered.name
      · obtain rfl := Option.some.inj ((same ▸ known).symm.trans (name_of_find?_eq_some found))
        exact ih.1.mono later.subset
      · exact (ih.2 chunk known earlier (by simp [added, same])).mono later.subset
    · exact ih'.2 chunk known member earlier

theorem Includes.get?_name {chunk : Chunk} (h : Includes library lines chunk) :
    library.get? chunk.name = some chunk := by
  obtain ⟨_, _, _, _, found⟩ := h
  exact name_of_find?_eq_some found

theorem Expands.complete (h : Expands library [] lines output visited) :
    Resolves library lines ∧ ∀ chunk, Reachable library lines chunk →
      chunk.name ∈ visited ∧ Resolves library (Text.feedLines chunk.content) := by
  obtain ⟨covered, entered⟩ := h.covered
  have inside {chunk : Chunk} {around : List Text} (outer : Covered library around visited)
      (included : Includes library around chunk) : chunk.name ∈ visited ∧
        Covered library (Text.feedLines chunk.content) visited :=
    have listed := outer.2 chunk included
    ⟨listed, entered chunk included.get?_name listed List.not_mem_nil⟩
  refine ⟨covered.1, fun chunk reached => ?_⟩
  have : chunk.name ∈ visited ∧ Covered library (Text.feedLines chunk.content) visited := by
    induction reached with
    | direct included => exact inside covered included
    | through _ included ih => exact inside ih.2 included
  exact ⟨this.1, this.2.1⟩

end Graph

section Unsupplied

variable {library : ChunkLibrary} {m m' : Moment} {lines output : List Text} {visits : List Visit}
  {stop : Except Text (List Text × Moment)}

theorem lookup_none (unsupplied : m.progress.supplied = []) (name : Text) :
    lookup library .none m name = (library.find? (candidates name)).map fun chunk => (chunk, m) := by
  have nothing : ((candidates name).findSome? fun n =>
      m.progress.supplied.find? fun chunk => chunk.name = n) = none := by simp [unsupplied]
  unfold lookup
  simp only [nothing]
  cases library.find? (candidates name) <;> rfl

theorem find?_of_lookup_none {name : Text} {chunk : Chunk} (unsupplied : m.progress.supplied = [])
    (found : lookup library .none m name = some (chunk, m')) :
    library.find? (candidates name) = some chunk ∧ m' = m := by
  rw [lookup_none unsupplied] at found
  obtain ⟨_, registered, same⟩ := Option.map_eq_some_iff.1 found
  cases same
  exact ⟨registered, rfl⟩

theorem Walk.expands (h : Walk library .none m lines visits stop)
    (unsupplied : m.progress.supplied = []) (ended : stop = .ok (output, m')) :
    m'.progress.supplied = [] ∧
      Expands library m.progress.visited lines output m'.progress.visited := by
  induction h generalizing output m' with
  | done =>
    cases ended
    exact ⟨unsupplied, .nil⟩
  | plain parsed _ ih =>
    obtain ⟨rest, behind, rfl⟩ := exists_of_written ended
    obtain ⟨later, expands⟩ := ih unsupplied behind
    exact ⟨later, .plain parsed expands⟩
  | again parsed found met _ ih =>
    obtain ⟨rest, behind, rfl⟩ := exists_of_written ended
    obtain ⟨registered, rfl⟩ := find?_of_lookup_none unsupplied found
    obtain ⟨later, expands⟩ := ih unsupplied behind
    exact ⟨later, .again parsed registered met expands⟩
  | enter parsed found new _ _ ih ih' =>
    obtain ⟨rest, behind, rfl⟩ := exists_of_written ended
    obtain ⟨registered, rfl⟩ := find?_of_lookup_none unsupplied found
    obtain ⟨between, inner⟩ := ih unsupplied rfl
    obtain ⟨later, expands⟩ := ih' between behind
    exact ⟨later, .fresh parsed registered new inner expands⟩
  | stuck => cases ended
  | inside => cases ended

theorem Walk.unresolved_reachable (h : Walk library .none m lines visits stop)
    (unsupplied : m.progress.supplied = []) {name : Text} (ended : stop = .error name) :
    ¬ (Resolves library lines ∧
      ∀ chunk, Reachable library lines chunk → Resolves library (Text.feedLines chunk.content)) := by
  have later {line : Text} {lines : List Text} {stop : Except Text (List Text × Moment)}
      {first : List Text} (ended : written first stop = .error name)
      (ih : stop = .error name → ¬ (Resolves library lines ∧
        ∀ chunk, Reachable library lines chunk → Resolves library (Text.feedLines chunk.content))) :
      ¬ (Resolves library (line :: lines) ∧ ∀ chunk, Reachable library (line :: lines) chunk →
        Resolves library (Text.feedLines chunk.content)) := by
    rintro ⟨resolves, nested⟩
    refine ih ?_ ⟨fun l member => resolves l (List.mem_cons_of_mem _ member),
      fun chunk reached => nested chunk (reached.mono (List.subset_cons_self _ _))⟩
    cases stop with
    | ok result => cases ended
    | error => exact ended
  induction h with
  | done => cases ended
  | plain _ _ ih => exact later ended (ih unsupplied)
  | again _ found _ _ ih =>
    obtain ⟨-, rfl⟩ := find?_of_lookup_none unsupplied found
    exact later ended (ih unsupplied)
  | enter parsed found new walk _ _ ih =>
    obtain ⟨-, rfl⟩ := find?_of_lookup_none unsupplied found
    exact later ended (ih (walk.expands unsupplied rfl).1)
  | stuck parsed missing =>
    rintro ⟨resolves, -⟩
    obtain ⟨chunk, found⟩ := resolves _ List.mem_cons_self _ parsed
    rw [lookup_none unsupplied, found] at missing
    cases missing
  | @inside m m' line lines _ inclusion chunk _ parsed found _ _ ih =>
    obtain ⟨registered, rfl⟩ := find?_of_lookup_none unsupplied found
    rintro ⟨-, resolves⟩
    have first : Includes library (line :: lines) chunk :=
      ⟨line, List.mem_cons_self, inclusion, parsed, registered⟩
    exact ih unsupplied ended
      ⟨resolves chunk (.direct first), fun chunk' reached => resolves chunk' (.from_chunk first reached)⟩

end Unsupplied

/-- Resolution without a supply, under a report that does not stop at errors. More fuel changes
nothing; it succeeds just if every include line of the text and of the chunks it reaches names a chunk;
and then it lists the reachable chunks once each, as a depth-first walk meets them, and its text is what
that walk writes. -/
theorem resolve_exact (library : ChunkLibrary) (t : Text) (r : Report)
    (lenient : r.throwOnError = false) :
    (∀ fuel, library.chunks.length < fuel →
      (((expand library .none fuel none t).run {}).runWith r).1.toOption.map Resolved.ofWalk =
        ((resolve library .none t).runWith r).1.toOption) ∧
    ((∃ resolved, ((resolve library .none t).runWith r).1 = .ok resolved) ↔
      Resolves library (Text.feedLines t) ∧ ∀ chunk, Reachable library (Text.feedLines t) chunk →
        Resolves library (Text.feedLines chunk.content)) ∧
    ∀ resolved, ((resolve library .none t).runWith r).1 = .ok resolved →
      resolved.record.Nodup ∧
      (∀ name, name ∈ resolved.record ↔
        ∃ chunk, Reachable library (Text.feedLines t) chunk ∧ chunk.name = name) ∧
      ∃ lines, Expands library [] (Text.feedLines t) lines resolved.record ∧
        resolved.text = Text.joinFeeds lines := by
  obtain ⟨visits, stop, walk, leads, run, -⟩ := exists_walk library .none t lenient
  refine ⟨fun fuel enough => ?_, ?_⟩
  · rw [leads fuel enough, run, Option.map_map]
    rfl
  cases stop with
  | ok walked =>
    obtain ⟨lines, m⟩ := walked
    have returned : ((resolve library .none t).runWith r).1 = .ok ⟨Text.joinFeeds lines, m.progress.visited⟩ :=
      toOption_eq_some_iff.1 run
    have start : Within library .none ⟨r.chunkQueries, {}⟩ := ⟨List.nodup_nil, List.nil_subset _, nofun⟩
    obtain ⟨-, expands⟩ := walk.expands rfl rfl
    obtain ⟨resolves, reachable⟩ := expands.complete
    refine ⟨⟨fun _ => ⟨resolves, fun chunk reached => (reachable chunk reached).2⟩,
      fun _ => ⟨_, returned⟩⟩, ?_⟩
    intro resolved returned'
    obtain rfl := Except.ok.inj (returned.symm.trans returned')
    refine ⟨(walk.within start rfl).nodup, fun name => ⟨fun listed => ?_, ?_⟩, lines, expands, rfl⟩
    · exact expands.reachable listed List.not_mem_nil
    · rintro ⟨chunk, reached, rfl⟩
      exact (reachable chunk reached).1
  | error name =>
    have failed (resolved : Resolved) : ((resolve library .none t).runWith r).1 ≠ .ok resolved :=
      fun returned => nomatch run.symm.trans (toOption_eq_some_iff.2 returned)
    exact ⟨⟨fun ⟨resolved, returned⟩ => absurd returned (failed resolved),
      fun resolves => absurd resolves (walk.unresolved_reachable rfl rfl)⟩,
      fun resolved returned => absurd returned (failed resolved)⟩

theorem resolve_exact_cyclic :
    let library := ((({} : ChunkLibrary).add "a"
      "A\n#include <a>\n// #include <c>\n<#include <lib/b.chunk>>".toList).add "b"
      "B\n#include \"a.chunk\"".toList).add "c" "C".toList
    let t := "#include \"a\"\n#include <b>\nend".toList
    let r : Report := { throwOnError := false }
    r.throwOnError = false ∧
      ((resolve library .none t).runWith r).1 =
        .ok ⟨"A\n\n// #include <c>\n<B>\n<>\n\nend".toList, ["a", "b"]⟩ ∧
      ∀ name, name ∈ ["a", "b"] ↔
        ∃ chunk, Reachable library (Text.feedLines t) chunk ∧ chunk.name = name := by
  intro library t r
  have returned : ((resolve library .none t).runWith r).1 =
      .ok ⟨"A\n\n// #include <c>\n<B>\n<>\n\nend".toList, ["a", "b"]⟩ :=
    toOption_eq_some_iff.1 (by decide +kernel)
  exact ⟨rfl, returned, ((resolve_exact library t r rfl).2.2 _ returned).2.1⟩

end ShaderPass.Include
