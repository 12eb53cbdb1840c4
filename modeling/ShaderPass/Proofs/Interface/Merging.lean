import ShaderPass.Interface
import ShaderPass.Proofs.Diagnostic.Outcome

/-! Merging declarations: what every descriptor of an interface holds after declarations have been
added to it call by call, and what a conflict leaves behind. -/
namespace ShaderPass.Interface

def declared (ds : List (Category × Descriptor)) (c : Category) : List Descriptor :=
  (ds.filter fun entry => entry.1 = c).map Prod.snd

/-- A descriptor made of all declarations of its name: the flags of all of them, the first slots that
are set, the first value of every tag, and otherwise the first declaration. -/
structure Merges (ds : List Descriptor) (d : Descriptor) : Prop where
  stageFlags : d.stageFlags = ds.foldl (fun flags e => flags ||| e.stageFlags) 0
  binding : d.binding = ds.findSome? Descriptor.binding
  location : d.location = ds.findSome? Descriptor.location
  tags : ∀ key, Table.get? d.tags key = ds.findSome? fun e => Table.get? e.tags key
  others : ∃ first, ds.head? = some first ∧
    d = { first with
      stageFlags := d.stageFlags, binding := d.binding, location := d.location, tags := d.tags }

/-- An interface that holds the given declarations and no others, each name once, in the order of the
first declarations. -/
structure IsMerge (ds : List (Category × Descriptor)) (info : Interface) : Prop where
  names : ∀ c, (info.list c).map Descriptor.name = ((declared ds c).map Descriptor.name).eraseDups
  distinct : ∀ c, ((info.list c).map Descriptor.name).Nodup
  merges : ∀ c, ∀ d ∈ info.list c, Merges ((declared ds c).filter fun e => e.name = d.name) d

inductive Added : List (List (Category × Descriptor)) → Interface → Prop
  | empty : Added [] {}
  | call {calls : List (List (Category × Descriptor))} {info info' : Interface}
    {ds : List (Category × Descriptor)} {r : Report} (earlier : Added calls info)
    (added : ((info.addAll ds).run r).1 = (.ok (), info')) : Added (calls ++ [ds]) info'

theorem declared_append (ds es : List (Category × Descriptor)) (c : Category) :
    declared (ds ++ es) c = declared ds c ++ declared es c := by
  simp [declared]

theorem declared_singleton_self (c : Category) (d : Descriptor) : declared [(c, d)] c = [d] := by
  simp [declared]

theorem declared_singleton_of_ne {c c' : Category} (d : Descriptor) (other : c' ≠ c) :
    declared [(c, d)] c' = [] := by
  simp [declared, Ne.symm other]

theorem get?_tags_mergeDescriptor (existing other : Descriptor) (key : String) :
    Table.get? (mergeDescriptor existing other).tags key =
      (Table.get? existing.tags key).or (Table.get? other.tags key) := by
  show Table.get? (other.tags.foldl (fun tags entry =>
    if (Table.get? tags entry.1).isSome then tags else tags ++ [entry]) existing.tags) key = _
  generalize existing.tags = known
  induction other.tags generalizing known with
  | nil => simp [Table.get?]
  | cons entry rest ih =>
    have one : Table.get? (entry :: rest) key =
        (Table.get? [entry] key).or (Table.get? rest key) := Table.get?_append [entry] rest key
    rw [List.foldl_cons, ih, one, ← Option.or_assoc]
    congr 1
    split
    · rename_i has
      by_cases same : entry.1 = key
      · subst same
        obtain ⟨value, found⟩ := Option.isSome_iff_exists.1 has
        rw [found, Option.some_or]
      · simp [Table.get?, same]
    · exact Table.get?_append known [entry] key

theorem merges_singleton (d : Descriptor) : Merges [d] d := by
  refine ⟨by simp, ?_, ?_, fun key => ?_, d, rfl, rfl⟩
  · cases h : d.binding <;> simp [h]
  · cases h : d.location <;> simp [h]
  · cases h : Table.get? d.tags key <;> simp [h]

theorem Merges.mergeDescriptor {ds : List Descriptor} {e : Descriptor} (h : Merges ds e)
    (d : Descriptor) : Merges (ds ++ [d]) (mergeDescriptor e d) := by
  have slot (field : Descriptor → Option Nat) : [d].findSome? field = field d := by
    cases found : field d <;> simp [found]
  refine ⟨?_, ?_, ?_, fun key => ?_, ?_⟩
  · rw [List.foldl_append, ← h.stageFlags]
    rfl
  · rw [List.findSome?_append, ← h.binding, slot]
    exact Option.orElse_eq_or
  · rw [List.findSome?_append, ← h.location, slot]
    exact Option.orElse_eq_or
  · rw [List.findSome?_append, ← h.tags, get?_tags_mergeDescriptor]
    cases found : Table.get? d.tags key <;> simp [found]
  · obtain ⟨first, head, same⟩ := h.others
    refine ⟨first, by rw [List.head?_append, head, Option.some_or], ?_⟩
    rw [Interface.mergeDescriptor, same]

theorem isMerge_empty : IsMerge [] {} := by
  constructor
  · intro c
    rfl
  · intro c
    exact List.nodup_nil
  · intro c d member
    cases member

theorem names_insert (info : Interface) (c : Category) (d : Descriptor) :
    ((info.insert c d).list c).map Descriptor.name =
      Table.addKey ((info.list c).map Descriptor.name) d.name := by
  have kept (e : Descriptor) : (mergeDescriptor e d).name = e.name := rfl
  rw [Interface.insert, list_set_self]
  exact Table.map_upsert Descriptor.name d.name kept rfl _

theorem IsMerge.merges_insert {ds : List (Category × Descriptor)} {info : Interface}
    (h : IsMerge ds info) {c : Category} {d e : Descriptor} (member : e ∈ (info.insert c d).list c) :
    Merges ((declared ds c ++ [d]).filter fun x => x.name = e.name) e := by
  rw [List.filter_append]
  rw [Interface.insert, list_set_self] at member
  by_cases known : d.name ∈ (info.list c).map Descriptor.name
  · -- the name is known, so the declaration goes into the one descriptor of that name
    rw [Table.upsert_of_mem (h.distinct c) known] at member
    obtain ⟨old, old_mem, rfl⟩ := List.mem_map.1 member
    by_cases renamed : old.name = d.name
    · rw [if_pos renamed]
      have kept : (Interface.mergeDescriptor old d).name = old.name := rfl
      rw [kept, List.filter_cons_of_pos (by simp [renamed]), List.filter_nil]
      exact (h.merges c old old_mem).mergeDescriptor d
    · rw [if_neg renamed, List.filter_cons_of_neg (by simpa using Ne.symm renamed),
        List.filter_nil, List.append_nil]
      exact h.merges c old old_mem
  · rw [Table.upsert_of_notMem known] at member
    rcases List.mem_append.1 member with old_mem | fresh
    · have apart : d.name ≠ e.name := fun same => known (same ▸ List.mem_map_of_mem old_mem)
      rw [List.filter_cons_of_neg (by simpa using apart), List.filter_nil, List.append_nil]
      exact h.merges c e old_mem
    · obtain rfl := List.mem_singleton.1 fresh
      have none_before : (declared ds c).filter (fun x => x.name = e.name) = [] := by
        refine List.filter_eq_nil_iff.2 fun x hx same => known ?_
        rw [h.names, List.mem_eraseDups, ← of_decide_eq_true same]
        exact List.mem_map_of_mem hx
      rw [none_before, List.filter_cons_of_pos (by simp), List.filter_nil, List.nil_append]
      exact merges_singleton e

theorem IsMerge.insert {ds : List (Category × Descriptor)} {info : Interface} (h : IsMerge ds info)
    (c : Category) (d : Descriptor) : IsMerge (ds ++ [(c, d)]) (info.insert c d) := by
  have elsewhere {c' : Category} (other : c' ≠ c) :
      (info.insert c d).list c' = info.list c' ∧ declared (ds ++ [(c, d)]) c' = declared ds c' := by
    rw [Interface.insert, list_set_of_ne _ _ other, declared_append,
      declared_singleton_of_ne d other, List.append_nil]
    exact ⟨rfl, rfl⟩
  have here : declared (ds ++ [(c, d)]) c = declared ds c ++ [d] := by
    rw [declared_append, declared_singleton_self]
  constructor
  · intro c'
    by_cases same : c' = c
    · subst same
      rw [names_insert, h.names, Table.addKey_eraseDups, here, List.map_append]
      rfl
    · rw [(elsewhere same).1, (elsewhere same).2]
      exact h.names c'
  · intro c'
    by_cases same : c' = c
    · subst same
      rw [names_insert]
      exact Table.nodup_addKey (h.distinct c') d.name
    · rw [(elsewhere same).1]
      exact h.distinct c'
  · intro c' e member
    by_cases same : c' = c
    · subst same
      rw [here]
      exact h.merges_insert member
    · rw [(elsewhere same).1] at member
      rw [(elsewhere same).2]
      exact h.merges c' e member

def insertAll (info : Interface) (ds : List (Category × Descriptor)) : Interface :=
  ds.foldl (fun info entry => info.insert entry.1 entry.2) info

theorem IsMerge.insertAll {ds : List (Category × Descriptor)} {info : Interface}
    (h : IsMerge ds info) (es : List (Category × Descriptor)) :
    IsMerge (ds ++ es) (info.insertAll es) := by
  induction es generalizing ds info with
  | nil => rwa [List.append_nil]
  | cons entry es ih =>
    rw [List.append_cons]
    exact ih (h.insert entry.1 entry.2)

def checkEntry (info : Interface) (c : Category) (d : Descriptor) : Compile Unit :=
  if info.conflicts c d then
    Compile.error .inconsistentDeclaration s!"{c.name} {d.name} is declared with different members"
  else pure ()

theorem addAll_cons (info : Interface) (c : Category) (d : Descriptor)
    (rest : List (Category × Descriptor)) (r : Report) :
    (info.addAll ((c, d) :: rest)).run r = match (info.checkEntry c d).runWith r with
      | (.ok _, s) => ((info.insert c d).addAll rest).run s
      | (.error failure, s) => ((.error failure, info), s) := by
  rw [addAll, StateT.run_bind]
  change bind (m := Id) ((info.checkEntry c d).runWith r) _ = _
  rcases (info.checkEntry c d).runWith r with ⟨outcome, s⟩
  cases outcome <;> rfl

theorem checkEntry_cases (info : Interface) (c : Category) (d : Descriptor) (r : Report) :
    (∃ s, (info.checkEntry c d).runWith r = (.ok (), s)) ∨
    ∃ failure s e, (info.checkEntry c d).runWith r = (.error failure, s) ∧
      failure.code = .inconsistentDeclaration ∧ info.find? c d.name = some e ∧
      e.members ≠ d.members := by
  unfold checkEntry
  split
  · rename_i conflict
    obtain ⟨e, found, differ⟩ : ∃ e, info.find? c d.name = some e ∧ e.members ≠ d.members := by
      unfold conflicts at conflict
      cases found : info.find? c d.name with
      | none => simp [found] at conflict
      | some e => exact ⟨e, rfl, by simpa [found] using conflict⟩
    cases stops : r.throwOnError with
    | false => exact .inl ⟨_, Compile.runWith_error stops _ _ _⟩
    | true => exact .inr ⟨_, _, e, Compile.runWith_error_of_throws stops _ _ _, rfl, found, differ⟩
  · exact .inl ⟨r, rfl⟩

/-- What adding declarations does: all of them are inserted, or a conflict stops it, and then those
before the conflict are inserted. -/
theorem addAll_cases (info : Interface) (ds : List (Category × Descriptor)) (r : Report) :
    ((info.addAll ds).run r).1 = (.ok (), info.insertAll ds) ∨
    ∃ before c d after e failure, ds = before ++ (c, d) :: after ∧
      ((info.addAll before).run r).1 = (.ok (), info.insertAll before) ∧
      (info.insertAll before).find? c d.name = some e ∧ e.members ≠ d.members ∧
      failure.code = .inconsistentDeclaration ∧
      ((info.addAll ds).run r).1 = (.error failure, info.insertAll before) := by
  induction ds generalizing info r with
  | nil => exact .inl rfl
  | cons entry rest ih =>
    obtain ⟨c, d⟩ := entry
    rcases info.checkEntry_cases c d r with ⟨s, passed⟩ | ⟨failure, s, e, failed, code, found, differ⟩
    · have step (ds : List (Category × Descriptor)) : (info.addAll ((c, d) :: ds)).run r =
          ((info.insert c d).addAll ds).run s := by rw [addAll_cons, passed]
      rcases ih (info.insert c d) s with all | ⟨before, c', d', after, e, failure, rfl, ok, stop⟩
      · exact .inl ((congrArg Prod.fst (step rest)).trans all)
      · refine .inr ⟨(c, d) :: before, c', d', after, e, failure, rfl, ?_, ?_⟩
        · exact (congrArg Prod.fst (step before)).trans ok
        · rw [step]
          exact stop
    · refine .inr ⟨[], c, d, rest, e, failure, rfl, rfl, found, differ, code, ?_⟩
      rw [addAll_cons, failed]
      rfl

theorem Added.isMerge {calls : List (List (Category × Descriptor))} {info : Interface}
    (h : Added calls info) : IsMerge calls.flatten info := by
  induction h with
  | empty => exact isMerge_empty
  | @call calls info info' ds r _ added ih =>
    rw [List.flatten_append, List.flatten_singleton]
    rcases info.addAll_cases ds r with all | ⟨_, _, _, _, _, failure, _, _, _, _, _, stopped⟩
    · obtain rfl : info.insertAll ds = info' := congrArg Prod.snd (all.symm.trans added)
      exact ih.insertAll ds
    · cases congrArg Prod.fst (stopped.symm.trans added)

/-- Calls that succeed lose no declaration and invent none. One that fails found a descriptor with
other members, and has merged exactly the declarations before that conflict, so the descriptor is the
one that they left. -/
theorem added_merges {calls : List (List (Category × Descriptor))} {info : Interface}
    (added : Added calls info) :
    IsMerge calls.flatten info ∧
    ∀ ds r failure info', ((info.addAll ds).run r).1 = (.error failure, info') →
      failure.code = .inconsistentDeclaration ∧
      ∃ before c d after e, ds = before ++ (c, d) :: after ∧
        ((info.addAll before).run r).1 = (.ok (), info') ∧
        IsMerge (calls.flatten ++ before) info' ∧
        info'.find? c d.name = some e ∧ e.members ≠ d.members := by
  refine ⟨added.isMerge, fun ds r failure info' failed => ?_⟩
  rcases info.addAll_cases ds r with
    all | ⟨before, c, d, after, e, failure', split, ok, found, differ, code, stopped⟩
  · cases congrArg Prod.fst (all.symm.trans failed)
  · obtain ⟨same, rfl⟩ := Prod.mk.inj (stopped.symm.trans failed)
    obtain rfl := Except.error.inj same
    exact ⟨code, before, c, d, after, e, split, ok, added.isMerge.insertAll before, found, differ⟩

theorem added_merges_two_stages :
    let block (stage : Stage) (binding : Option Nat) (tags : List (String × String)) : Descriptor :=
      { Descriptor.declared "Light" "Light" stage with binding := binding, tags := tags }
    let uv (stage : Stage) (location : Option Nat) : Descriptor :=
      { Descriptor.declared "uv" "vec2" stage with location := location }
    let vertex := [(Category.block, block .vertex none [("builtin", "local")]),
      (.varying, uv .vertex none)]
    let fragment := [(Category.varying, uv .fragment (some 2)),
      (.block, block .fragment (some 3) [("builtin", "global"), ("pool", "a")]),
      (.varying, uv .fragment (some 5))]
    let third := [(Category.varying, uv .compute none), (.block, { block .compute none [] with
      members := [⟨"color", "vec4", none, none, 1⟩] }), (.varying, uv .compute (some 9))]
    ∃ info, Added [vertex, fragment] info ∧ IsMerge (vertex ++ fragment) info ∧
      (info.list .block).map (fun d => (d.stageFlags, d.binding, d.tags)) =
        [(17, some 3, [("builtin", "local"), ("pool", "a")])] ∧
      (info.list .varying).map (fun d => (d.stageFlags, d.location)) = [(17, some 2)] ∧
      ∃ failure info', ((info.addAll third).run {}).1 = (.error failure, info') ∧
        (info'.list .varying).map Descriptor.stageFlags = [49] ∧
        (info'.list .block).map Descriptor.stageFlags = [17] ∧
        failure.code = .inconsistentDeclaration ∧
        ∃ before c d after e, third = before ++ (c, d) :: after ∧
          ((info.addAll before).run {}).1 = (.ok (), info') ∧
          IsMerge (vertex ++ fragment ++ before) info' ∧
          info'.find? c d.name = some e ∧ e.members ≠ d.members := by
  intro block uv vertex fragment third
  have first : Added [vertex] (insertAll {} vertex) := .call (r := {}) .empty rfl
  have both : Added [vertex, fragment] ((insertAll {} vertex).insertAll fragment) :=
    .call (r := {}) first rfl
  obtain ⟨merge, stops⟩ := added_merges both
  exact ⟨_, both, merge, by decide +kernel, by decide +kernel, _, _, rfl, by decide +kernel,
    by decide +kernel, stops third {} _ _ rfl⟩

end ShaderPass.Interface
