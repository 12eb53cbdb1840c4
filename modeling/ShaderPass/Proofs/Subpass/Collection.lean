import Mathlib.Data.List.Forall2
import Mathlib.Data.Prod.Lex
import Mathlib.Data.String.Basic
import ShaderPass.Proofs.Diagnostic.Outcome
import ShaderPass.Proofs.Text.Runs
import ShaderPass.Subpass.Rendering

/-! Which lines of a text are subpass statements, how these are numbered and ordered, and which lines
an expansion replaces. -/
namespace ShaderPass.Subpass

open Compile

/-- The statement that a well-formed line declares, up to its number. -/
def Statement.accepted? (line : Text) : Option (Nat → Statement) := do
  let (pragma, args) ← Directive.pragma? line
  let (component, kind) ← kind? pragma
  let attachment ← Attachment.ofName? (String.ofList kind)
  let (access, precision, name) ← arguments? args
  if isCompatible attachment access component then
    some fun index => ⟨component, attachment, access, precision, name, index⟩
  else none

def numbered (makes : List (Nat → Statement)) : List Statement :=
  makes.zipIdx.map fun (make, i) => make i

def declared (t : Text) : List Statement :=
  numbered ((Text.feedLines t).filterMap Statement.accepted?)

theorem numbered_concat (makes : List (Nat → Statement)) (make : Nat → Statement) :
    numbered (makes ++ [make]) = numbered makes ++ [make (numbered makes).length] := by
  simp [numbered, List.zipIdx_append]

theorem map_index_declared (t : Text) :
    (declared t).map Statement.index = List.range (declared t).length := by
  rw [declared, numbered, List.length_map, List.length_zipIdx, List.map_map,
    List.range_eq_range', ← List.zipIdx_map_snd 0]
  apply List.map_congr_left
  rintro ⟨make, i⟩ member
  obtain ⟨line, -, accepted⟩ := List.mem_filterMap.1 (List.fst_mem_of_mem_zipIdx member)
  simp only [Statement.accepted?, Option.bind_eq_bind, Option.bind_eq_some_iff,
    Option.ite_none_right_eq_some, Option.some.injEq] at accepted
  obtain ⟨-, -, -, -, -, -, -, -, -, rfl⟩ := accepted
  rfl

/-- Reading a line, where it returns, gives the statement of a well-formed line and no other. -/
theorem eq_of_runWith_parse? {line : Text} {index number : Nat} {found : Option Statement}
    {r s : Report} (run : (Statement.parse? line index number).runWith r = (.ok found, s)) :
    found = (Statement.accepted? line).map (· index) := by
  have rejected {x : Compile Unit} (run : (x >>= fun _ => pure none).runWith r = (.ok found, s)) :
      found = none := by
    obtain ⟨_, _, _, returned⟩ := exists_of_runWith_bind run
    exact (Except.ok.inj (Prod.mk.inj returned).1).symm
  have returned {a : Option Statement} (run : (pure a : Compile (Option Statement)).runWith r =
      (.ok found, s)) : found = a := (Except.ok.inj (Prod.mk.inj run).1).symm
  unfold Statement.parse? at run
  unfold Statement.accepted?
  cases pragma : Directive.pragma? line with
  | none =>
    rw [pragma] at run
    exact returned run
  | some directive =>
    obtain ⟨name, args⟩ := directive
    simp only [pragma] at run
    cases kind : kind? name with
    | none =>
      rw [kind] at run
      simpa [kind] using returned run
    | some marked =>
      obtain ⟨component, word⟩ := marked
      simp only [kind] at run
      cases attachment : Attachment.ofName? (String.ofList word) with
      | none =>
        rw [attachment] at run
        simpa [kind, attachment] using rejected run
      | some a =>
        cases arguments : arguments? args with
        | none =>
          rw [attachment, arguments] at run
          simpa [kind, attachment, arguments] using rejected run
        | some given =>
          obtain ⟨access, precision, target⟩ := given
          simp only [attachment, arguments] at run
          by_cases compatible : isCompatible a access component = true
          · rw [if_pos compatible] at run
            simpa [kind, attachment, arguments, compatible] using returned run
          · rw [if_neg compatible] at run
            simpa [kind, attachment, arguments, compatible] using rejected run

def addLine (found : List Statement) (line : Text × Nat) : Compile (List Statement) := do
  let statement ← Statement.parse? line.1 found.length line.2
  return found ++ statement.toList

theorem collect_eq (t : Text) : collect t = ((Text.feedLines t).zipIdx 1).foldlM addLine [] := rfl

theorem eq_of_runWith_addLine {makes : List (Nat → Statement)} {line : Text × Nat}
    {found : List Statement} {r s : Report}
    (run : (addLine (numbered makes) line).runWith r = (.ok found, s)) :
    found = numbered (makes ++ (Statement.accepted? line.1).toList) := by
  obtain ⟨statement, r', parsed, appended⟩ := exists_of_runWith_bind run
  obtain ⟨same, -⟩ := Prod.mk.inj appended
  obtain rfl := Except.ok.inj same
  rw [eq_of_runWith_parse? parsed]
  cases Statement.accepted? line.1 with
  | none => simp
  | some make => exact (numbered_concat makes make).symm

theorem eq_of_runWith_foldlM {makes : List (Nat → Statement)} {lines : List (Text × Nat)}
    {found : List Statement} {r s : Report}
    (run : (lines.foldlM addLine (numbered makes)).runWith r = (.ok found, s)) :
    found = numbered (makes ++ (lines.map Prod.fst).filterMap Statement.accepted?) := by
  induction lines generalizing makes r with
  | nil =>
    rw [List.map_nil, List.filterMap_nil, List.append_nil]
    exact (Except.ok.inj (Prod.mk.inj run).1).symm
  | cons line lines ih =>
    rw [List.foldlM_cons] at run
    obtain ⟨next, r', first, rest⟩ := exists_of_runWith_bind run
    rw [eq_of_runWith_addLine first] at rest
    rw [ih rest, List.append_assoc, List.map_cons, List.filterMap_cons]
    cases Statement.accepted? line.1 <;> rfl

theorem eq_of_runWith_collect {t : Text} {statements : List Statement} {r s : Report}
    (run : (collect t).runWith r = (.ok statements, s)) : statements = declared t := by
  rw [collect_eq] at run
  have all := @eq_of_runWith_foldlM [] _ _ _ _ run
  rwa [List.zipIdx_map_fst, List.nil_append] at all

def Statement.key (s : Statement) : ℕ ×ₗ ℕ ×ₗ String :=
  toLex (s.attachment.rank, toLex (s.access.rank, s.name))

/-- The order of declarations: what is only written comes last, by number, and the rest is ordered by
attachment, access and name. -/
def Statement.Before (a b : Statement) : Prop :=
  if b.isOutput then a.isOutput → a.index ≤ b.index else ¬a.isOutput ∧ a.key ≤ b.key

theorem Attachment.rank_inj {a b : Attachment} (h : a.rank = b.rank) : a = b := by
  cases a <;> cases b <;> cases h <;> rfl

theorem Access.rank_inj {a b : Access} (h : a.rank = b.rank) : a = b := by
  cases a <;> cases b <;> cases h <;> rfl

theorem Statement.key_le_iff (a b : Statement) : a.key ≤ b.key ↔
    a.attachment.rank < b.attachment.rank ∨ a.attachment = b.attachment ∧
      (a.access.rank < b.access.rank ∨ a.access = b.access ∧ a.name ≤ b.name) := by
  have attachment : a.attachment.rank = b.attachment.rank ↔ a.attachment = b.attachment :=
    ⟨Attachment.rank_inj, congrArg _⟩
  have access : a.access.rank = b.access.rank ↔ a.access = b.access :=
    ⟨Access.rank_inj, congrArg _⟩
  simp only [Statement.key, Prod.Lex.toLex_le_toLex, attachment, access]

theorem Statement.precedes_iff (a b : Statement) : a.precedes b = true ↔ a.Before b := by
  unfold Statement.precedes Statement.Before
  rw [Statement.key_le_iff]
  cases a.isOutput <;> cases b.isOutput
  · by_cases attachment : a.attachment = b.attachment
    · by_cases access : a.access = b.access
      · simp [attachment, access, -String.lt_iff_ltb]
      · have : a.access.rank ≠ b.access.rank := fun h => access (Access.rank_inj h)
        simp [attachment, access]
        omega
    · have : a.attachment.rank ≠ b.attachment.rank := fun h => attachment (Attachment.rank_inj h)
      simp [attachment]
      omega
  · simp
  · simp
  · simp

theorem Statement.Before.trans {a b c : Statement} (first : a.Before b) (second : b.Before c) :
    a.Before c := by
  unfold Statement.Before at first second ⊢
  cases hb : b.isOutput <;> cases hc : c.isOutput <;> simp only [hb, hc] at first second ⊢
  · exact ⟨first.1, first.2.trans second.2⟩
  · exact fun output => absurd output first.1
  · exact absurd trivial second.1
  · exact fun output => (first output).trans (second trivial)

theorem Statement.before_total (a b : Statement) : a.Before b ∨ b.Before a := by
  unfold Statement.Before
  cases a.isOutput <;> cases b.isOutput
  · simpa using le_total a.key b.key
  · simp
  · simp
  · simpa using Nat.le_total a.index b.index

theorem pairwise_mergeSort (statements : List Statement) :
    (statements.mergeSort Statement.precedes).Pairwise Statement.Before := by
  have sorted : (statements.mergeSort Statement.precedes).Pairwise fun a b => a.precedes b :=
    List.pairwise_mergeSort
    (fun a b c first second => by
      rw [Statement.precedes_iff] at *
      exact first.trans second)
    (fun a b => by
      rw [Bool.or_eq_true, Statement.precedes_iff, Statement.precedes_iff]
      exact Statement.before_total a b) statements
  exact sorted.imp fun h => (Statement.precedes_iff _ _).1 h

inductive Replaces (declarations : Text) : Text → Text → Prop
  | statement {line : Text} (h : isStatement line = true) : Replaces declarations line []
  | anchor {line : Text} (h : isAnchor line = true) : Replaces declarations line declarations
  | other {line : Text} (not_statement : isStatement line = false) (not_anchor : isAnchor line = false) :
    Replaces declarations line line

theorem isStatement_of_isAnchor {line : Text} (h : isAnchor line = true) : isStatement line = false := by
  unfold isAnchor at h
  split at h
  · rename_i args pragma
    rw [isStatement, pragma]
    rfl
  · cases h

theorem forall₂_replaces (lines : List Text) (declarations : Text) :
    List.Forall₂ (Replaces declarations) lines (lines.map fun line =>
      if isAnchor line then declarations else if isStatement line then [] else line) := by
  rw [List.forall₂_map_right_iff, List.forall₂_same]
  intro line _
  cases anchor : isAnchor line with
  | true => exact .anchor anchor
  | false =>
    cases statement : isStatement line with
    | true => exact .statement statement
    | false => exact .other statement anchor

theorem runWith_collect_of_expand {t output : Text} {version : Nat} {r s : Report}
    (expanded : (expand t version).runWith r = (.ok output, s)) :
    ((collect t).runWith r).1 = .ok (declared t) := by
  obtain ⟨statements, r', collected, -⟩ := exists_of_runWith_bind expanded
  rw [collected, eq_of_runWith_collect collected]

theorem expand_cases {t output : Text} {version : Nat} {r s : Report}
    (expanded : (expand t version).runWith r = (.ok output, s)) :
    (declared t = [] ∧ output = t) ∨
    (declared t ≠ [] ∧ ∃ pieces, output = Text.joinFeeds pieces ∧ List.Forall₂
      (Replaces (render ((declared t).mergeSort Statement.precedes) version)) (Text.feedLines t) pieces) := by
  unfold expand at expanded
  obtain ⟨statements, r', collected, rest⟩ := exists_of_runWith_bind expanded
  obtain rfl := eq_of_runWith_collect collected
  by_cases empty : (declared t).isEmpty = true
  · rw [if_pos empty] at rest
    exact Or.inl ⟨List.isEmpty_iff.1 empty, (Except.ok.inj (Prod.mk.inj rest).1).symm⟩
  · rw [if_neg empty] at rest
    refine Or.inr ⟨fun none => empty (List.isEmpty_iff.2 none), _, ?_, forall₂_replaces _ _⟩
    dsimp only at rest
    split at rest
    · obtain ⟨_, _, _, returned⟩ := exists_of_runWith_bind rest
      exact (Except.ok.inj (Prod.mk.inj returned).1).symm
    · exact (Except.ok.inj (Prod.mk.inj rest).1).symm

theorem isStatement_of_accepted? {line : Text} (h : (Statement.accepted? line).isSome = true) :
    isStatement line = true ∧ isAnchor line = false := by
  have statement : isStatement line = true := by
    obtain ⟨make, accepted⟩ := Option.isSome_iff_exists.1 h
    simp only [Statement.accepted?, Option.bind_eq_bind, Option.bind_eq_some_iff] at accepted
    obtain ⟨⟨name, args⟩, pragma, marked, kind, -⟩ := accepted
    simp [isStatement, pragma, kind]
  refine ⟨statement, Bool.eq_false_iff.2 fun anchor => ?_⟩
  rw [isStatement_of_isAnchor anchor] at statement
  cases statement

end ShaderPass.Subpass
