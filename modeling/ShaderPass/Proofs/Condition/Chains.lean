import Mathlib.Data.List.Induction
import ShaderPass.Proofs.Define.Scanning
import ShaderPass.Proofs.Dialect.Preprocessing

/-! The conditional chains that are open behind some lines, and what they test. The stack of conditions
is what the headers of these chains test. -/
namespace ShaderPass

namespace Table

variable {κ : Type} [DecidableEq κ]

theorem foldl_addKey_eraseDups (table keys : List κ) :
    keys.foldl addKey table.eraseDups = (table ++ keys).eraseDups := by
  induction keys generalizing table with
  | nil => rw [List.append_nil, List.foldl_nil]
  | cons key keys ih =>
    rw [List.foldl_cons, addKey_eraseDups, ih, List.append_assoc, List.singleton_append]

theorem eraseDups_append_eraseDups (table keys : List κ) :
    (table ++ keys.eraseDups).eraseDups = (table ++ keys).eraseDups := by
  induction keys using List.reverseRecOn with
  | nil => rw [List.eraseDups_nil]
  | append_singleton keys key ih =>
    rw [← List.append_assoc, ← addKey_eraseDups (table ++ keys), ← addKey_eraseDups keys, ← ih, addKey]
    split
    · rename_i known
      rw [addKey, if_pos (by simpa using Or.inr (List.mem_eraseDups.1 known))]
    · rw [← List.append_assoc, addKey_eraseDups]

theorem eraseDups_eraseDups (keys : List κ) : keys.eraseDups.eraseDups = keys.eraseDups :=
  eraseDups_append_eraseDups [] keys

theorem eraseDups_eraseDups_append (table keys : List κ) :
    (table.eraseDups ++ keys).eraseDups = (table ++ keys).eraseDups := by
  rw [← foldl_addKey_eraseDups, eraseDups_eraseDups, foldl_addKey_eraseDups]

end Table

namespace Condition

open Conditional

/-- Lines under a header in which all chains but that of the header are closed, and those of them that
continue it. -/
inductive Branches : List Text → List Text → Prop
  | last {inner} (even : wellNested 0 inner = true) : Branches inner []
  | next {inner line rest more} (even : wellNested 0 inner = true) (continues : roleOf line = .continues)
    (later : Branches rest more) : Branches (inner ++ line :: rest) (line :: more)

/-- The chains that are open behind some lines, outermost first. Each is its header with the lines that
continue it. -/
inductive Around : List Text → List (List Text) → Prop
  | outside {lines} (even : wellNested 0 lines = true) : Around lines []
  | inside {before header middle more after chains} (even : wellNested 0 before = true)
    (opens : roleOf header = .opens) (branches : Branches middle more) (inner : Around after chains) :
    Around (before ++ header :: (middle ++ after)) ((header :: more) :: chains)

def follow? (chains : List (List Text)) (line : Text) : Option (List (List Text)) :=
  match roleOf line, chains with
  | .plain, _ => some chains
  | .opens, _ => some ([line] :: chains)
  | .continues, chain :: outer => some ((chain ++ [line]) :: outer)
  | .closes, _ :: outer => some outer
  | _, [] => none

section Steps

variable {line : Text} (chains : List (List Text)) (chain : List Text)

theorem follow?_of_plain (plain : roleOf line = .plain) : follow? chains line = some chains := by
  unfold follow?
  rw [plain]

theorem follow?_of_opens (opens : roleOf line = .opens) : follow? chains line = some ([line] :: chains) := by
  unfold follow?
  rw [opens]

theorem follow?_of_continues (continues : roleOf line = .continues) :
    follow? (chain :: chains) line = some ((chain ++ [line]) :: chains) := by
  unfold follow?
  rw [continues]

theorem follow?_of_closes (closes : roleOf line = .closes) : follow? (chain :: chains) line = some chains := by
  unfold follow?
  rw [closes]

theorem foldlM_follow?_cons {chains' : List (List Text)} (step : follow? chains line = some chains')
    (lines : List Text) : (line :: lines).foldlM follow? chains = lines.foldlM follow? chains' := by
  rw [List.foldlM_cons, step]
  rfl

end Steps

section Nesting

theorem wellNested_add_append {d : Nat} {lines : List Text} (nested : wellNested d lines = true) (e : Nat)
    (later : List Text) : wellNested (d + e) (lines ++ later) = wellNested e later := by
  induction lines generalizing d with
  | nil => rw [eq_zero_of_wellNested_nil nested, List.nil_append, Nat.zero_add]
  | cons line lines ih =>
    rw [List.cons_append]
    cases role : roleOf line with
    | plain =>
      rw [wellNested_cons_of_plain role] at nested ⊢
      exact ih nested
    | opens =>
      rw [wellNested_cons_of_opens role] at nested ⊢
      rw [Nat.add_right_comm]
      exact ih nested
    | continues =>
      obtain ⟨positive, nested⟩ := (wellNested_cons_of_continues role).1 nested
      rw [← ih nested, Bool.eq_iff_iff, wellNested_cons_of_continues role]
      exact and_iff_right (Nat.add_pos_left positive e)
    | closes =>
      obtain ⟨positive, nested⟩ := (wellNested_cons_of_closes role).1 nested
      rw [← ih nested, Bool.eq_iff_iff, wellNested_cons_of_closes role, Nat.sub_add_comm positive]
      exact and_iff_right (Nat.add_pos_left positive e)

theorem wellNested_append {lines : List Text} (even : wellNested 0 lines = true) (depth : Nat)
    (later : List Text) : wellNested depth (lines ++ later) = wellNested depth later := by
  have := wellNested_add_append even depth later
  rwa [Nat.zero_add] at this

theorem foldlM_follow?_of_wellNested {lines : List Text} {inner : List (List Text)}
    (nested : wellNested inner.length lines = true) (outer : List (List Text)) :
    lines.foldlM follow? (inner ++ outer) = some outer := by
  induction lines generalizing inner with
  | nil =>
    obtain rfl := List.length_eq_zero_iff.1 (eq_zero_of_wellNested_nil nested)
    rfl
  | cons line lines ih =>
    cases role : roleOf line with
    | plain =>
      rw [wellNested_cons_of_plain role] at nested
      rw [foldlM_follow?_cons _ (follow?_of_plain _ role), ih nested]
    | opens =>
      rw [wellNested_cons_of_opens role] at nested
      rw [foldlM_follow?_cons _ (follow?_of_opens _ role), ← List.cons_append]
      exact ih nested
    | continues =>
      obtain ⟨positive, nested⟩ := (wellNested_cons_of_continues role).1 nested
      cases inner with
      | nil => exact absurd positive (Nat.lt_irrefl 0)
      | cons chain inner =>
        rw [List.cons_append, foldlM_follow?_cons _ (follow?_of_continues _ _ role), ← List.cons_append]
        exact ih nested
    | closes =>
      obtain ⟨positive, nested⟩ := (wellNested_cons_of_closes role).1 nested
      cases inner with
      | nil => exact absurd positive (Nat.lt_irrefl 0)
      | cons chain inner =>
        rw [List.cons_append, foldlM_follow?_cons _ (follow?_of_closes _ _ role)]
        exact ih nested

theorem foldlM_follow?_of_even {lines : List Text} (even : wellNested 0 lines = true)
    (chains : List (List Text)) : lines.foldlM follow? chains = some chains :=
  @foldlM_follow?_of_wellNested lines [] even chains

theorem Branches.foldlM_follow? {middle more : List Text} (branches : Branches middle more)
    (chain : List Text) (outer : List (List Text)) :
    middle.foldlM follow? (chain :: outer) = some ((chain ++ more) :: outer) := by
  induction branches generalizing chain with
  | last even => rw [foldlM_follow?_of_even even, List.append_nil]
  | @next inner line rest more even continues _ ih =>
    rw [List.foldlM_append, foldlM_follow?_of_even even, Option.bind_eq_bind, Option.bind_some,
      foldlM_follow?_cons _ (follow?_of_continues _ _ continues), ih, ← List.append_cons]

theorem Around.foldlM_follow? {lines : List Text} {chains : List (List Text)} (around : Around lines chains)
    (outer : List (List Text)) : lines.foldlM follow? outer = some (chains.reverse ++ outer) := by
  induction around generalizing outer with
  | outside even => exact foldlM_follow?_of_even even outer
  | @inside before header middle more after chains even opens branches _ ih =>
    calc (before ++ header :: (middle ++ after)).foldlM follow? outer
        = after.foldlM follow? ((header :: more) :: outer) := by
          rw [List.foldlM_append, foldlM_follow?_of_even even, Option.bind_eq_bind, Option.bind_some,
            foldlM_follow?_cons _ (follow?_of_opens _ opens), List.foldlM_append, branches.foldlM_follow?]
          rfl
      _ = some (((header :: more) :: chains).reverse ++ outer) := by
          rw [ih, List.reverse_cons, List.append_assoc, List.singleton_append]

end Nesting

section Extending

variable {lines : List Text} {line : Text} {chains : List (List Text)}

theorem Branches.append {middle more : List Text} (branches : Branches middle more) {after : List Text}
    (even : wellNested 0 after = true) (continues : roleOf line = .continues) :
    Branches (middle ++ (after ++ [line])) (more ++ [line]) := by
  induction branches with
  | @last inner inner_even =>
    rw [← List.append_assoc]
    refine .next ?_ continues (.last wellNested_nil)
    rw [wellNested_append inner_even, even]
  | next inner_even continues' _ ih =>
    rw [List.append_assoc, List.cons_append]
    exact .next inner_even continues' ih

theorem Branches.wellNested_append {middle more : List Text} (branches : Branches middle more) (depth : Nat)
    (later : List Text) : wellNested (depth + 1) (middle ++ later) = wellNested (depth + 1) later := by
  induction branches with
  | last even => exact Condition.wellNested_append even _ _
  | next even continues _ ih =>
    rw [List.append_assoc, Condition.wellNested_append even, List.cons_append, ← ih, Bool.eq_iff_iff,
      wellNested_cons_of_continues continues]
    exact and_iff_right (Nat.succ_pos depth)

theorem Around.append_plain (around : Around lines chains) (plain : roleOf line = .plain) :
    Around (lines ++ [line]) chains := by
  induction around with
  | outside even =>
    refine .outside ?_
    rw [wellNested_append even, wellNested_cons_of_plain plain]
    exact wellNested_nil
  | inside even opens branches _ ih =>
    rw [List.append_assoc, List.cons_append, List.append_assoc]
    exact .inside even opens branches ih

theorem Around.append_opens (around : Around lines chains) (opens : roleOf line = .opens) :
    Around (lines ++ [line]) (chains ++ [[line]]) := by
  induction around with
  | outside even => exact .inside even opens (.last wellNested_nil) (.outside wellNested_nil)
  | inside even opens' branches _ ih =>
    rw [List.append_assoc, List.cons_append, List.append_assoc]
    exact .inside even opens' branches ih

theorem Around.append_continues {chain : List Text} (around : Around lines (chains ++ [chain]))
    (continues : roleOf line = .continues) : Around (lines ++ [line]) (chains ++ [chain ++ [line]]) := by
  generalize known : chains ++ [chain] = open_chains at around
  induction around generalizing chains with
  | outside => simp at known
  | inside even opens branches inner ih =>
    rw [List.append_assoc, List.cons_append, List.append_assoc]
    cases chains with
    | nil =>
      -- the line continues the outermost chain, in which no other one is open
      obtain ⟨rfl, rfl⟩ := List.cons.inj known
      cases inner with
      | outside after_even =>
        have := Around.inside even opens (branches.append after_even continues) (.outside wellNested_nil)
        rwa [List.append_nil] at this
    | cons outer chains =>
      obtain ⟨rfl, later⟩ := List.cons.inj known
      exact .inside even opens branches (ih later)

theorem Around.append_closes {chain : List Text} (around : Around lines (chains ++ [chain]))
    (closes : roleOf line = .closes) : Around (lines ++ [line]) chains := by
  generalize known : chains ++ [chain] = open_chains at around
  induction around generalizing chains with
  | outside => simp at known
  | inside even opens branches inner ih =>
    rw [List.append_assoc, List.cons_append, List.append_assoc]
    cases chains with
    | nil =>
      obtain ⟨rfl, rfl⟩ := List.cons.inj known
      cases inner with
      | outside after_even =>
        refine .outside ?_
        rw [wellNested_append even, wellNested_cons_of_opens opens, branches.wellNested_append,
          wellNested_append after_even, wellNested_cons_of_closes closes]
        exact ⟨Nat.one_pos, wellNested_nil⟩
    | cons outer chains =>
      obtain ⟨rfl, later⟩ := List.cons.inj known
      exact .inside even opens branches (ih later)

theorem Around.append {stack stack' : List (List Text)} (around : Around lines stack.reverse)
    (step : follow? stack line = some stack') : Around (lines ++ [line]) stack'.reverse := by
  cases role : roleOf line with
  | plain =>
    rw [follow?_of_plain _ role] at step
    rw [← Option.some.inj step]
    exact around.append_plain role
  | opens =>
    rw [follow?_of_opens _ role] at step
    rw [← Option.some.inj step, List.reverse_cons]
    exact around.append_opens role
  | continues =>
    cases stack with
    | nil => simp [follow?, role] at step
    | cons chain outer =>
      rw [follow?_of_continues _ _ role] at step
      rw [List.reverse_cons] at around
      rw [← Option.some.inj step, List.reverse_cons]
      exact around.append_continues role
  | closes =>
    cases stack with
    | nil => simp [follow?, role] at step
    | cons chain outer =>
      rw [follow?_of_closes _ _ role] at step
      rw [List.reverse_cons] at around
      rw [← Option.some.inj step]
      exact around.append_closes role

theorem around_of_foldlM {stack : List (List Text)} (found : lines.foldlM follow? [] = some stack) :
    Around lines stack.reverse := by
  induction lines using List.reverseRecOn generalizing stack with
  | nil =>
    rw [← Option.some.inj found]
    exact .outside wellNested_nil
  | append_singleton lines line ih =>
    rw [List.foldlM_append, Option.bind_eq_bind] at found
    obtain ⟨before, reached, step⟩ := Option.bind_eq_some_iff.1 found
    rw [List.foldlM_cons, Option.bind_eq_bind] at step
    obtain ⟨after, step, last⟩ := Option.bind_eq_some_iff.1 step
    rw [← Option.some.inj last]
    exact (ih reached).append step

theorem around_iff : Around lines chains ↔ lines.foldlM follow? [] = some chains.reverse := by
  constructor
  · intro around
    rw [around.foldlM_follow?, List.append_nil]
  · intro found
    rw [← List.reverse_reverse chains]
    exact around_of_foldlM found

end Extending

section Frames

def frame (chain : List Text) : List String :=
  (chain.flatMap Define.tested).eraseDups

variable {line : Text}

theorem update_of_plain (stack : Stack) (plain : roleOf line = .plain) : stack.update line = stack := by
  unfold roleOf at plain
  unfold Stack.update
  split at plain <;> simp_all

theorem update_of_opens (stack : Stack) (opens : roleOf line = .opens) :
    stack.update line = Define.tested line :: stack := by
  unfold roleOf at opens
  unfold Stack.update
  split at opens
  case h_1 parsed | h_2 parsed | h_3 parsed =>
    rw [parsed, Define.tested_of_conditional parsed (by decide)]
    rfl
  all_goals cases opens

theorem update_of_continues (tests : List String) (outer : Stack) (continues : roleOf line = .continues) :
    Stack.update (tests :: outer) line = (Define.tested line).foldl Table.addKey tests :: outer := by
  unfold roleOf at continues
  unfold Stack.update
  split at continues
  case h_4 parsed =>
    rw [parsed, Define.tested_of_conditional parsed (by decide)]
    rfl
  case h_5 parsed =>
    rw [parsed, Define.tested, parsed]
    rfl
  all_goals cases continues

theorem update_of_closes (tests : List String) (outer : Stack) (closes : roleOf line = .closes) :
    Stack.update (tests :: outer) line = outer := by
  unfold roleOf at closes
  unfold Stack.update
  split at closes
  case h_6 parsed =>
    rw [parsed]
    rfl
  all_goals cases closes

theorem eraseDups_tested (line : Text) : (Define.tested line).eraseDups = Define.tested line := by
  unfold Define.tested
  split
  · split
    · exact Table.eraseDups_eraseDups _
    · rfl
  · rfl

theorem update_map_frame {chains chains' : List (List Text)} (step : follow? chains line = some chains') :
    Stack.update (chains.map frame) line = chains'.map frame := by
  cases role : roleOf line with
  | plain =>
    rw [follow?_of_plain _ role] at step
    rw [update_of_plain _ role, ← Option.some.inj step]
  | opens =>
    rw [follow?_of_opens _ role] at step
    rw [update_of_opens _ role, ← Option.some.inj step, List.map_cons, frame, List.flatMap_singleton,
      eraseDups_tested]
  | continues =>
    cases chains with
    | nil => simp [follow?, role] at step
    | cons chain outer =>
      rw [follow?_of_continues _ _ role] at step
      rw [List.map_cons, update_of_continues _ _ role, ← Option.some.inj step, List.map_cons, frame, frame,
        List.flatMap_append, List.flatMap_singleton, Table.foldl_addKey_eraseDups]
  | closes =>
    cases chains with
    | nil => simp [follow?, role] at step
    | cons chain outer =>
      rw [follow?_of_closes _ _ role] at step
      rw [List.map_cons, update_of_closes _ _ role, ← Option.some.inj step]

theorem identifiers_map_frame (chains : List (List Text)) :
    Stack.identifiers (chains.map frame) = (chains.reverse.flatten.flatMap Define.tested).eraseDups := by
  rw [Stack.identifiers, ← List.map_reverse]
  induction chains.reverse with
  | nil => rfl
  | cons chain chains ih =>
    rw [List.map_cons, List.flatten_cons, List.flatten_cons, List.flatMap_append, frame,
      Table.eraseDups_eraseDups_append, ← Table.eraseDups_append_eraseDups, ih,
      Table.eraseDups_append_eraseDups]

end Frames

end Condition
end ShaderPass
