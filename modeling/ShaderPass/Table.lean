/-!
Insertion-ordered tables as lists: a new key goes to the end, a known key keeps its place.
-/
namespace ShaderPass.Table

/-- Changes the first entry that satisfies `p`, or appends `fresh` if there is none. -/
def upsert (p : α → Bool) (change : α → α) (fresh : α) : List α → List α
  | [] => [fresh]
  | a :: as => if p a then change a :: as else a :: upsert p change fresh as

def insert [DecidableEq κ] (key : κ) (value : ν) (table : List (κ × ν)) : List (κ × ν) :=
  upsert (fun entry => entry.1 = key) (fun entry => (entry.1, value)) (key, value) table

def addKey [DecidableEq κ] (table : List κ) (key : κ) : List κ :=
  if key ∈ table then table else table ++ [key]

@[simp] theorem mem_addKey [DecidableEq κ] {table : List κ} {key a : κ} :
    a ∈ addKey table key ↔ a ∈ table ∨ a = key := by
  unfold addKey
  split
  · rename_i known
    exact ⟨Or.inl, fun h => h.elim id fun same => same ▸ known⟩
  · simp

theorem mem_foldl_addKey [DecidableEq κ] {keys table : List κ} {a : κ} :
    a ∈ keys.foldl addKey table ↔ a ∈ table ∨ a ∈ keys := by
  induction keys generalizing table with
  | nil => simp
  | cons key keys ih => rw [List.foldl_cons, ih, mem_addKey, List.mem_cons, or_assoc]

theorem nodup_addKey [DecidableEq κ] {table : List κ} (h : table.Nodup) (key : κ) :
    (addKey table key).Nodup := by
  unfold addKey
  split
  · exact h
  · rename_i absent
    rw [List.nodup_append]
    refine ⟨h, by simp, ?_⟩
    intro a ha b hb same
    rw [List.mem_singleton] at hb
    exact absent (hb ▸ same ▸ ha)

theorem map_upsert [DecidableEq κ] (keyOf : α → κ) (key : κ) {change : α → α} {fresh : α}
    (kept : ∀ a, keyOf (change a) = keyOf a) (made : keyOf fresh = key) (table : List α) :
    (upsert (fun a => keyOf a = key) change fresh table).map keyOf =
      addKey (table.map keyOf) key := by
  induction table with
  | nil => simp [upsert, addKey, made]
  | cons a as ih =>
    by_cases h : keyOf a = key
    · simp [upsert, addKey, h, kept]
    · have h' : key ≠ keyOf a := fun e => h e.symm
      by_cases m : key ∈ as.map keyOf
      · simp only [addKey, m, if_true] at ih
        simp [upsert, addKey, h, ih, m]
      · simp only [addKey, m, if_false] at ih
        simp [upsert, addKey, h, h', ih, m]

theorem upsert_of_mem [DecidableEq κ] {keyOf : α → κ} {key : κ} {change : α → α} {fresh : α}
    {table : List α} (distinct : (table.map keyOf).Nodup) (known : key ∈ table.map keyOf) :
    upsert (fun a => keyOf a = key) change fresh table =
      table.map fun a => if keyOf a = key then change a else a := by
  induction table with
  | nil => simp at known
  | cons a as ih =>
    rw [List.map_cons, List.nodup_cons] at distinct
    by_cases h : keyOf a = key
    · have others : as.map (fun b => if keyOf b = key then change b else b) = as := by
        conv => rhs; rw [← List.map_id as]
        refine List.map_congr_left fun b hb => if_neg fun same => distinct.1 ?_
        exact h.trans same.symm ▸ List.mem_map_of_mem hb
      simp only [upsert, h, decide_true, if_true, List.map_cons, others]
    · have known_later : key ∈ as.map keyOf :=
        (List.mem_cons.1 known).resolve_left fun same => h same.symm
      simp [upsert, h, ih distinct.2 known_later]

theorem upsert_of_notMem [DecidableEq κ] {keyOf : α → κ} {key : κ} {change : α → α} {fresh : α}
    {table : List α} (absent : key ∉ table.map keyOf) :
    upsert (fun a => keyOf a = key) change fresh table = table ++ [fresh] := by
  induction table with
  | nil => rfl
  | cons a as ih =>
    rw [List.map_cons, List.mem_cons, not_or] at absent
    simp [upsert, Ne.symm absent.1, ih absent.2]

theorem mem_upsert {p : α → Bool} {change : α → α} {fresh a : α} {table : List α}
    (member : a ∈ upsert p change fresh table) :
    a ∈ table ∨ (∃ b ∈ table, a = change b) ∨ a = fresh := by
  induction table with
  | nil => exact Or.inr (Or.inr (List.mem_singleton.1 member))
  | cons b table ih =>
    rw [upsert] at member
    split at member
    · rcases List.mem_cons.1 member with changed | rest
      · exact Or.inr (Or.inl ⟨b, List.mem_cons_self, changed⟩)
      · exact Or.inl (List.mem_cons_of_mem b rest)
    · rcases List.mem_cons.1 member with rfl | rest
      · exact Or.inl List.mem_cons_self
      · rcases ih rest with kept | ⟨c, listed, changed⟩ | added
        · exact Or.inl (List.mem_cons_of_mem b kept)
        · exact Or.inr (Or.inl ⟨c, List.mem_cons_of_mem b listed, changed⟩)
        · exact Or.inr (Or.inr added)

theorem addKey_eraseDups [DecidableEq κ] (keys : List κ) (key : κ) :
    addKey keys.eraseDups key = (keys ++ [key]).eraseDups := by
  rw [addKey, List.eraseDups_append]
  by_cases known : key ∈ keys <;> simp [known, List.removeAll, List.eraseDups_cons]

def get? [DecidableEq κ] (table : List (κ × ν)) (key : κ) : Option ν :=
  (table.find? fun entry => entry.1 = key).map Prod.snd

theorem get?_append [DecidableEq κ] (first second : List (κ × ν)) (key : κ) :
    get? (first ++ second) key = (get? first key).or (get? second key) := by
  simp only [get?, List.find?_append, Option.map_or]

/-- Keeps the first of every run of equal entries. -/
def dropRepeats [DecidableEq α] : List α → List α
  | [] => []
  | [a] => [a]
  | a :: b :: rest => if a = b then dropRepeats (b :: rest) else a :: dropRepeats (b :: rest)

end ShaderPass.Table
