import ShaderPass.Dialect.Conditional
import ShaderPass.Proofs.Text.Lines

/-! Resolving version conditions of any text, its conditional lines well nested or not. Resolution leaves
lines out and adds none, and the lines that are left read as the resolved tree: no chain of it depends on
the version only, so that resolving it again changes nothing. -/
namespace ShaderPass.Conditional

def Chain.header : Chain → Text
  | .last header _ _ => header
  | .more header _ _ => header

theorem Chain.header_resolve (version : Nat) (branches : Chain) :
    (branches.resolve version).header = branches.header := by
  cases branches <;> simp only [resolve, header]

theorem Block.append_done (block : Block) : block.append .done = block := by
  match block with
  | .done => rfl
  | .line t rest => rw [append, rest.append_done]
  | .chain branches rest => rw [append, rest.append_done]

theorem Block.append_assoc (a b c : Block) : (a.append b).append c = a.append (b.append c) := by
  match a with
  | .done => rfl
  | .line t rest => rw [append, append, append, rest.append_assoc]
  | .chain branches rest => rw [append, append, append, rest.append_assoc]

section Shape

mutual

/-- Whether every line of a block plays its part. A chain may lack its closing line only where nothing
follows it; `atEnd` says that nothing follows the block. -/
def Block.Fits (atEnd : Prop) : Block → Prop
  | .done => True
  | .line t rest => roleOf t = .plain ∧ rest.Fits atEnd
  | .chain branches rest =>
    roleOf branches.header = .opens ∧ branches.Fits (atEnd ∧ rest = .done) ∧ rest.Fits atEnd

def Chain.Fits (atEnd : Prop) : Chain → Prop
  | .last _ body none => atEnd ∧ body.Fits atEnd
  | .last _ body (some stop) => roleOf stop = .closes ∧ body.Fits False
  | .more _ body rest => body.Fits False ∧ roleOf rest.header = .continues ∧ rest.Fits atEnd

end

mutual

theorem Block.Fits.mono {p q : Prop} (h : p → q) {block : Block} (fits : block.Fits p) :
    block.Fits q := by
  match block with
  | .done => trivial
  | .line t rest => exact ⟨fits.1, fits.2.mono h⟩
  | .chain branches rest => exact ⟨fits.1, fits.2.1.mono (And.imp_left h), fits.2.2.mono h⟩

theorem Chain.Fits.mono {p q : Prop} (h : p → q) {branches : Chain} (fits : branches.Fits p) :
    branches.Fits q := by
  match branches with
  | .last header body none => exact ⟨h fits.1, fits.2.mono h⟩
  | .last header body (some stop) => exact fits
  | .more header body rest => exact ⟨fits.1, fits.2.1, fits.2.2.mono h⟩

end

theorem Block.Fits.append {atEnd : Prop} {a b : Block} (ha : a.Fits (atEnd ∧ b = .done))
    (hb : b.Fits atEnd) : (a.append b).Fits atEnd := by
  match a with
  | .done => exact hb
  | .line t rest => exact ⟨ha.1, ha.2.append hb⟩
  | .chain branches rest =>
    refine ⟨ha.1, ha.2.1.mono ?_, ha.2.2.append hb⟩
    rintro ⟨⟨last, rfl⟩, rfl⟩
    exact ⟨last, rfl⟩

theorem Chain.Fits.select (version : Nat) {atEnd : Prop} {branches : Chain}
    (fits : branches.Fits atEnd) : (branches.select version).Fits atEnd := by
  match branches with
  | .last header body close =>
    have body_fits : body.Fits atEnd := by
      cases close with
      | none => exact fits.2
      | some stop => exact fits.2.mono False.elim
    rw [Chain.select]
    split
    · exact body_fits
    · trivial
  | .more header body rest =>
    rw [Chain.select]
    split
    · exact fits.1.mono False.elim
    · exact fits.2.2.select version

mutual

theorem Block.Fits.resolve (version : Nat) {atEnd : Prop} {block : Block} (fits : block.Fits atEnd) :
    (block.resolve version).Fits atEnd := by
  match block with
  | .done => trivial
  | .line t rest =>
    rw [Block.resolve]
    exact ⟨fits.1, fits.2.resolve version⟩
  | .chain branches rest =>
    obtain ⟨opens, branches_fit, rest_fits⟩ := fits
    have inner := (branches_fit.resolve version).mono (q := atEnd ∧ rest.resolve version = .done) (by
      rintro ⟨last, rfl⟩
      exact ⟨last, rfl⟩)
    have outer := rest_fits.resolve version
    rw [Block.resolve]
    split
    · exact (inner.select version).append outer
    · exact ⟨by rw [Chain.header_resolve]; exact opens, inner, outer⟩

theorem Chain.Fits.resolve (version : Nat) {atEnd : Prop} {branches : Chain}
    (fits : branches.Fits atEnd) : (branches.resolve version).Fits atEnd := by
  match branches with
  | .last header body none =>
    rw [Chain.resolve]
    exact ⟨fits.1, fits.2.resolve version⟩
  | .last header body (some stop) =>
    rw [Chain.resolve]
    exact ⟨fits.1, fits.2.resolve version⟩
  | .more header body rest =>
    rw [Chain.resolve]
    exact ⟨fits.1.resolve version, by rw [Chain.header_resolve]; exact fits.2.1, fits.2.2.resolve version⟩

end

def FitsBefore (block : Block) : Stops → Prop
  | [] => block.Fits True
  | (stop, next) :: stops =>
    block.Fits False ∧ (roleOf stop = .continues ∨ roleOf stop = .closes) ∧ FitsBefore next stops

theorem fits_collect (header : Text) {body : Block} {stops : Stops} (fits : FitsBefore body stops) :
    (collect header body stops).1.header = header ∧
      (collect header body stops).1.Fits
        ((collect header body stops).2.1 = .done ∧ (collect header body stops).2.2 = []) ∧
      FitsBefore (collect header body stops).2.1 (collect header body stops).2.2 := by
  induction stops generalizing header body with
  | nil =>
    have last : (Block.done = .done ∧ ([] : Stops) = []) := ⟨rfl, rfl⟩
    exact ⟨rfl, ⟨last, Block.Fits.mono (fun _ => last) fits⟩, trivial⟩
  | cons entry stops ih =>
    obtain ⟨stop, next⟩ := entry
    obtain ⟨body_fits, role, later⟩ := fits
    rw [collect]
    split
    · rename_i closes
      exact ⟨rfl, ⟨closes, body_fits⟩, later⟩
    · rename_i no_close
      obtain ⟨same, rest_fits, after⟩ := ih stop later
      exact ⟨rfl, ⟨body_fits, by rw [same]; exact role.resolve_right no_close, rest_fits⟩, after⟩

theorem fits_parse (lines : List Text) : FitsBefore (parse lines).1 (parse lines).2 := by
  induction lines with
  | nil => trivial
  | cons line lines ih =>
    rw [parse]
    cases role : roleOf line with
    | plain =>
      cases stops : (parse lines).2 with
      | nil =>
        rw [stops] at ih
        exact ⟨role, ih⟩
      | cons entry left =>
        rw [stops] at ih
        exact ⟨⟨role, ih.1⟩, ih.2⟩
    | opens =>
      obtain ⟨same, branches_fit, after⟩ := fits_collect line ih
      have opens : roleOf (collect line (parse lines).1 (parse lines).2).1.header = .opens := by
        rw [same]
        exact role
      cases left : (collect line (parse lines).1 (parse lines).2).2.2 with
      | nil =>
        rw [left] at after branches_fit
        exact ⟨opens, branches_fit.mono fun last => ⟨trivial, last.1⟩, after⟩
      | cons entry stops =>
        obtain ⟨stop, next⟩ := entry
        rw [left] at after branches_fit
        refine ⟨⟨opens, branches_fit.mono fun last => ?_, after.1⟩, after.2⟩
        exact absurd last.2 (List.cons_ne_nil _ _)
    | continues => exact ⟨trivial, Or.inl role, ih⟩
    | closes => exact ⟨trivial, Or.inr role, ih⟩

end Shape

section Reading

theorem Chain.exists_render (branches : Chain) :
    ∃ tail, branches.render = branches.header :: tail := by
  cases branches with
  | last header body close => exact ⟨_, rfl⟩
  | more header body rest => exact ⟨_, rfl⟩

mutual

theorem Block.Fits.parse_render {atEnd : Prop} {block : Block} (fits : block.Fits atEnd)
    {lines : List Text} (last : atEnd → lines = []) :
    parse (block.render ++ lines) = (block.append (parse lines).1, (parse lines).2) := by
  match block with
  | .done => rfl
  | .line t rest =>
    obtain ⟨plain, rest_fits⟩ := fits
    rw [Block.render, List.cons_append, parse, rest_fits.parse_render last, plain]
    rfl
  | .chain branches rest =>
    obtain ⟨opens, branches_fit, rest_fits⟩ := fits
    obtain ⟨tail, shape⟩ := branches.exists_render
    have empty : atEnd ∧ rest = .done → rest.render ++ lines = [] := by
      rintro ⟨h, rfl⟩
      exact last h
    have collected := branches_fit.collect_parse shape empty
    rw [Block.render, List.append_assoc, shape, List.cons_append, parse, opens]
    simp only [collected, rest_fits.parse_render last]
    rfl

theorem Chain.Fits.collect_parse {atEnd : Prop} {branches : Chain} (fits : branches.Fits atEnd)
    {tail : List Text} (shape : branches.render = branches.header :: tail) {lines : List Text}
    (last : atEnd → lines = []) :
    collect branches.header (parse (tail ++ lines)).1 (parse (tail ++ lines)).2 =
      (branches, (parse lines).1, (parse lines).2) := by
  match branches with
  | .last header body none =>
    obtain ⟨h, body_fits⟩ := fits
    obtain rfl := last h
    obtain rfl : body.render = tail := by simpa [Chain.render, Chain.header] using shape
    rw [body_fits.parse_render last, Chain.header]
    simp only [parse, Block.append_done, collect]
  | .last header body (some stop) =>
    obtain ⟨closes, body_fits⟩ := fits
    obtain rfl : body.render ++ [stop] = tail := by simpa [Chain.render, Chain.header] using shape
    rw [List.append_assoc, body_fits.parse_render False.elim, List.singleton_append, parse, closes,
      Chain.header]
    simp only [Block.append_done, collect, closes, if_true]
  | .more header body rest =>
    obtain ⟨body_fits, continues, rest_fits⟩ := fits
    obtain ⟨later, rest_shape⟩ := rest.exists_render
    obtain rfl : body.render ++ rest.render = tail := by
      simpa [Chain.render, Chain.header] using shape
    have collected := rest_fits.collect_parse rest_shape last
    rw [List.append_assoc, body_fits.parse_render False.elim, rest_shape, List.cons_append, parse,
      continues, Chain.header]
    simp only [Block.append_done, collect, continues, collected]
    rfl

end

theorem FitsBefore.parse_render {block : Block} {stops : Stops} (fits : FitsBefore block stops) :
    parse (block.render ++ renderStops stops) = (block, stops) := by
  induction stops generalizing block with
  | nil =>
    rw [renderStops, List.flatMap_nil, Block.Fits.parse_render fits fun _ => rfl]
    simp only [parse, Block.append_done]
  | cons entry stops ih =>
    obtain ⟨stop, next⟩ := entry
    obtain ⟨block_fits, role, later⟩ := fits
    have rest : renderStops ((stop, next) :: stops) = stop :: (next.render ++ renderStops stops) := rfl
    have read : parse (stop :: (next.render ++ renderStops stops)) = (.done, (stop, next) :: stops) := by
      rw [parse, ih later]
      rcases role with role | role <;> rw [role]
    rw [rest, block_fits.parse_render False.elim, read, Block.append_done]

end Reading

section Resolved

variable {version : Nat}

mutual

def Block.IsResolved (version : Nat) : Block → Prop
  | .done => True
  | .line _ rest => rest.IsResolved version
  | .chain branches rest =>
    branches.isResolvable version = false ∧ branches.IsResolved version ∧ rest.IsResolved version

def Chain.IsResolved (version : Nat) : Chain → Prop
  | .last _ body _ => body.IsResolved version
  | .more _ body rest => body.IsResolved version ∧ rest.IsResolved version

end

theorem Block.IsResolved.append {a b : Block} (ha : a.IsResolved version) (hb : b.IsResolved version) :
    (a.append b).IsResolved version := by
  match a with
  | .done => exact hb
  | .line t rest => exact ha.append (a := rest) hb
  | .chain branches rest => exact ⟨ha.1, ha.2.1, ha.2.2.append hb⟩

theorem Chain.IsResolved.select {branches : Chain} (h : branches.IsResolved version) :
    (branches.select version).IsResolved version := by
  match branches with
  | .last header body close =>
    rw [Chain.select]
    split
    · exact h
    · trivial
  | .more header body rest =>
    rw [Chain.select]
    split
    · exact h.1
    · exact h.2.select

theorem Chain.isResolvable_resolve (version : Nat) (branches : Chain) :
    (branches.resolve version).isResolvable version = branches.isResolvable version := by
  match branches with
  | .last header body close => rfl
  | .more header body rest => rw [resolve, isResolvable, isResolvable, rest.isResolvable_resolve version]

mutual

theorem Block.isResolved_resolve (version : Nat) (block : Block) :
    (block.resolve version).IsResolved version := by
  match block with
  | .done => trivial
  | .line t rest =>
    rw [Block.resolve]
    exact rest.isResolved_resolve version
  | .chain branches rest =>
    have inner := branches.isResolved_resolve version
    have outer := rest.isResolved_resolve version
    rw [Block.resolve]
    split
    · exact inner.select.append outer
    · rename_i kept
      refine ⟨?_, inner, outer⟩
      rw [Chain.isResolvable_resolve]
      exact Bool.eq_false_iff.2 kept

theorem Chain.isResolved_resolve (version : Nat) (branches : Chain) :
    (branches.resolve version).IsResolved version := by
  match branches with
  | .last header body close =>
    rw [Chain.resolve]
    exact body.isResolved_resolve version
  | .more header body rest =>
    rw [Chain.resolve]
    exact ⟨body.isResolved_resolve version, rest.isResolved_resolve version⟩

end

mutual

theorem Block.IsResolved.resolve_eq {block : Block} (h : block.IsResolved version) :
    block.resolve version = block := by
  match block with
  | .done => rfl
  | .line t rest =>
    have inner : rest.IsResolved version := h
    rw [Block.resolve, inner.resolve_eq]
  | .chain branches rest =>
    obtain ⟨kept, inner, outer⟩ := h
    rw [Block.resolve, inner.resolve_eq, outer.resolve_eq, kept]
    rfl

theorem Chain.IsResolved.resolve_eq {branches : Chain} (h : branches.IsResolved version) :
    branches.resolve version = branches := by
  match branches with
  | .last header body close =>
    have inner : body.IsResolved version := h
    rw [Chain.resolve, inner.resolve_eq]
  | .more header body rest => rw [Chain.resolve, h.1.resolve_eq, h.2.resolve_eq]

end

end Resolved

section Lines

theorem Chain.render_select_sublist (version : Nat) (branches : Chain) :
    (branches.select version).render.Sublist branches.render := by
  match branches with
  | .last header body close =>
    rw [select, render]
    split
    · exact (List.sublist_append_left _ _).cons header
    · exact List.nil_sublist _
  | .more header body rest =>
    rw [select, render]
    split
    · exact (List.sublist_append_left _ _).cons header
    · exact ((rest.render_select_sublist version).trans (List.sublist_append_right _ _)).cons header

mutual

theorem Block.render_resolve_sublist (version : Nat) (block : Block) :
    (block.resolve version).render.Sublist block.render := by
  match block with
  | .done => exact List.Sublist.refl _
  | .line t rest =>
    rw [Block.resolve, Block.render, Block.render]
    exact (rest.render_resolve_sublist version).cons_cons t
  | .chain branches rest =>
    have inner := branches.render_resolve_sublist version
    have outer := rest.render_resolve_sublist version
    rw [Block.resolve, Block.render]
    split
    · rw [Block.render_append]
      exact ((Chain.render_select_sublist version _).trans inner).append outer
    · exact inner.append outer

theorem Chain.render_resolve_sublist (version : Nat) (branches : Chain) :
    (branches.resolve version).render.Sublist branches.render := by
  match branches with
  | .last header body close =>
    rw [Chain.resolve, Chain.render, Chain.render]
    exact ((body.render_resolve_sublist version).cons_cons header).append (List.Sublist.refl _)
  | .more header body rest =>
    rw [Chain.resolve, Chain.render, Chain.render]
    exact ((body.render_resolve_sublist version).cons_cons header).append
      (rest.render_resolve_sublist version)

end

theorem Block.resolve_append (version : Nat) (a b : Block) :
    (a.append b).resolve version = (a.resolve version).append (b.resolve version) := by
  match a with
  | .done => rfl
  | .line t rest => rw [append, resolve, resolve, append, rest.resolve_append version b]
  | .chain branches rest =>
    rw [append, resolve, resolve, rest.resolve_append version b]
    split
    · rw [append_assoc]
    · rw [append]

def resolveStops (version : Nat) (stops : Stops) : Stops :=
  stops.map fun (stop, next) => (stop, next.resolve version)

theorem resolve_settle (version : Nat) (block : Block) (stops : Stops) :
    (settle block stops).resolve version =
      settle (block.resolve version) (resolveStops version stops) := by
  induction stops generalizing block with
  | nil => rfl
  | cons entry stops ih =>
    obtain ⟨stop, next⟩ := entry
    rw [settle, Block.resolve_append, Block.resolve, ih]
    rfl

theorem FitsBefore.resolve (version : Nat) {block : Block} {stops : Stops}
    (fits : FitsBefore block stops) :
    FitsBefore (block.resolve version) (resolveStops version stops) := by
  induction stops generalizing block with
  | nil => exact Block.Fits.resolve version fits
  | cons entry stops ih => exact ⟨fits.1.resolve version, fits.2.1, ih fits.2.2⟩

theorem Block.ofLines_render_resolve (version : Nat) (lines : List Text) :
    ofLines ((ofLines lines).resolve version).render = (ofLines lines).resolve version := by
  have tree : (ofLines lines).resolve version = settle ((parse lines).1.resolve version)
      (resolveStops version (parse lines).2) := resolve_settle version _ _
  rw [tree, render_settle, ofLines, ((fits_parse lines).resolve version).parse_render]

/-- The lines of a resolved text are lines of the text in their order, unless none is left; no chain of
them depends on the version only, and resolving them again changes nothing. -/
theorem downlevel_normal (t : Text) (version : Nat) :
    (downlevel t version = [] ∨
        (Text.feedLines (downlevel t version)).Sublist (Text.feedLines t)) ∧
      (Block.ofLines (Text.feedLines (downlevel t version))).IsResolved version ∧
      downlevel (downlevel t version) version = downlevel t version := by
  have kept : ((Block.ofLines (Text.feedLines t)).resolve version).render.Sublist
      (Text.feedLines t) := by
    have sub := (Block.ofLines (Text.feedLines t)).render_resolve_sublist version
    rwa [Block.render_ofLines] at sub
  by_cases none_left : ((Block.ofLines (Text.feedLines t)).resolve version).render = []
  · -- The empty text has one line, which is plain.
    have empty : downlevel t version = [] := by
      rw [downlevel, none_left]
      rfl
    rw [empty]
    exact ⟨Or.inl rfl, trivial, rfl⟩
  · have lines : Text.feedLines (downlevel t version) =
        ((Block.ofLines (Text.feedLines t)).resolve version).render :=
      Text.feedLines_joinFeeds_of_sublist none_left kept
    have read : Block.ofLines (Text.feedLines (downlevel t version)) =
        (Block.ofLines (Text.feedLines t)).resolve version := by
      rw [lines, Block.ofLines_render_resolve]
    have resolved := (Block.ofLines (Text.feedLines t)).isResolved_resolve version
    refine ⟨Or.inr (lines ▸ kept), read ▸ resolved, ?_⟩
    rw [downlevel, read, resolved.resolve_eq]
    rfl

end Lines

end ShaderPass.Conditional
