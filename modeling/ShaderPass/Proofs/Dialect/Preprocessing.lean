import ShaderPass.Proofs.Dialect.Resolution

/-! A preprocessor that reads lines one at a time, and the lines it keeps before and after version
conditions are resolved.

Lines come with their numbers, so that the assigned value of a header can depend on the place of the
header and not only on its wording. -/
namespace ShaderPass.Conditional

abbrev NumberedLine := Text × Nat

structure Frame where
  decided : Bool
  live : Bool

/-- Whether a header is true. A version condition speaks for itself, `#else` is true, and any other
header has its assigned value. -/
def holds (version : Nat) (assigned : Bool) (header : Text) : Bool :=
  match Directive.parse? header with
  | some ("if", condition) | some ("elif", condition) =>
    if ConstExpr.isVersionCondition condition then
      match ConstExpr.evaluate condition (some version) with
      | .ok n => n ≠ 0
      | .error _ => false
    else assigned
  | some ("else", _) => true
  | _ => assigned

/-- The chain after one of its headers: the first true header makes its branch live. -/
def Frame.enter (version : Nat) (assign : Nat → Text → Bool) (frame : Frame)
    (header : NumberedLine) : Frame :=
  let applies := !frame.decided && holds version (assign header.2 header.1) header.1
  ⟨frame.decided || applies, applies⟩

def Frame.fresh : Frame := ⟨false, false⟩

/-- The plain lines that the preprocessor keeps, `stack` being the open chains, innermost first. -/
def keep (version : Nat) (assign : Nat → Text → Bool) (stack : List Frame) :
    List NumberedLine → List Text
  | [] => []
  | line :: rest =>
    match roleOf line.1, stack with
    | .plain, _ =>
      if stack.all Frame.live then line.1 :: keep version assign stack rest
      else keep version assign stack rest
    | .opens, _ => keep version assign (Frame.fresh.enter version assign line :: stack) rest
    | .continues, frame :: outer =>
      keep version assign (frame.enter version assign line :: outer) rest
    | .continues, [] => keep version assign [] rest
    | .closes, _ => keep version assign stack.tail rest

/-- The text that the preprocessor makes of a text, its lines being numbered from zero. -/
def preprocess (version : Nat) (assign : Nat → Text → Bool) (t : Text) : Text :=
  Text.joinFeeds (keep version assign [] (Text.feedLines t).zipIdx)

/-- Whether conditional lines are well nested while `depth` chains are open: every chain is closed,
and branch lines stand inside a chain. -/
def wellNested (depth : Nat) : List Text → Bool
  | [] => depth = 0
  | line :: rest =>
    match roleOf line with
    | .plain => wellNested depth rest
    | .opens => wellNested (depth + 1) rest
    | .continues => 0 < depth && wellNested depth rest
    | .closes => 0 < depth && wellNested (depth - 1) rest

theorem wellNested_nil : wellNested 0 [] = true :=
  rfl

theorem eq_zero_of_wellNested_nil {depth : Nat} (h : wellNested depth [] = true) : depth = 0 :=
  of_decide_eq_true h

section Roles

variable {line : Text} {depth : Nat} {lines : List Text}

theorem wellNested_cons_of_plain (plain : roleOf line = .plain) :
    wellNested depth (line :: lines) = wellNested depth lines := by
  rw [wellNested, plain]

theorem wellNested_cons_of_opens (opens : roleOf line = .opens) :
    wellNested depth (line :: lines) = wellNested (depth + 1) lines := by
  rw [wellNested, opens]

theorem wellNested_cons_of_continues (continues : roleOf line = .continues) :
    wellNested depth (line :: lines) = true ↔ 0 < depth ∧ wellNested depth lines = true := by
  rw [wellNested, continues, Bool.and_eq_true, decide_eq_true_iff]

theorem wellNested_cons_of_closes (closes : roleOf line = .closes) :
    wellNested depth (line :: lines) = true ↔ 0 < depth ∧ wellNested (depth - 1) lines = true := by
  rw [wellNested, closes, Bool.and_eq_true, decide_eq_true_iff]

end Roles

theorem holds_eq_getD (version : Nat) (assigned : Bool) (header : Text) :
    holds version assigned header = (applies? version header).getD assigned := by
  unfold holds applies?
  rcases Directive.parse? header with _ | ⟨name, condition⟩
  · rfl
  · by_cases conditional : name = "if" ∨ name = "elif"
    · rcases conditional with rfl | rfl
      all_goals
        cases versioned : ConstExpr.isVersionCondition condition with
        | false => simp [versioned]
        | true =>
          cases value : ConstExpr.evaluate condition (some version) <;> simp [versioned, value]
    · rw [not_or] at conditional
      by_cases alternative : name = "else"
      · subst alternative
        rfl
      · simp [conditional, alternative]

theorem Frame.enter_decided (version : Nat) (assign : Nat → Text → Bool) (frame : Frame)
    (header : NumberedLine) (h : frame.decided = true) :
    frame.enter version assign header = ⟨true, false⟩ := by
  simp [enter, h]

theorem Frame.enter_of_applies? {version : Nat} {header : NumberedLine} {value : Bool}
    (assign : Nat → Text → Bool) {frame : Frame} (undecided : frame.decided = false)
    (h : applies? version header.1 = some value) :
    frame.enter version assign header = ⟨value, value⟩ := by
  simp [enter, undecided, holds_eq_getD, h]

mutual

def Block.IsClosed : Block → Prop
  | .done => True
  | .line t rest => roleOf t = .plain ∧ rest.IsClosed
  | .chain branches rest => roleOf branches.header = .opens ∧ branches.IsClosed ∧ rest.IsClosed

def Chain.IsClosed : Chain → Prop
  | .last _ body close => body.IsClosed ∧ ∃ stop, close = some stop ∧ roleOf stop = .closes
  | .more _ body rest => body.IsClosed ∧ roleOf rest.header = .continues ∧ rest.IsClosed

end

def StopsClose : Nat → Stops → Prop
  | depth, [] => depth = 0
  | depth, (stop, next) :: stops =>
    0 < depth ∧ next.IsClosed ∧
      (roleOf stop = .closes ∧ StopsClose (depth - 1) stops ∨
        roleOf stop = .continues ∧ StopsClose depth stops)

theorem isClosed_collect (header : Text) (body : Block) (closed : body.IsClosed) (depth : Nat)
    (stops : Stops) (h : StopsClose (depth + 1) stops) :
    (collect header body stops).1.header = header ∧ (collect header body stops).1.IsClosed ∧
      (collect header body stops).2.1.IsClosed ∧
      StopsClose depth (collect header body stops).2.2 := by
  induction stops generalizing header body with
  | nil => exact absurd h (Nat.succ_ne_zero depth)
  | cons entry stops ih =>
    obtain ⟨stop, next⟩ := entry
    obtain ⟨_, next_closed, ⟨closes, h⟩ | ⟨continues, h⟩⟩ := h
    · rw [collect, if_pos closes]
      exact ⟨rfl, ⟨closed, stop, rfl, closes⟩, next_closed, h⟩
    · obtain ⟨same, branches, after, left⟩ := ih stop next next_closed h
      rw [collect, if_neg (by rw [continues]; decide)]
      exact ⟨rfl, ⟨closed, by rw [same]; exact continues, branches⟩, after, left⟩

theorem isClosed_parse (depth : Nat) (lines : List Text) (h : wellNested depth lines = true) :
    (parse lines).1.IsClosed ∧ StopsClose depth (parse lines).2 := by
  induction lines generalizing depth with
  | nil => exact ⟨trivial, eq_zero_of_wellNested_nil h⟩
  | cons line lines ih =>
    cases role : roleOf line with
    | plain =>
      obtain ⟨block, stops⟩ := ih depth (wellNested_cons_of_plain role ▸ h)
      simp only [parse, role]
      exact ⟨⟨role, block⟩, stops⟩
    | opens =>
      obtain ⟨block, stops⟩ := ih (depth + 1) (wellNested_cons_of_opens role ▸ h)
      obtain ⟨same, branches, after, left⟩ :=
        isClosed_collect line (parse lines).1 block depth (parse lines).2 stops
      simp only [parse, role]
      exact ⟨⟨by rw [same]; exact role, branches, after⟩, left⟩
    | continues =>
      obtain ⟨positive, nested⟩ := (wellNested_cons_of_continues role).1 h
      obtain ⟨block, stops⟩ := ih depth nested
      simp only [parse, role]
      exact ⟨trivial, positive, block, Or.inr ⟨role, stops⟩⟩
    | closes =>
      obtain ⟨positive, nested⟩ := (wellNested_cons_of_closes role).1 h
      obtain ⟨block, stops⟩ := ih (depth - 1) nested
      simp only [parse, role]
      exact ⟨trivial, positive, block, Or.inl ⟨role, stops⟩⟩

theorem isClosed_ofLines {lines : List Text} (h : wellNested 0 lines = true) :
    (Block.ofLines lines).IsClosed := by
  obtain ⟨closed, stops⟩ := isClosed_parse 0 lines h
  cases left : (parse lines).2 with
  | nil => simpa [Block.ofLines, left, settle] using closed
  | cons entry rest =>
    rw [left] at stops
    exact absurd stops.1 (Nat.lt_irrefl 0)

section Run

variable {version : Nat} {assign : Nat → Text → Bool}

theorem keep_nil (stack : List Frame) : keep version assign stack [] = [] := rfl

theorem keep_cons (stack : List Frame) (line : NumberedLine) (rest : List NumberedLine) :
    keep version assign stack (line :: rest) =
      match roleOf line.1, stack with
      | .plain, _ =>
        if stack.all Frame.live then line.1 :: keep version assign stack rest
        else keep version assign stack rest
      | .opens, _ => keep version assign (Frame.fresh.enter version assign line :: stack) rest
      | .continues, frame :: outer =>
        keep version assign (frame.enter version assign line :: outer) rest
      | .continues, [] => keep version assign [] rest
      | .closes, _ => keep version assign stack.tail rest := by
  cases stack <;> rfl

theorem keep_plain {line : NumberedLine} (h : roleOf line.1 = .plain) (stack : List Frame)
    (rest : List NumberedLine) :
    keep version assign stack (line :: rest) =
      (if stack.all Frame.live then [line.1] else []) ++ keep version assign stack rest := by
  cases stack <;> rw [keep_cons, h] <;> cases List.all _ Frame.live <;> rfl

theorem keep_opens {line : NumberedLine} (h : roleOf line.1 = .opens) (stack : List Frame)
    (rest : List NumberedLine) :
    keep version assign stack (line :: rest) =
      keep version assign (Frame.fresh.enter version assign line :: stack) rest := by
  cases stack <;> rw [keep_cons, h]

theorem keep_continues {line : NumberedLine} (h : roleOf line.1 = .continues) (frame : Frame)
    (stack : List Frame) (rest : List NumberedLine) :
    keep version assign (frame :: stack) (line :: rest) =
      keep version assign (frame.enter version assign line :: stack) rest := by
  rw [keep_cons, h]

theorem keep_closes {line : NumberedLine} (h : roleOf line.1 = .closes) (frame : Frame)
    (stack : List Frame) (rest : List NumberedLine) :
    keep version assign (frame :: stack) (line :: rest) = keep version assign stack rest := by
  rw [keep_cons, h, List.tail_cons]

end Run

/-- Lines that leave the open chains alone: what is kept of them depends only on whether every open
chain is live. -/
def IsStretch (version : Nat) (assign : Nat → Text → Bool) (lines : List NumberedLine) : Prop :=
  ∀ stack rest, keep version assign stack (lines ++ rest) =
    (if stack.all Frame.live then keep version assign [] lines else []) ++
      keep version assign stack rest

def IsChainTail (version : Nat) (assign : Nat → Text → Bool) (lines : List NumberedLine) : Prop :=
  ∀ frame stack rest, keep version assign (frame :: stack) (lines ++ rest) =
    (if stack.all Frame.live then keep version assign [frame] lines else []) ++
      keep version assign stack rest

section Shape

variable {version : Nat} {assign : Nat → Text → Bool}

theorem isStretch_nil : IsStretch version assign [] := by
  intro stack rest
  simp [keep_nil]

theorem IsStretch.keep_append {lines : List NumberedLine} (h : IsStretch version assign lines)
    (rest : List NumberedLine) :
    keep version assign [] (lines ++ rest) =
      keep version assign [] lines ++ keep version assign [] rest := by
  simpa using h [] rest

theorem IsStretch.append {first second : List NumberedLine} (h₁ : IsStretch version assign first)
    (h₂ : IsStretch version assign second) : IsStretch version assign (first ++ second) := by
  intro stack rest
  rw [List.append_assoc, h₁, h₂, h₁.keep_append]
  split <;> simp

theorem IsStretch.cons_plain {line : NumberedLine} {lines : List NumberedLine}
    (plain : roleOf line.1 = .plain) (h : IsStretch version assign lines) :
    IsStretch version assign (line :: lines) := by
  intro stack rest
  rw [List.cons_append, keep_plain plain, h, keep_plain plain]
  split <;> simp

theorem IsChainTail.isStretch {header : NumberedLine} {tail : List NumberedLine}
    (opens : roleOf header.1 = .opens) (h : IsChainTail version assign tail) :
    IsStretch version assign (header :: tail) := by
  intro stack rest
  rw [List.cons_append, keep_opens opens, h, keep_opens opens]

theorem isChainTail_close {stop : NumberedLine} (closes : roleOf stop.1 = .closes)
    {body : List NumberedLine} (h : IsStretch version assign body) :
    IsChainTail version assign (body ++ [stop]) := by
  intro frame stack rest
  rw [List.append_assoc, h, h, List.singleton_append, keep_closes closes, keep_closes closes,
    List.all_cons, List.all_cons, List.all_nil]
  cases frame.live <;> cases List.all stack Frame.live <;> simp [keep_nil]

theorem isChainTail_more {header : NumberedLine} (continues : roleOf header.1 = .continues)
    {body tail : List NumberedLine} (h₁ : IsStretch version assign body)
    (h₂ : IsChainTail version assign tail) :
    IsChainTail version assign (body ++ header :: tail) := by
  intro frame stack rest
  rw [List.append_assoc, h₁, h₁, List.cons_append, keep_continues continues, h₂,
    keep_continues continues, List.all_cons, List.all_cons, List.all_nil]
  cases frame.live <;> cases List.all stack Frame.live <;> simp

end Shape

theorem Chain.exists_header {branches : Chain} {lines : List NumberedLine}
    (h : lines.map Prod.fst = branches.render) :
    ∃ header tail, lines = header :: tail ∧ header.1 = branches.header := by
  cases branches with
  | last first body close =>
    rw [Chain.render, List.cons_append, List.map_eq_cons_iff] at h
    obtain ⟨header, tail, rfl, same, -⟩ := h
    exact ⟨header, tail, rfl, same⟩
  | more first body rest =>
    rw [Chain.render, List.cons_append, List.map_eq_cons_iff] at h
    obtain ⟨header, tail, rfl, same, -⟩ := h
    exact ⟨header, tail, rfl, same⟩

theorem Chain.lines_last {first stop : Text} {body : Block} {header : NumberedLine}
    {tail : List NumberedLine}
    (h : (header :: tail).map Prod.fst = (Chain.last first body (some stop)).render) :
    header.1 = first ∧ ∃ inner last, tail = inner ++ [last] ∧
      inner.map Prod.fst = body.render ∧ last.1 = stop := by
  rw [Chain.render, List.map_cons, List.cons_append, List.cons.injEq, List.map_eq_append_iff] at h
  obtain ⟨same, inner, last, rfl, h₁, h₂⟩ := h
  rw [Option.toList_some, List.map_eq_singleton_iff] at h₂
  obtain ⟨line, rfl, rfl⟩ := h₂
  exact ⟨same, inner, line, rfl, h₁, rfl⟩

theorem Chain.lines_more {first : Text} {body : Block} {rest : Chain} {header : NumberedLine}
    {tail : List NumberedLine}
    (h : (header :: tail).map Prod.fst = (Chain.more first body rest).render) :
    header.1 = first ∧ ∃ inner next later, tail = inner ++ next :: later ∧
      inner.map Prod.fst = body.render ∧ next.1 = rest.header ∧
      (next :: later).map Prod.fst = rest.render := by
  rw [Chain.render, List.map_cons, List.cons_append, List.cons.injEq, List.map_eq_append_iff] at h
  obtain ⟨same, inner, others, rfl, h₁, h₂⟩ := h
  obtain ⟨next, later, rfl, next_same⟩ := Chain.exists_header h₂
  exact ⟨same, inner, next, later, rfl, h₁, next_same, h₂⟩

mutual

theorem Block.isStretch (version : Nat) (assign : Nat → Text → Bool) (block : Block)
    (closed : block.IsClosed) (lines : List NumberedLine)
    (h : lines.map Prod.fst = block.render) : IsStretch version assign lines := by
  match block with
  | .done =>
    rw [Block.render, List.map_eq_nil_iff] at h
    rw [h]
    exact isStretch_nil
  | .line t rest =>
    obtain ⟨plain, rest_closed⟩ := closed
    rw [Block.render, List.map_eq_cons_iff] at h
    obtain ⟨line, lines, rfl, rfl, h⟩ := h
    exact (rest.isStretch version assign rest_closed lines h).cons_plain plain
  | .chain branches rest =>
    obtain ⟨opens, branches_closed, rest_closed⟩ := closed
    rw [Block.render, List.map_eq_append_iff] at h
    obtain ⟨first, second, rfl, h₁, h₂⟩ := h
    obtain ⟨header, tail, rfl, same⟩ := Chain.exists_header h₁
    have chain := branches.isChainTail version assign branches_closed header tail h₁
    exact (chain.isStretch (by rw [same]; exact opens)).append
      (rest.isStretch version assign rest_closed second h₂)

theorem Chain.isChainTail (version : Nat) (assign : Nat → Text → Bool) (branches : Chain)
    (closed : branches.IsClosed) (header : NumberedLine) (tail : List NumberedLine)
    (h : (header :: tail).map Prod.fst = branches.render) : IsChainTail version assign tail := by
  match branches with
  | .last first body close =>
    obtain ⟨body_closed, stop, rfl, closes⟩ := closed
    obtain ⟨-, inner, last, rfl, h₁, rfl⟩ := Chain.lines_last h
    exact isChainTail_close closes (body.isStretch version assign body_closed inner h₁)
  | .more first body rest =>
    obtain ⟨body_closed, continues, rest_closed⟩ := closed
    obtain ⟨-, inner, next, later, rfl, h₁, same, h₂⟩ := Chain.lines_more h
    exact isChainTail_more (by rw [same]; exact continues)
      (body.isStretch version assign body_closed inner h₁)
      (rest.isChainTail version assign rest_closed next later h₂)

end

mutual

theorem Block.isClosed_iff (block : Block) : block.IsClosed ↔ block.Fits False := by
  match block with
  | .done => exact Iff.rfl
  | .line t rest => exact and_congr_right' rest.isClosed_iff
  | .chain branches rest =>
    rw [Block.IsClosed, Block.Fits, false_and, branches.isClosed_iff, rest.isClosed_iff]

theorem Chain.isClosed_iff (branches : Chain) : branches.IsClosed ↔ branches.Fits False := by
  match branches with
  | .last header body none => simp [Chain.IsClosed, Chain.Fits]
  | .last header body (some stop) => simp [Chain.IsClosed, Chain.Fits, body.isClosed_iff, and_comm]
  | .more header body rest => rw [Chain.IsClosed, Chain.Fits, body.isClosed_iff, rest.isClosed_iff]

end

theorem Chain.IsClosed.select (version : Nat) {branches : Chain} (h : branches.IsClosed) :
    (branches.select version).IsClosed :=
  (Block.isClosed_iff _).2 ((branches.isClosed_iff.1 h).select version)

theorem Block.isClosed_resolve (version : Nat) (block : Block) (closed : block.IsClosed) :
    (block.resolve version).IsClosed :=
  (isClosed_iff _).2 ((block.isClosed_iff.1 closed).resolve version)

theorem Chain.isClosed_resolve (version : Nat) (branches : Chain) (closed : branches.IsClosed) :
    (branches.resolve version).IsClosed :=
  (isClosed_iff _).2 ((branches.isClosed_iff.1 closed).resolve version)

theorem Chain.keep_decided (version : Nat) (assign : Nat → Text → Bool) (branches : Chain)
    (closed : branches.IsClosed) (header : NumberedLine) (tail : List NumberedLine)
    (h : (header :: tail).map Prod.fst = branches.render) :
    keep version assign [⟨true, false⟩] tail = [] := by
  match branches with
  | .last first body close =>
    obtain ⟨body_closed, stop, rfl, closes⟩ := closed
    obtain ⟨-, inner, last, rfl, h₁, rfl⟩ := Chain.lines_last h
    rw [body.isStretch version assign body_closed inner h₁, keep_closes closes]
    rfl
  | .more first body rest =>
    obtain ⟨body_closed, continues, rest_closed⟩ := closed
    obtain ⟨-, inner, next, later, rfl, h₁, same, h₂⟩ := Chain.lines_more h
    rw [body.isStretch version assign body_closed inner h₁,
      keep_continues (by rw [same]; exact continues), Frame.enter_decided _ _ _ _ rfl,
      rest.keep_decided version assign rest_closed next later h₂]
    rfl

mutual

/-- Resolution leaves out some lines of a closed block, and the preprocessor keeps the same lines of
the rest, whatever values the other headers have. -/
theorem Block.exists_kept (version : Nat) (block : Block) (closed : block.IsClosed)
    (lines : List NumberedLine) (h : lines.map Prod.fst = block.render) :
    ∃ kept, kept.Sublist lines ∧ kept.map Prod.fst = (block.resolve version).render ∧
      ∀ assign, keep version assign [] kept = keep version assign [] lines := by
  match block with
  | .done =>
    rw [Block.render, List.map_eq_nil_iff] at h
    rw [h]
    exact ⟨[], List.Sublist.refl _, rfl, fun _ => rfl⟩
  | .line t rest =>
    obtain ⟨plain, rest_closed⟩ := closed
    rw [Block.render, List.map_eq_cons_iff] at h
    obtain ⟨line, lines, rfl, rfl, h⟩ := h
    obtain ⟨kept, sub, same, agree⟩ := rest.exists_kept version rest_closed lines h
    refine ⟨line :: kept, sub.cons_cons line, ?_, fun assign => ?_⟩
    · rw [Block.resolve, Block.render, List.map_cons, same]
    · rw [keep_plain plain, keep_plain plain, agree]
  | .chain branches rest =>
    obtain ⟨opens, branches_closed, rest_closed⟩ := closed
    rw [Block.render, List.map_eq_append_iff] at h
    obtain ⟨first, second, rfl, h₁, h₂⟩ := h
    obtain ⟨header, tail, rfl, same⟩ := Chain.exists_header h₁
    obtain ⟨later, later_sub, later_same, later_agree⟩ :=
      rest.exists_kept version rest_closed second h₂
    have header_opens : roleOf header.1 = .opens := by rw [same]; exact opens
    have whole (assign : Nat → Text → Bool) : IsStretch version assign (header :: tail) :=
      (branches.isChainTail version assign branches_closed header tail h₁).isStretch header_opens
    rw [Block.resolve]
    split
    · rename_i resolvable
      obtain ⟨kept, sub, kept_same, agree⟩ :=
        branches.exists_selected version branches_closed resolvable header tail h₁
      have kept_stretch (assign : Nat → Text → Bool) : IsStretch version assign kept :=
        Block.isStretch version assign _
          ((branches.isClosed_resolve version branches_closed).select version) kept kept_same
      refine ⟨kept ++ later, (sub.cons header).append later_sub, ?_, fun assign => ?_⟩
      · rw [Block.render_append, List.map_append, kept_same, later_same]
      · rw [(kept_stretch assign).keep_append, (whole assign).keep_append, later_agree,
          keep_opens header_opens, agree assign Frame.fresh rfl]
    · obtain ⟨kept, sub, kept_same, agree⟩ :=
        branches.exists_kept version branches_closed header tail h₁
      have kept_stretch (assign : Nat → Text → Bool) :
          IsStretch version assign (header :: kept) :=
        (Chain.isChainTail version assign _ (branches.isClosed_resolve version branches_closed)
          header kept kept_same).isStretch header_opens
      refine ⟨header :: kept ++ later, (sub.cons_cons header).append later_sub, ?_, fun assign => ?_⟩
      · rw [Block.render, List.map_append, kept_same, later_same]
      · rw [(kept_stretch assign).keep_append, (whole assign).keep_append, later_agree,
          keep_opens header_opens, keep_opens header_opens, agree]

theorem Chain.exists_kept (version : Nat) (branches : Chain) (closed : branches.IsClosed)
    (header : NumberedLine) (tail : List NumberedLine)
    (h : (header :: tail).map Prod.fst = branches.render) :
    ∃ kept, kept.Sublist tail ∧
      (header :: kept).map Prod.fst = (branches.resolve version).render ∧
      ∀ assign frame, keep version assign [frame] kept = keep version assign [frame] tail := by
  match branches with
  | .last first body close =>
    obtain ⟨body_closed, stop, rfl, closes⟩ := closed
    obtain ⟨same, inner, last, rfl, h₁, rfl⟩ := Chain.lines_last h
    obtain ⟨kept, sub, kept_same, agree⟩ := body.exists_kept version body_closed inner h₁
    refine ⟨kept ++ [last], sub.append (List.Sublist.refl _), ?_, fun assign frame => ?_⟩
    · simp [Chain.resolve, Chain.render, same, kept_same]
    · rw [body.isStretch version assign body_closed inner h₁,
        Block.isStretch version assign _ (body.isClosed_resolve version body_closed) kept kept_same,
        agree]
  | .more first body rest =>
    obtain ⟨body_closed, continues, rest_closed⟩ := closed
    obtain ⟨same, inner, next, tail, rfl, h₁, next_same, h₂⟩ := Chain.lines_more h
    have next_continues : roleOf next.1 = .continues := by rw [next_same]; exact continues
    obtain ⟨kept, sub, kept_same, agree⟩ := body.exists_kept version body_closed inner h₁
    obtain ⟨later, later_sub, later_same, later_agree⟩ :=
      rest.exists_kept version rest_closed next tail h₂
    refine ⟨kept ++ next :: later, sub.append (later_sub.cons_cons next), ?_,
      fun assign frame => ?_⟩
    · rw [Chain.resolve, Chain.render, List.map_cons, List.map_append, same, kept_same, later_same,
        List.cons_append]
    · rw [body.isStretch version assign body_closed inner h₁,
        Block.isStretch version assign _ (body.isClosed_resolve version body_closed) kept kept_same,
        agree, keep_continues next_continues, keep_continues next_continues, later_agree]

theorem Chain.exists_selected (version : Nat) (branches : Chain) (closed : branches.IsClosed)
    (resolvable : branches.isResolvable version = true) (header : NumberedLine)
    (tail : List NumberedLine) (h : (header :: tail).map Prod.fst = branches.render) :
    ∃ kept, kept.Sublist tail ∧
      kept.map Prod.fst = ((branches.resolve version).select version).render ∧
      ∀ assign (frame : Frame), frame.decided = false →
        keep version assign [frame.enter version assign header] tail =
          keep version assign [] kept := by
  match branches with
  | .last first body close =>
    obtain ⟨body_closed, stop, rfl, closes⟩ := closed
    rw [Chain.isResolvable, Option.isSome_iff_exists] at resolvable
    obtain ⟨value, resolvable⟩ := resolvable
    obtain ⟨rfl, inner, last, rfl, h₁, rfl⟩ := Chain.lines_last h
    obtain ⟨kept, sub, kept_same, agree⟩ := body.exists_kept version body_closed inner h₁
    have run (assign : Nat → Text → Bool) (frame : Frame) (undecided : frame.decided = false) :
        keep version assign [frame.enter version assign header] (inner ++ [last]) =
          if value then keep version assign [] inner else [] := by
      rw [body.isStretch version assign body_closed inner h₁, keep_closes closes,
        Frame.enter_of_applies? assign undecided resolvable]
      cases value <;> simp [keep_nil]
    rw [Chain.resolve, Chain.select, resolvable]
    cases value with
    | true =>
      exact ⟨kept, sub.trans (List.sublist_append_left _ _), kept_same,
        fun assign frame undecided => by rw [run assign frame undecided, agree]; rfl⟩
    | false =>
      exact ⟨[], List.nil_sublist _, rfl,
        fun assign frame undecided => by rw [run assign frame undecided]; rfl⟩
  | .more first body rest =>
    obtain ⟨body_closed, continues, rest_closed⟩ := closed
    rw [Chain.isResolvable, Bool.and_eq_true, Option.isSome_iff_exists] at resolvable
    obtain ⟨⟨value, resolvable⟩, rest_resolvable⟩ := resolvable
    obtain ⟨rfl, inner, next, tail, rfl, h₁, next_same, h₂⟩ := Chain.lines_more h
    have next_continues : roleOf next.1 = .continues := by rw [next_same]; exact continues
    have run (assign : Nat → Text → Bool) (frame : Frame) (undecided : frame.decided = false) :
        keep version assign [frame.enter version assign header] (inner ++ next :: tail) =
          (if value then keep version assign [] inner else []) ++
            keep version assign [Frame.enter version assign ⟨value, value⟩ next] tail := by
      rw [body.isStretch version assign body_closed inner h₁, keep_continues next_continues,
        Frame.enter_of_applies? assign undecided resolvable]
      cases value <;> rfl
    rw [Chain.resolve, Chain.select, resolvable]
    cases value with
    | true =>
      -- The rest of the chain is decided, so it keeps nothing.
      obtain ⟨kept, sub, kept_same, agree⟩ := body.exists_kept version body_closed inner h₁
      refine ⟨kept, sub.trans (List.sublist_append_left _ _), kept_same,
        fun assign frame undecided => ?_⟩
      rw [run assign frame undecided, Frame.enter_decided _ _ _ _ rfl,
        rest.keep_decided version assign rest_closed next tail h₂, agree]
      simp
    | false =>
      obtain ⟨kept, sub, kept_same, agree⟩ :=
        rest.exists_selected version rest_closed rest_resolvable next tail h₂
      refine ⟨kept, (sub.cons next).trans (List.sublist_append_right _ _), kept_same,
        fun assign frame undecided => ?_⟩
      rw [run assign frame undecided, agree assign _ rfl]
      rfl

end

theorem keep_map (version : Nat) (assign : Nat → Text → Bool) (number : Nat → Nat)
    (stack : List Frame) (lines : List NumberedLine) :
    keep version assign stack (lines.map fun line => (line.1, number line.2)) =
      keep version (fun n => assign (number n)) stack lines := by
  fun_induction keep version (fun n => assign (number n)) stack lines <;>
    simp_all [keep, Frame.enter]

theorem getD_of_mem_zipIdx {lines : List Text} {line : NumberedLine} (h : line ∈ lines.zipIdx) :
    lines.getD line.2 [] = line.1 := by
  rw [List.getD_eq_getElem?_getD, List.mem_zipIdx_iff_getElem?.1 h, Option.getD_some]

theorem map_zipIdx_getD (lines : List NumberedLine) :
    ((lines.map Prod.fst).zipIdx.map fun line => (line.1, (lines.map Prod.snd).getD line.2 0)) =
      lines := by
  apply List.ext_getElem
  · simp
  · intro i h _
    simp only [List.length_map, List.length_zipIdx] at h
    simp [h]

/-- Resolving the version conditions of a well-nested text leaves out some of its lines, `kept` being
the numbers of the others, and does not change what the preprocessor makes of it: the values of the
headers that are left may be chosen at will, place by place. -/
theorem preprocess_downlevel (t : Text) (version : Nat)
    (nested : wellNested 0 (Text.feedLines t) = true) :
    ∃ kept : List Nat, kept.Pairwise (· < ·) ∧ (∀ n ∈ kept, n < (Text.feedLines t).length) ∧
      downlevel t version = Text.joinFeeds (kept.map fun n => (Text.feedLines t).getD n []) ∧
      ∀ assign, preprocess version (fun n => assign (kept.getD n 0)) (downlevel t version) =
        preprocess version assign t := by
  have numbered : (Text.feedLines t).zipIdx.map Prod.fst =
      (Block.ofLines (Text.feedLines t)).render := by
    rw [List.zipIdx_map_fst, Block.render_ofLines]
  obtain ⟨lines, sub, same, agree⟩ :=
    Block.exists_kept version _ (isClosed_ofLines nested) _ numbered
  have text : downlevel t version = Text.joinFeeds (lines.map Prod.fst) := by rw [same]; rfl
  refine ⟨lines.map Prod.snd, ?_, ?_, ?_, fun assign => ?_⟩
  · apply List.Pairwise.sublist (sub.map Prod.snd)
    rw [List.zipIdx_map_snd]
    exact List.pairwise_lt_range'
  · intro n hn
    obtain ⟨line, member, rfl⟩ := List.mem_map.1 hn
    have found := List.mem_zipIdx_iff_getElem?.1 (sub.mem member)
    exact (List.getElem?_eq_some_iff.1 found).1
  · rw [text, List.map_map]
    apply congrArg
    apply List.map_congr_left
    intro line member
    exact (getD_of_mem_zipIdx (sub.mem member)).symm
  · unfold preprocess
    rw [← agree assign, text]
    by_cases none_left : lines = []
    · -- The empty text still has one empty line, which joins to the same text as no line.
      subst none_left
      rfl
    · have again : Text.feedLines (Text.joinFeeds (lines.map Prod.fst)) = lines.map Prod.fst := by
        apply Text.feedLines_joinFeeds_of_sublist (t := t)
        · simpa using none_left
        · have := sub.map Prod.fst
          rwa [List.zipIdx_map_fst] at this
      rw [again, ← keep_map version assign (fun n => (lines.map Prod.snd).getD n 0) [],
        map_zipIdx_getD]

/-- A version chain around a chain that stays, and a mixed chain after it. -/
theorem preprocess_downlevel_nested :
    let t := ("#if __VERSION__ >= 300\n#ifdef A\nx\n#endif\n#else\ny\n#endif\n" ++
      "#ifdef B\nz\n#elif __VERSION__ < 300\nw\n#endif").toList
    wellNested 0 (Text.feedLines t) = true ∧
      ∃ kept : List Nat, kept.Pairwise (· < ·) ∧ (∀ n ∈ kept, n < (Text.feedLines t).length) ∧
        downlevel t 460 = Text.joinFeeds (kept.map fun n => (Text.feedLines t).getD n []) ∧
        ∀ assign, preprocess 460 (fun n => assign (kept.getD n 0)) (downlevel t 460) =
          preprocess 460 assign t := by
  intro t
  have nested : wellNested 0 (Text.feedLines t) = true := by decide +kernel
  exact ⟨nested, preprocess_downlevel t 460 nested⟩

end ShaderPass.Conditional
